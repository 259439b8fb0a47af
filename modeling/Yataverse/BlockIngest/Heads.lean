import Yataverse.BlockIngest.Requests

/-!
# Head sequence numbers

"seq must grow", so that a head can never be rolled back. The record a PUT compares
with is read when the request starts; where the hold check asks Kubo, other requests
run before the comparison is made.

- `decision`: the turn that compares and writes; no other turn touches a head file.
- `Careful`: no comparison that is out of date lets a PUT through which the stored
  record would refuse.
- `head_never_rolled_back`: runs of careful steps never roll a head back.
- `head_rolled_back`: two overlapping PUTs of raw heads do.
-/

namespace BlockIngest

open Js GraphHead EventLoop Function

/-! ## What a PUT of a head does -/

/-- The head files are not touched. -/
def SameHeads (f f' : Files) : Prop := f'.heads = f.heads

theorem SameHeads.refl (f : Files) : SameHeads f f := rfl

theorem SameHeads.trans (f f' f'' : Files) (h : SameHeads f f') (h' : SameHeads f' f'') :
    SameHeads f f'' := Eq.trans h' h

/-- The comparison with a record lets a sequence number through. -/
def Passes (seq : Int) (current : Json) : Prop :=
  (current.truthy && leJson seq (current.get (js "seq"))) = false

instance (seq : Int) (current : Json) : Decidable (Passes seq current) :=
  inferInstanceAs (Decidable (_ = false))

/-- The turn that compares and writes, answered. -/
def decision (p : Hold) (name : JsString) (seq now : Int) (current : Json) (isHeld : Bool) :
    Step Response :=
  (compareAndWrite p name seq now current isHeld).handle fun e => .ret (answerError e)

section Decision

variable {p : Hold} {name : JsString} {seq now : Int} {current : Json} {isHeld : Bool}

/-- The decision writes and answers 200, or does nothing and answers 409. -/
theorem decision_turn (f : Files) :
    (isHeld = true ∧ Passes seq current ∧
      (decision p name seq now current isHeld).turn f =
        (f.putHead p.suffix name (headRecord p.cid seq now),
          .settled (.ok (json 200 (headRecord p.cid seq now))))) ∨
    ∃ resp, resp.status = 409 ∧
      (decision p name seq now current isHeld).turn f = (f, .settled (.ok resp)) := by
  unfold decision compareAndWrite Passes
  cases isHeld with
  | false => exact .inr ⟨_, rfl, rfl⟩
  | true =>
    cases hp : current.truthy && leJson seq (current.get (js "seq"))
    · exact .inl ⟨rfl, rfl, rfl⟩
    · exact .inr ⟨_, rfl, rfl⟩

end Decision

/-- A request that is not a PUT of a head leaves the head files alone. -/
theorem go_of_headPut_none {nc : NodeCrypto} {opts : Opts} {now : Int} {req : Request}
    (h : headPut req = none) : (go nc opts now req).Keeps (fun _ => True) SameHeads :=
  go_keeps (fun _ _ => trivial)
    (fun _ _ _ _ => ⟨trivial, fun _ => ⟨trivial, trivial⟩, fun _ => ⟨trivial, fun _ => rfl⟩⟩)
    (fun _ _ => ⟨fun _ => trivial, fun _ => ⟨trivial, fun _ => rfl⟩⟩)
    fun _ _ _ hp => by simp [h] at hp

/-! ## Stored and answered sequence numbers -/

/-- The sequence number of a record: 0 when there is none. -/
def seqOf (rec : Json) : Int :=
  match rec.get (js "seq") with
  | .num (.int n) => n
  | _ => 0

/-- The sequence number stored for a head. -/
def storedSeq (f : Files) (suffix name : JsString) : Int := seqOf (f.head suffix name)

/-- What this service stores as a head. -/
def IsRecord (rec : Json) : Prop :=
  rec = .null ∨ ∃ cid seq now, 0 < seq ∧ rec = headRecord cid seq now

theorem seqOf_headRecord (cid : JsString) (seq now : Int) : seqOf (headRecord cid seq now) = seq :=
  rfl

/-- A sequence number that passes a record is above it. -/
theorem IsRecord.lt_of_passes {rec : Json} {seq : Int} (h : IsRecord rec) (hseq : 0 < seq)
    (hp : Passes seq rec) : seqOf rec < seq := by
  obtain rfl | ⟨cid, n, now, -, rfl⟩ := h
  · exact hseq
  · have : leJson seq (.num (.int n)) = false := hp
    simpa [leJson, seqOf_headRecord] using this

/-- No head went backwards. -/
def Grows (f f' : Files) : Prop := ∀ suffix name, storedSeq f suffix name ≤ storedSeq f' suffix name

theorem Grows.of_sameHeads {f f' : Files} (h : SameHeads f f') : Grows f f' := by
  intro suffix name
  rw [storedSeq, storedSeq, Files.head, Files.head, Files.readAll, Files.readAll, h]

section Runs

variable {ι : Type} (reqs : ι → Int × Request)

/-- The sequence number with which request `i` has been answered 200 as a PUT of a head. -/
def answeredSeq (suffix name : JsString) : Event ι Err Response → Option Int
  | .ended i (.ok resp) =>
    match headPut (reqs i).2 with
    | some (p, n, seq) => if p.suffix = suffix ∧ n = name ∧ resp.status = 200 then some seq else none
    | none => none
  | _ => none

/-- The sequence numbers answered 200 for a head, in the order of the answers. -/
def answeredSeqs (suffix name : JsString) (hist : List (Event ι Err Response)) : List Int :=
  hist.filterMap (answeredSeq reqs suffix name)

/-- **When the code keeps heads from going back**: when the hold check of a PUT of a
head has been answered and the comparison with the record read at the start lets the
PUT through, so does the record that is stored by now. -/
def Careful {E X : Type} (c : Cfg ι Files E Cmd (fun _ => Proc) Err Response) : Label ι X → Prop
  | .turn i => ∀ p name seq current, headPut (reqs i).2 = some (p, name, seq) →
      c.phase i = .ready (decision p name seq (reqs i).1 current true) →
      Passes seq current → Passes seq (c.mem.head p.suffix name)
  | _ => True

/-- A chain that request `i` may still have to run: not a PUT of a head, or one that
only has its decision left. -/
def Pending (i : ι) (t : Step Response) : Prop :=
  match headPut (reqs i).2 with
  | none => t.Keeps (fun _ => True) SameHeads
  | some (p, name, seq) => ∃ current isHeld, t = decision p name seq (reqs i).1 current isHeld

/-- What is known of request `i` in a run. -/
def HeadPhase (i : ι) : Phase Files Cmd (fun _ => Proc) Err Response → Prop
  | .ready t => Pending reqs i t
  | .waiting _ k => ∀ r, Pending reqs i (k r)
  | _ => True

/-- The invariant of a run. -/
structure HeadsInv {E : Type} (c : Cfg ι Files E Cmd (fun _ => Proc) Err Response) : Prop where
  record : ∀ suffix name, IsRecord (c.mem.head suffix name)
  phase : ∀ i, HeadPhase reqs i (c.phase i)
  growing : ∀ suffix name, (answeredSeqs reqs suffix name c.hist).Pairwise (· < ·)
  bounded : ∀ suffix name, ∀ n ∈ answeredSeqs reqs suffix name c.hist,
    n ≤ storedSeq c.mem suffix name

/-! ## Steps and runs -/

section Steps

variable {reqs} {E : Type} {c : Cfg ι Files E Cmd (fun _ => Proc) Err Response}

@[simp] theorem answeredSeqs_began (suffix name : JsString) (hist : List (Event ι Err Response))
    (i : ι) : answeredSeqs reqs suffix name (hist ++ [.began i]) =
      answeredSeqs reqs suffix name hist := by
  simp [answeredSeqs, answeredSeq]

theorem answeredSeqs_ended (suffix name : JsString) (hist : List (Event ι Err Response)) (i : ι)
    (r : Except Err Response) : answeredSeqs reqs suffix name (hist ++ [.ended i r]) =
      answeredSeqs reqs suffix name hist ++ (answeredSeq reqs suffix name (.ended i r)).toList := by
  rw [answeredSeqs, List.filterMap_append, ← answeredSeqs]
  cases h : answeredSeq reqs suffix name (.ended i r) <;> simp [h]

theorem Grows.refl (f : Files) : Grows f f := fun _ _ => le_refl _

theorem Grows.trans {f f' f'' : Files} (h : Grows f f') (h' : Grows f' f'') : Grows f f'' :=
  fun suffix name => (h suffix name).trans (h' suffix name)

theorem headsInv_start (e : E) : HeadsInv reqs (Cfg.start Files.empty e) :=
  ⟨fun _ _ => .inl rfl, fun _ => trivial, fun _ _ => .nil, fun _ _ _ h => by cases h⟩

theorem HeadsInv.arrival [DecidableEq ι] (h : HeadsInv reqs c) (i : ι) :
    HeadsInv reqs (Loop.arrival c i) :=
  ⟨h.record, h.phase, fun suffix name => by simpa [Loop.arrival] using h.growing suffix name,
    fun suffix name => by simpa [Loop.arrival] using h.bounded suffix name⟩

/-- A turn that touches no head file and answers no PUT of a head with 200. -/
theorem HeadsInv.quiet [DecidableEq ι] (h : HeadsInv reqs c) {i : ι} {t : Step Response}
    (hm : SameHeads c.mem (t.turn c.mem).1)
    (hstop : match (t.turn c.mem).2 with
      | .waiting _ k => ∀ r, Pending reqs i (k r)
      | .settled r => ∀ suffix name, answeredSeq reqs suffix name (.ended i r) = none) :
    HeadsInv reqs (Loop.afterTurn c i t) ∧ Grows c.mem (Loop.afterTurn c i t).mem := by
  have hg : Grows c.mem (t.turn c.mem).1 := .of_sameHeads hm
  have hans : ∀ suffix name, answeredSeqs reqs suffix name (Loop.afterTurn c i t).hist =
      answeredSeqs reqs suffix name c.hist := by
    intro suffix name
    unfold Loop.afterTurn Loop.endOf
    revert hstop
    cases (t.turn c.mem).2 with
    | waiting cmd k => simp
    | settled r =>
      intro hstop
      simp [answeredSeqs_ended, hstop suffix name]
  refine ⟨⟨fun suffix name => ?_, fun j => ?_, fun suffix name => ?_, fun suffix name n hn => ?_⟩, hg⟩
  · have := h.record suffix name
    rwa [Files.head, Files.readAll, ← hm] at this
  · by_cases hj : j = i
    · subst hj
      simp only [Loop.afterTurn, update_self]
      revert hstop
      cases (t.turn c.mem).2 with
      | waiting cmd k => exact id
      | settled r => exact fun _ => trivial
    · simpa [Loop.afterTurn, hj] using h.phase j
  · rw [hans]
    exact h.growing suffix name
  · rw [hans] at hn
    exact (h.bounded suffix name n hn).trans (hg suffix name)

/-- A decision that the stored record agrees with. -/
theorem HeadsInv.decision [DecidableEq ι] (h : HeadsInv reqs c) {i : ι} {p : Hold} {name : JsString}
    {seq now : Int} {current : Json} {isHeld : Bool} (hput : headPut (reqs i).2 = some (p, name, seq))
    (hp : isHeld = true → Passes seq current → Passes seq (c.mem.head p.suffix name)) :
    HeadsInv reqs (Loop.afterTurn c i (decision p name seq now current isHeld)) ∧
      Grows c.mem (Loop.afterTurn c i (decision p name seq now current isHeld)).mem := by
  obtain ⟨hh, hpass, ht⟩ | ⟨resp, hs, ht⟩ := @decision_turn p name seq now current isHeld c.mem
  · have hpos := headPut_pos hput
    have hlt : storedSeq c.mem p.suffix name < seq :=
      (h.record p.suffix name).lt_of_passes hpos (hp hh hpass)
    have hstored : ∀ suffix n,
        storedSeq (c.mem.putHead p.suffix name (headRecord p.cid seq now)) suffix n =
          if suffix = p.suffix ∧ n = name then seq else storedSeq c.mem suffix n := by
      intro suffix n
      rw [storedSeq, Files.head_putHead]
      split
      · exact seqOf_headRecord ..
      · rfl
    have hg : Grows c.mem (c.mem.putHead p.suffix name (headRecord p.cid seq now)) := by
      intro suffix n
      rw [hstored]
      split
      · rename_i he
        obtain ⟨rfl, rfl⟩ := he
        exact hlt.le
      · exact le_refl _
    have hans : ∀ suffix n,
        answeredSeq reqs suffix n (.ended i (.ok (json 200 (headRecord p.cid seq now)))) =
          if suffix = p.suffix ∧ n = name then some seq else none := by
      intro suffix n
      simp [answeredSeq, hput, json, eq_comm]
    have hmem : (Loop.afterTurn c i (BlockIngest.decision p name seq now current isHeld)).mem =
        c.mem.putHead p.suffix name (headRecord p.cid seq now) := by
      simp [Loop.afterTurn, ht]
    have hhist : (Loop.afterTurn c i (BlockIngest.decision p name seq now current isHeld)).hist =
        c.hist ++ [.ended i (.ok (json 200 (headRecord p.cid seq now)))] := by
      simp [Loop.afterTurn, ht, Loop.endOf]
    refine ⟨⟨fun suffix n => ?_, fun j => ?_, fun suffix n => ?_, fun suffix n => ?_⟩, ?_⟩
    · rw [hmem, Files.head_putHead]
      split
      · exact .inr ⟨_, _, _, hpos, rfl⟩
      · exact h.record suffix n
    · by_cases hj : j = i
      · subst hj
        simp [Loop.afterTurn, ht, HeadPhase]
      · simpa [Loop.afterTurn, hj] using h.phase j
    · rw [hhist, answeredSeqs_ended, hans]
      split
      · rename_i he
        obtain ⟨rfl, rfl⟩ := he
        refine List.pairwise_append.mpr ⟨h.growing _ _, List.pairwise_singleton _ _, ?_⟩
        intro a ha b hb
        obtain rfl := List.mem_singleton.mp hb
        exact (h.bounded _ _ a ha).trans_lt hlt
      · simpa using h.growing suffix n
    · intro m hm
      rw [hhist, answeredSeqs_ended, hans] at hm
      rw [hmem, hstored]
      split at hm
      · rename_i he
        rw [if_pos he]
        obtain ⟨rfl, rfl⟩ := he
        rcases List.mem_append.mp hm with hm | hm
        · exact (h.bounded _ _ m hm).trans hlt.le
        · exact (List.mem_singleton.mp hm).le
      · rename_i he
        rw [if_neg he]
        exact h.bounded suffix n m (by simpa using hm)
    · rw [hmem]
      exact hg
  · refine h.quiet ?_ ?_
    · rw [ht]
      rfl
    · rw [ht]
      intro suffix n
      simp [answeredSeq, hput, hs]

/-- A turn of a pending chain whose comparison, if it is made, is not out of date. -/
theorem HeadsInv.pending [DecidableEq ι] (h : HeadsInv reqs c) {i : ι} {t : Step Response}
    (ht : Pending reqs i t)
    (hc : ∀ p name seq current, headPut (reqs i).2 = some (p, name, seq) →
      t = BlockIngest.decision p name seq (reqs i).1 current true →
      Passes seq current → Passes seq (c.mem.head p.suffix name)) :
    HeadsInv reqs (Loop.afterTurn c i t) ∧ Grows c.mem (Loop.afterTurn c i t).mem := by
  cases hput : headPut (reqs i).2 with
  | none =>
    have hk : t.Keeps (fun _ => True) SameHeads := by simpa [Pending, hput] using ht
    obtain ⟨hm, hw⟩ := hk.turn SameHeads.refl SameHeads.trans c.mem
    refine h.quiet hm ?_
    split
    · rename_i cmd k hstop
      intro r
      simpa [Pending, hput] using (hw cmd k hstop).2 r
    · rename_i r _
      intro suffix name
      cases r with
      | error e => rfl
      | ok resp => simp [answeredSeq, hput]
  | some v =>
    obtain ⟨p, name, seq⟩ := v
    obtain ⟨current, isHeld, rfl⟩ : ∃ current isHeld,
        t = BlockIngest.decision p name seq (reqs i).1 current isHeld := by
      simpa [Pending, hput] using ht
    refine h.decision hput fun hh => ?_
    subst hh
    exact hc p name seq current hput rfl

variable [DecidableEq ι] {X : Type} {nc : NodeCrypto} {opts : Opts}
  {exec : E → Cmd → X → Option (Proc × E)}
  {c' : Cfg ι Files E Cmd (fun _ => Proc) Err Response} {l : Label ι X}

/-- The first turn of a request. -/
theorem HeadsInv.spawn (h : HeadsInv reqs c) (i : ι) :
    HeadsInv reqs (Loop.afterTurn c i (go nc opts (reqs i).1 (reqs i).2)) ∧
      Grows c.mem (Loop.afterTurn c i (go nc opts (reqs i).1 (reqs i).2)).mem := by
  cases hput : headPut (reqs i).2 with
  | none =>
    refine h.pending ?_ fun p name seq current hp => by simp [hput] at hp
    simpa [Pending, hput] using go_of_headPut_none hput
  | some v =>
    obtain ⟨p, name, seq⟩ := v
    obtain ⟨resp, hs, hgo⟩ | hgo := go_of_headPut hput
    · rw [hgo]
      exact h.quiet rfl fun suffix n => by simp [answeredSeq, hput, hs]
    · rw [hgo]
      by_cases hu : unixfs p.cid
      · -- the hold check asks Kubo: the decision is left for a later turn
        refine h.quiet ?_ ?_ <;> simp only [putHead, if_pos hu, held]
        · rfl
        · intro r
          simp only [Pending, hput]
          exact ⟨c.mem.head p.suffix name, r.exited 0, rfl⟩
      · -- the hold check reads the files: the decision is made at once
        simp only [putHead, if_neg hu, held]
        exact h.decision hput fun _ hp => hp

/-- Every careful step keeps the invariant, and no head goes back. -/
theorem HeadsInv.step (h : HeadsInv reqs c) (hc : Careful reqs c l)
    (hs : (service nc opts reqs exec).step c l = some c') :
    HeadsInv reqs c' ∧ Grows c.mem c'.mem := by
  cases l with
  | arrive i =>
    obtain ⟨-, rfl⟩ := Loop.step_arrive hs
    exact (h.arrival i).spawn i
  | turn i =>
    obtain ⟨t, ht, rfl⟩ := Loop.step_turn hs
    have hp := h.phase i
    rw [ht] at hp
    exact h.pending hp fun p name seq current hput hd => hc p name seq current hput (hd ▸ ht)
  | serve i x =>
    obtain ⟨cmd, k, r, e', hw, -, rfl⟩ := Loop.step_serve hs
    refine ⟨⟨h.record, fun j => ?_, h.growing, h.bounded⟩, .refl _⟩
    by_cases hj : j = i
    · subst hj
      have hp := h.phase j
      rw [hw] at hp
      simpa [HeadPhase] using hp r
    · simpa [hj] using h.phase j
  | tick x => cases hs
  | kill i =>
    obtain ⟨-, rfl⟩ := Loop.step_kill hs
    refine ⟨⟨h.record, fun j => ?_, h.growing, h.bounded⟩, .refl _⟩
    by_cases hj : j = i
    · subst hj
      simp [HeadPhase]
    · simpa [hj] using h.phase j

/-- A run of careful steps. -/
theorem HeadsInv.run (h : HeadsInv reqs c)
    (hr : (service nc opts reqs exec).Reaches (Careful reqs) c c') :
    HeadsInv reqs c' ∧ Grows c.mem c'.mem := by
  induction hr with
  | refl => exact ⟨h, .refl _⟩
  | tail _ hc hs ih =>
    obtain ⟨hi, hg⟩ := ih
    obtain ⟨hi', hg'⟩ := hi.step hc hs
    exact ⟨hi', hg.trans hg'⟩

end Steps

/-- Heads are never rolled back between `c` and `c'`: no stored sequence number has
decreased, and each PUT of a head answered 200 is above those answered before it. -/
def NeverRolledBack {E : Type} (c c' : Cfg ι Files E Cmd (fun _ => Proc) Err Response) : Prop :=
  Grows c.mem c'.mem ∧
    ∀ suffix name, (answeredSeqs reqs suffix name c'.hist).Pairwise (· < ·)

end Runs

/-- **A head is never rolled back**, between any two configurations of a run of careful
steps: any requests, any outside, any interleaving. -/
theorem head_never_rolled_back {ι E X : Type} [DecidableEq ι] {nc : NodeCrypto} {opts : Opts}
    {reqs : ι → Int × Request} {exec : E → Cmd → X → Option (Proc × E)} {e : E}
    {c c' : Cfg ι Files E Cmd (fun _ => Proc) Err Response}
    (h : (service nc opts reqs exec).Reaches (Careful reqs) (.start Files.empty e) c)
    (h' : (service nc opts reqs exec).Reaches (Careful reqs) c c') : NeverRolledBack reqs c c' := by
  obtain ⟨hi, -⟩ := (headsInv_start e).run h
  obtain ⟨hi', hg⟩ := hi.run h'
  exact ⟨hg, hi'.growing⟩

/-! ## Two overlapping PUTs -/

namespace Sample

/-- Alice's PUTs of her head, with sequence numbers 1 and 2. -/
def twoHeads (i : Fin 2) : Int × Request := putStatement (i + 1)

/-- A Kubo where Alice holds the block. -/
def holding : Kubo := ⟨[(cidRaw, rawBlock)], [], [⟨alice.drop 8, cidRaw⟩]⟩

/-- One after the other. -/
def inTurn : List (Label (Fin 2) Unit) :=
  [.arrive 0, .serve 0 (), .turn 0, .arrive 1, .serve 1 (), .turn 1]

/-- The hold check of the first is answered last. -/
def overtaking : List (Label (Fin 2) Unit) :=
  [.arrive 0, .arrive 1, .serve 1 (), .turn 1, .serve 0 (), .turn 0]

/-- The stored record lets through every PUT of a head whose turn it is. -/
def fresh (c : Cfg (Fin 2) Files Kubo Cmd (fun _ => Proc) Err Response) :
    Label (Fin 2) Unit → Bool
  | .turn i => (headPut (twoHeads i).2).all fun (p, name, seq) =>
      Passes seq (c.mem.head p.suffix name)
  | _ => true

theorem careful_of_fresh {c : Cfg (Fin 2) Files Kubo Cmd (fun _ => Proc) Err Response}
    {l : Label (Fin 2) Unit} (h : fresh c l = true) : Careful twoHeads c l := by
  cases l with
  | turn i =>
    intro p name seq current hput _ _
    simpa [fresh, hput] using h
  | arrive i => trivial
  | serve i x => trivial
  | tick x => trivial
  | kill i => trivial

end Sample

open Sample in
/-- Two PUTs one after the other. -/
theorem head_never_rolled_back_sample : ∃ c,
    (kuboService blockCrypto opts twoHeads).run (.start Files.empty holding) inTurn = some c ∧
      NeverRolledBack twoHeads (.start Files.empty holding) c := by
  have hsteps : (kuboService blockCrypto opts twoHeads).steps fresh (.start Files.empty holding)
      inTurn = true := by decide +kernel
  obtain ⟨c, hrun, hr⟩ := Loop.reaches_of_steps hsteps
  exact ⟨c, hrun, head_never_rolled_back .refl (hr.mono fun _ _ => careful_of_fresh)⟩

open Sample in
/-- **Overlapping PUTs roll a head back.** Both read that there is no head yet. The one
with sequence number 2 is stored and answered 200; then the hold check of the other one is
answered, and it is stored and answered 200 too. -/
theorem head_rolled_back : ∃ c c',
    (kuboService blockCrypto opts twoHeads).run (.start Files.empty holding)
        (overtaking.take 4) = some c ∧
      (kuboService blockCrypto opts twoHeads).run c (overtaking.drop 4) = some c' ∧
      storedSeq c.mem (alice.drop 8) (js "statement") = 2 ∧
      storedSeq c'.mem (alice.drop 8) (js "statement") = 1 ∧
      answeredSeqs twoHeads (alice.drop 8) (js "statement") c'.hist = [2, 1] ∧
      ¬ NeverRolledBack twoHeads c c' := by
  have h : (((kuboService blockCrypto opts twoHeads).run (.start Files.empty holding)
      (overtaking.take 4)).bind fun c =>
        ((kuboService blockCrypto opts twoHeads).run c (overtaking.drop 4)).map fun c' =>
          (storedSeq c.mem (alice.drop 8) (js "statement"),
            storedSeq c'.mem (alice.drop 8) (js "statement"),
            answeredSeqs twoHeads (alice.drop 8) (js "statement") c'.hist)) =
      some (2, 1, [2, 1]) := by decide +kernel
  obtain ⟨c, hc, h⟩ := Option.bind_eq_some_iff.mp h
  obtain ⟨c', hc', h⟩ := Option.map_eq_some_iff.mp h
  obtain ⟨h₁, h₂, h₃⟩ := by simpa using h
  refine ⟨c, c', hc, hc', h₁, h₂, h₃, fun hn => ?_⟩
  have := hn.1 (alice.drop 8) (js "statement")
  omega

end BlockIngest
