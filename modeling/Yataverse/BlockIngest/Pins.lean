import Yataverse.BlockIngest.Requests
import Yataverse.Protocol.SharedHold

/-!
# Pins and hold files

A dag-cbor hold is a direct pin plus the signer's entry in a hold file. A PUT pins and
then records, a DELETE removes the record, looks whether anyone else holds the block and
then unpins. The pin commands take their time, and other requests run meanwhile.

- `fileOp`: the operation of a request on a hold file.
- `Shape`: how far a request is, as a stage of `SharedHold`.
- `CarefulUnpins`: an unpin takes effect only where nobody holds the block, and nobody has
  pinned it and not recorded it yet.
- `holds_agree`: runs of careful steps keep pins and hold files in agreement.
- `holds_disagree`: a PUT between the last-holder check of a DELETE and its unpin is lost.
-/

namespace BlockIngest

open Js GraphHead EventLoop Function SharedHold

/-! ## The chains of a hold file -/

/-- What a PUT has left to do when its block has been put. -/
def afterPut (p : Hold) (buf : Bytes) (r : Proc) : Step Response :=
  (((do
      ensure (r.exited 0) (.unmeasured (js "block put: " ++ trim r.err))
      return trim (ofUtf8 r.out)) : Step JsString).bind fun got => do
    ensure (got = p.cid) (.unmeasured (js "Kubo stored " ++ got ++ js " for " ++ p.cid))
    hold p
    return stored p p.cid buf 201).handle fun e => .ret (answerError e)

/-- What a PUT has left to do when its block has been pinned. -/
def afterPin (p : Hold) (buf : Bytes) (r : Proc) : Step Response :=
  (((do
      ensure (r.exited 0) (.unmeasured (js "pin add: " ++ trim r.err))
      Task.modify (Files.add p.suffix p.cid)) : Step Unit).bind fun _ =>
    .ret (stored p p.cid buf 201)).handle fun e => .ret (answerError e)

/-- What a DELETE has left to do when the block has been unpinned. -/
def afterRm (p : Hold) (_ : Proc) : Step Response :=
  .ret (json 200 (.obj [(js "released", .str p.cid)]))

section Turns

variable {p : Hold} {codec : Codec} {buf : Bytes} {f : Files}

/-- The first turn of a PUT. -/
theorem put_turn (hu : unixfs p.cid = false) :
    ((putBlock p p.cid codec buf).handle fun e => .ret (answerError e)).turn f =
      if f.held p.suffix p.cid then (f, .settled (.ok (stored p p.cid buf 200)))
      else (f, .waiting (.blockPut codec buf) (afterPut p buf)) := by
  simp only [putBlock, held, hu, Bool.false_eq_true, if_false, Task.reads, Task.bind_eq,
    Task.bind_get, Task.bind_ret, Task.handle_get, Task.turn_get]
  cases f.held p.suffix p.cid <;> rfl

/-- The turn behind the put: a failure, or on to the pin. -/
theorem afterPut_turn (hu : unixfs p.cid = false) (r : Proc) :
    (∃ resp, resp.status ≠ 200 ∧ resp.status ≠ 201 ∧
      (afterPut p buf r).turn f = (f, .settled (.ok resp))) ∨
    (afterPut p buf r).turn f = (f, .waiting (.pinAdd p.cid) (afterPin p buf)) := by
  have h₁ : ∀ msg, (answerError (.unmeasured msg)).status ≠ 200 := fun _ =>
    (by decide : (503 : Nat) ≠ 200)
  have h₂ : ∀ msg, (answerError (.unmeasured msg)).status ≠ 201 := fun _ =>
    (by decide : (503 : Nat) ≠ 201)
  unfold afterPut
  cases hr : r.exited 0 with
  | false => exact .inl ⟨answerError _, h₁ _, h₂ _, rfl⟩
  | true =>
    by_cases hgot : trim (ofUtf8 r.out) = p.cid
    · refine .inr ?_
      simp only [ensure, if_true, Task.bind_eq, Task.pure_eq, Task.bind_ret, hgot, decide_true, hold,
        hu]
      rfl
    · refine .inl ⟨answerError (.unmeasured
        (js "Kubo stored " ++ trim (ofUtf8 r.out) ++ js " for " ++ p.cid)), h₁ _, h₂ _, ?_⟩
      simp only [ensure, if_true, Task.bind_eq, Task.pure_eq, Task.bind_ret, hgot, decide_false]
      rfl

/-- The turn behind a pin that has succeeded. -/
theorem afterPin_turn :
    (afterPin p buf (exited 0 [] [])).turn f =
      (f.add p.suffix p.cid, .settled (.ok (stored p p.cid buf 201))) := rfl

/-- The first turn of a DELETE. -/
theorem delete_turn (hu : unixfs p.cid = false) :
    ((deleteBlock p p.cid).handle fun e => .ret (answerError e)).turn f =
      if f.held p.suffix p.cid then
        (f.remove p.suffix p.cid,
          if (f.remove p.suffix p.cid).heldByAnyone p.cid then
            .settled (.ok (json 200 (.obj [(js "released", .str p.cid)])))
          else .waiting (.pinRm p.cid) (afterRm p))
      else (f, .settled (.ok (refused 404 (js "not held by this signer")))) := by
  simp only [deleteBlock, held, release, hu, Bool.false_eq_true, if_false, Task.reads, Task.bind_eq,
    Task.bind_get, Task.bind_ret, Task.handle_get, Task.turn_get]
  cases f.held p.suffix p.cid with
  | false => rfl
  | true =>
    simp only [if_true, Task.modify, Task.bind_upd, Task.bind_ret, Task.bind_get, Task.handle_upd,
      Task.handle_get, Task.turn_upd, Task.turn_get]
    cases (f.remove p.suffix p.cid).heldByAnyone p.cid <;> rfl

end Turns

/-! ## Requests on hold files -/

/-- The files of holds are not touched. -/
def SameHolds (f f' : Files) : Prop := f'.holds = f.holds

theorem SameHolds.refl (f : Files) : SameHolds f f := rfl

theorem SameHolds.trans (f f' f'' : Files) (h : SameHolds f f') (h' : SameHolds f' f'') :
    SameHolds f f'' := Eq.trans h' h

/-- The pins are not touched. -/
def NoPin : Cmd → Prop
  | .pinAdd _ => False
  | .pinRm _ => False
  | _ => True

/-- The hold and operation of an accepted request, when the hold is one of a hold file. -/
def fileOp (nc : NodeCrypto) (opts : Opts) (req : Int × Request) : Option (Hold × Op) :=
  (blockOp nc opts req.1 req.2).filter fun (p, _) => !unixfs p.cid

section Requests

variable {nc : NodeCrypto} {opts : Opts} {req : Int × Request} {p : Hold} {op : Op}

theorem fileOp_some : fileOp nc opts req = some (p, op) ↔
    blockOp nc opts req.1 req.2 = some (p, op) ∧ unixfs p.cid = false := by
  simp [fileOp, Option.filter_eq_some_iff]

/-- Any other request touches neither pins nor hold files. -/
theorem go_of_fileOp_none (h : fileOp nc opts req = none) :
    (go nc opts req.1 req.2).Keeps NoPin SameHolds := by
  have hfile : ∀ p op, blockOp nc opts req.1 req.2 = some (p, op) → unixfs p.cid ≠ false := by
    intro p op hop hu
    rw [fileOp_some.mpr ⟨hop, hu⟩] at h
    cases h
  refine go_keeps (fun c hc => ?_)
    (fun p _ _ hop => ⟨trivial, fun _ => ⟨trivial, trivial⟩, fun hu => absurd hu (hfile p _ hop)⟩)
    (fun p hop => ⟨fun _ => trivial, fun hu => absurd hu (hfile p _ hop)⟩) fun _ _ _ _ _ _ => rfl
  cases c <;> trivial

end Requests

/-! ## The stages of a request -/

/-- How far a request with operation `op` is. -/
inductive Shape : Option (Hold × Op) → Stage JsString JsString →
    Phase Files Cmd (fun _ => Proc) Err Response → Prop
  | unborn {op} : Shape op .idle .unborn
  | done {op} (r : Except Err Response) : Shape op .idle (.done r)
  | ready {t : Step Response} : t.Keeps NoPin SameHolds → Shape none .idle (.ready t)
  | waiting {c : Cmd} {k : Proc → Step Response} : NoPin c →
      (∀ r, (k r).Keeps NoPin SameHolds) → Shape none .idle (.waiting c k)
  | putting (p : Hold) (codec : Codec) (buf : Bytes) :
      Shape (some (p, .put codec buf)) .idle (.waiting (.blockPut codec buf) (afterPut p buf))
  | put (p : Hold) (codec : Codec) (buf : Bytes) (r : Proc) :
      Shape (some (p, .put codec buf)) .idle (.ready (afterPut p buf r))
  | pinning (p : Hold) (codec : Codec) (buf : Bytes) :
      Shape (some (p, .put codec buf)) .idle (.waiting (.pinAdd p.cid) (afterPin p buf))
  | pinned (p : Hold) (codec : Codec) (buf : Bytes) :
      Shape (some (p, .put codec buf)) (.acquired p.suffix p.cid)
        (.ready (afterPin p buf (exited 0 [] [])))
  | unpinning (p : Hold) :
      Shape (some (p, .delete)) (.releasing p.cid) (.waiting (.pinRm p.cid) (afterRm p))
  | unpinned (p : Hold) (r : Proc) : Shape (some (p, .delete)) .idle (.ready (afterRm p r))

/-- A request that is not in flight is in no stage. -/
theorem Shape.idle {op : Option (Hold × Op)} {a : Stage JsString JsString}
    {ph : Phase Files Cmd (fun _ => Proc) Err Response} (h : Shape op a ph)
    (hf : ph.inFlight = false) : a = .idle := by
  cases h <;> first | rfl | cases hf

/-! ## The state of the protocol -/

/-- Who is listed for what, and what is pinned. -/
def protocolState {ι : Type} (stage : ι → Stage JsString JsString) (f : Files) (k : Kubo) :
    State ι JsString JsString where
  stage := stage
  listed := {x | f.held x.1 x.2 = true}
  taken := {cid | cid ∈ k.pins}

section ProtocolState

variable {ι : Type} {stage : ι → Stage JsString JsString} {f f' : Files} {k : Kubo}
  {suffix cid : JsString}

theorem protocolState_sameHolds (h : SameHolds f f') :
    protocolState stage f' k = protocolState stage f k := by
  simp only [protocolState, Files.held, Files.readSet, show f'.holds = f.holds from h]

theorem protocolState_add : protocolState stage (f.add suffix cid) k =
    { protocolState stage f k with
      listed := insert (suffix, cid) (protocolState stage f k).listed } := by
  simp only [protocolState, State.mk.injEq, true_and, and_true]
  ext ⟨σ, c⟩
  simp [Files.held_add]

theorem protocolState_remove : protocolState stage (f.remove suffix cid) k =
    { protocolState stage f k with
      listed := (protocolState stage f k).listed \ {(suffix, cid)} } := by
  simp only [protocolState, State.mk.injEq, true_and, and_true]
  ext ⟨σ, c⟩
  simp only [Set.mem_ofPred_eq, Files.held_remove, Set.mem_sdiff, Set.mem_singleton_iff, Prod.mk.injEq]
  tauto

theorem protocolState_pin : protocolState stage f { k with pins := conj k.pins cid } =
    { protocolState stage f k with taken := insert cid (protocolState stage f k).taken } := by
  simp only [protocolState, State.mk.injEq, true_and]
  ext c
  simp

theorem protocolState_unpin : protocolState stage f { k with pins := disj k.pins cid } =
    { protocolState stage f k with taken := (protocolState stage f k).taken \ {cid} } := by
  simp only [protocolState, State.mk.injEq, true_and]
  ext c
  simp

end ProtocolState

/-- A command that is no pin command leaves the pins. -/
theorem pins_of_noPin {nc : NodeCrypto} {k : Kubo} {c : Cmd} (h : NoPin c) :
    (k.exec nc c).2.pins = k.pins := by
  cases c <;> first | rfl | (simp only [Kubo.exec]; split <;> rfl) | cases h

/-! ## The record of a run -/

section Record

variable {ι : Type} (op : ι → Option (Hold × Op))

/-- What an event says of a hold: a PUT of it is completed, or a DELETE of it has arrived. -/
def holdEvent (p : Hold) : Event ι Err Response → Option Bool
  | .began i => if op i = some (p, .delete) then some false else none
  | .ended i (.ok resp) =>
    match op i with
    | some (q, .put _ _) =>
      if q = p ∧ (resp.status = 200 ∨ resp.status = 201) then some true else none
    | _ => none
  | .ended _ (.error _) => none

/-- A PUT of the hold is completed, and no DELETE of it has come after the last one. -/
def PutLast (p : Hold) (hist : List (Event ι Err Response)) : Prop :=
  (hist.filterMap (holdEvent op p)).getLast? = some true

variable {op} {p : Hold} {hist : List (Event ι Err Response)} {e : Event ι Err Response}

theorem putLast_of_none (h : holdEvent op p e = none) :
    PutLast op p (hist ++ [e]) ↔ PutLast op p hist := by
  simp [PutLast, h]

theorem putLast_of_some {b : Bool} (h : holdEvent op p e = some b) :
    PutLast op p (hist ++ [e]) ↔ b = true := by
  simp [PutLast, h]

end Record

/-! ## Steps -/

section Steps

variable {ι : Type} (nc : NodeCrypto) (opts : Opts) (reqs : ι → Int × Request)

/-- **When pins and hold files stay in agreement**: an unpin takes effect only where no hold
file lists the block, and no PUT of it has been told that its pin is there and has not
recorded it yet. Requests are not killed. -/
def CarefulUnpins (c : Cfg ι Files Kubo Cmd (fun _ => Proc) Err Response) : Label ι Unit → Prop
  | .serve i _ => ∀ cid k, c.phase i = .waiting (.pinRm cid) k →
      c.mem.heldByAnyone cid = false ∧
        ∀ j p codec buf, fileOp nc opts (reqs j) = some (p, .put codec buf) → p.cid = cid →
          c.phase j ≠ .ready (afterPin p buf (exited 0 [] []))
  | .kill _ => False
  | _ => True

/-- The operation of each request. -/
def opOf (i : ι) : Option (Hold × Op) := fileOp nc opts (reqs i)

/-- A configuration, seen as a state of the protocol with the given stages. -/
structure Agrees (c : Cfg ι Files Kubo Cmd (fun _ => Proc) Err Response)
    (stage : ι → Stage JsString JsString) : Prop where
  shape : ∀ i, Shape (opOf nc opts reqs i) (stage i) (c.phase i)
  inv : Inv (protocolState stage c.mem c.env)
  last : ∀ p, unixfs p.cid = false →
    (c.mem.held p.suffix p.cid = true ↔ PutLast (opOf nc opts reqs) p c.hist)

variable {nc opts reqs} {c c' : Cfg ι Files Kubo Cmd (fun _ => Proc) Err Response}
  {stage : ι → Stage JsString JsString} {l : Label ι Unit}

/-- What is needed of a turn. -/
theorem Agrees.turn [DecidableEq ι] {i : ι} {t : Step Response} {f : Files}
    {stop : Task.Stop Files Cmd (fun _ => Proc) Err Response} {a : Stage JsString JsString}
    (hshape : ∀ j, j ≠ i → Shape (opOf nc opts reqs j) (stage j) (c.phase j))
    (ht : t.turn c.mem = (f, stop)) (ha : Shape (opOf nc opts reqs i) a (.ofStop stop))
    (hinv : Inv (protocolState (update stage i a) f c.env))
    (hlast : ∀ p, unixfs p.cid = false → (f.held p.suffix p.cid = true ↔
      PutLast (opOf nc opts reqs) p (c.hist ++ Loop.endOf i stop))) :
    Agrees nc opts reqs (Loop.afterTurn c i t) (update stage i a) := by
  refine ⟨fun j => ?_, ?_, ?_⟩
  · by_cases hj : j = i
    · subst hj
      simpa [Loop.afterTurn, ht] using ha
    · simpa [Loop.afterTurn, hj] using hshape j hj
  · simpa [Loop.afterTurn, ht] using hinv
  · simpa [Loop.afterTurn, ht] using hlast

/-- A turn of a chain that touches neither pins nor hold files. -/
theorem Agrees.quiet [DecidableEq ι] {i : ι} {t : Step Response}
    (h : Inv (protocolState stage c.mem c.env))
    (hlast : ∀ p, unixfs p.cid = false →
      (c.mem.held p.suffix p.cid = true ↔ PutLast (opOf nc opts reqs) p c.hist))
    (hshape : ∀ j, j ≠ i → Shape (opOf nc opts reqs j) (stage j) (c.phase j))
    (hop : opOf nc opts reqs i = none) (hidle : stage i = .idle) (hk : t.Keeps NoPin SameHolds) :
    Agrees nc opts reqs (Loop.afterTurn c i t) stage := by
  obtain ⟨hm, hw⟩ := hk.turn SameHolds.refl SameHolds.trans c.mem
  have hupd : update stage i .idle = stage := by rw [← hidle, update_eq_self]
  rw [← hupd]
  refine Agrees.turn hshape rfl ?_ ?_ fun p hp => ?_
  · rw [hop]
    cases hstop : (t.turn c.mem).2 with
    | waiting cmd k =>
      obtain ⟨hc, hk⟩ := hw cmd k hstop
      exact .waiting hc hk
    | settled r => exact .done r
  · rwa [hupd, protocolState_sameHolds hm]
  · have hheld : (t.turn c.mem).1.held p.suffix p.cid = c.mem.held p.suffix p.cid := by
      simp only [Files.held, Files.readSet, show (t.turn c.mem).1.holds = c.mem.holds from hm]
    rw [hheld, hlast p hp]
    cases (t.turn c.mem).2 with
    | waiting cmd k => rw [Loop.endOf, List.append_nil]
    | settled r =>
      rw [Loop.endOf, putLast_of_none]
      cases r <;> simp [holdEvent, hop]

/-- What is kept when a request moves on without touching pins or hold files. -/
theorem Agrees.phase [DecidableEq ι] {i : ι} {ph : Phase Files Cmd (fun _ => Proc) Err Response}
    {k : Kubo} {a : Stage JsString JsString} (h : Agrees nc opts reqs c stage)
    (ha : Shape (opOf nc opts reqs i) a ph) (hinv : Inv (protocolState (update stage i a) c.mem k)) :
    Agrees nc opts reqs { c with env := k, phase := update c.phase i ph } (update stage i a) := by
  refine ⟨fun j => ?_, hinv, h.last⟩
  by_cases hj : j = i
  · subst hj
    simpa using ha
  · simpa [hj] using h.shape j

/-- The arrival of a PUT. -/
theorem Agrees.arrivePut [DecidableEq ι] (h : Agrees nc opts reqs c stage) {i : ι} {p : Hold}
    {codec : Codec} {buf : Bytes} (hop : fileOp nc opts (reqs i) = some (p, .put codec buf))
    (hidle : stage i = .idle) :
    Agrees nc opts reqs (Loop.afterTurn (Loop.arrival c i) i (go nc opts (reqs i).1 (reqs i).2))
      stage := by
  obtain ⟨hblock, hu⟩ := fileOp_some.mp hop
  have hupd : update stage i .idle = stage := by rw [← hidle, update_eq_self]
  have hbegan : ∀ q, PutLast (opOf nc opts reqs) q (c.hist ++ [.began i]) ↔
      PutLast (opOf nc opts reqs) q c.hist :=
    fun q => putLast_of_none (by simp [holdEvent, opOf, hop])
  have ht := @put_turn p codec buf c.mem hu
  rw [← (go_of_put hblock).1] at ht
  rw [← hupd]
  cases hh : c.mem.held p.suffix p.cid with
  | true =>
    rw [if_pos hh] at ht
    refine Agrees.turn (fun j _ => h.shape j) ht (.done _) (by rw [hupd]; exact h.inv) fun q hq => ?_
    by_cases hqp : p = q
    · subst hqp
      rw [Loop.endOf, Loop.arrival, putLast_of_some (b := true) (by
        simp [holdEvent, opOf, hop, stored, json])]
      simp [hh]
    · rw [Loop.endOf, Loop.arrival, putLast_of_none (by simp [holdEvent, opOf, hop, hqp]), hbegan]
      exact h.last q hq
  | false =>
    rw [if_neg (by simp [hh])] at ht
    refine Agrees.turn (fun j _ => h.shape j) ht ?_ (by rw [hupd]; exact h.inv) fun q hq => ?_
    · rw [opOf, hop]
      exact .putting p codec buf
    · rw [Loop.endOf, List.append_nil, Loop.arrival, hbegan]
      exact h.last q hq

/-- The arrival of a DELETE. -/
theorem Agrees.arriveDelete [DecidableEq ι] (h : Agrees nc opts reqs c stage) {i : ι} {p : Hold}
    (hop : fileOp nc opts (reqs i) = some (p, .delete)) (hidle : stage i = .idle) :
    ∃ stage', Agrees nc opts reqs
      (Loop.afterTurn (Loop.arrival c i) i (go nc opts (reqs i).1 (reqs i).2)) stage' := by
  obtain ⟨hblock, hu⟩ := fileOp_some.mp hop
  have hupd : update stage i .idle = stage := by rw [← hidle, update_eq_self]
  have ht := delete_turn (f := c.mem) hu
  rw [← go_of_delete hblock] at ht
  -- whatever is answered, it says nothing of a hold: the arrival has
  have hlast : ∀ q (hist : List (Event ι Err Response)),
      hist = c.hist ++ [.began i] ∨ (∃ r, hist = c.hist ++ [.began i] ++ [.ended i r]) →
      (PutLast (opOf nc opts reqs) q hist ↔
        p ≠ q ∧ PutLast (opOf nc opts reqs) q c.hist) := by
    have hbegan : ∀ q, PutLast (opOf nc opts reqs) q (c.hist ++ [.began i]) ↔
        p ≠ q ∧ PutLast (opOf nc opts reqs) q c.hist := by
      intro q
      by_cases hqp : p = q
      · subst hqp
        rw [putLast_of_some (b := false) (by simp [holdEvent, opOf, hop])]
        simp
      · rw [putLast_of_none (by simp [holdEvent, opOf, hop, hqp])]
        simp [hqp]
    rintro q hist (rfl | ⟨r, rfl⟩)
    · exact hbegan q
    · rw [putLast_of_none]
      · exact hbegan q
      · cases r <;> simp [holdEvent, opOf, hop]
  cases hh : c.mem.held p.suffix p.cid with
  | false =>
    rw [if_neg (by simp [hh])] at ht
    refine ⟨update stage i .idle, Agrees.turn (fun j _ => h.shape j) ht (.done _)
      (by rw [hupd]; exact h.inv) fun q hq => ?_⟩
    rw [Loop.endOf, Loop.arrival, hlast q _ (.inr ⟨_, rfl⟩), ← h.last q hq]
    refine ⟨fun hq' => ⟨?_, hq'⟩, fun hq' => hq'.2⟩
    rintro rfl
    rw [hh] at hq'
    cases hq'
  | true =>
    rw [if_pos hh] at ht
    have hheld : ∀ q, (c.mem.remove p.suffix p.cid).held q.suffix q.cid = true ↔
        p ≠ q ∧ c.mem.held q.suffix q.cid = true := by
      intro q
      rw [Files.held_remove]
      obtain ⟨σ, cid⟩ := p
      obtain ⟨σ', cid'⟩ := q
      simp only [ne_eq, Hold.mk.injEq, @eq_comm _ σ, @eq_comm _ cid]
    cases hany : (c.mem.remove p.suffix p.cid).heldByAnyone p.cid with
    | true =>
      obtain ⟨σ, hσ⟩ := Files.heldByAnyone_iff.mp hany
      rw [if_pos hany] at ht
      refine ⟨update stage i .idle, Agrees.turn (fun j _ => h.shape j) ht (.done _) ?_ fun q hq => ?_⟩
      · rw [hupd, protocolState_remove]
        refine h.inv.step (.drop i p.suffix σ p.cid hidle ?_)
        have := Files.held_remove.mp hσ
        exact ⟨this.2, fun he => this.1 (Prod.mk.inj he)⟩
      · rw [Loop.endOf, Loop.arrival, hlast q _ (.inr ⟨_, rfl⟩), hheld, h.last q hq]
    | false =>
      rw [if_neg (by simp [hany])] at ht
      refine ⟨update stage i (.releasing p.cid), Agrees.turn (fun j _ => h.shape j) ht ?_ ?_
        fun q hq => ?_⟩
      · rw [opOf, hop]
        exact .unpinning p
      · rw [protocolState_remove]
        exact h.inv.step (.dropLast i p.suffix p.cid hidle)
      · rw [Loop.endOf, List.append_nil, Loop.arrival, hlast q _ (.inl rfl), hheld, h.last q hq]

/-- The turn of a request that has begun. -/
theorem Agrees.resume [DecidableEq ι] (h : Agrees nc opts reqs c stage) {i : ι} {t : Step Response}
    (ht : c.phase i = .ready t) : ∃ stage', Agrees nc opts reqs (Loop.afterTurn c i t) stage' := by
  have hs := h.shape i
  rw [ht] at hs
  generalize hop : opOf nc opts reqs i = op at hs
  generalize ha : stage i = a at hs
  have hupd : a = .idle → update stage i .idle = stage := by
    rintro rfl
    rw [← ha, update_eq_self]
  cases hs with
  | ready hk => exact ⟨stage, .quiet h.inv h.last (fun j _ => h.shape j) hop ha hk⟩
  | put p codec buf r =>
    obtain ⟨-, hu⟩ := fileOp_some.mp hop
    rcases afterPut_turn (p := p) (f := c.mem) hu r with ⟨resp, h₁, h₂, hturn⟩ | hturn
    · refine ⟨_, Agrees.turn (fun j _ => h.shape j) hturn (.done _) (by rw [hupd rfl]; exact h.inv)
        fun q hq => ?_⟩
      rw [Loop.endOf, putLast_of_none (by simp [holdEvent, hop, h₁, h₂])]
      exact h.last q hq
    · refine ⟨_, Agrees.turn (a := .idle) (fun j _ => h.shape j) hturn ?_
        (by rw [hupd rfl]; exact h.inv) fun q hq => ?_⟩
      · rw [hop]
        exact .pinning p codec buf
      · rw [Loop.endOf, List.append_nil]
        exact h.last q hq
  | pinned p codec buf =>
    refine ⟨_, Agrees.turn (fun j _ => h.shape j) afterPin_turn (.done _) ?_ fun q hq => ?_⟩
    · rw [protocolState_add]
      exact h.inv.step (.record i p.suffix p.cid ha)
    · by_cases hqp : p = q
      · subst hqp
        rw [Loop.endOf, putLast_of_some (b := true) (by simp [holdEvent, hop, stored, json])]
        simp [Files.held_add]
      · rw [Loop.endOf, putLast_of_none (by simp [holdEvent, hop, hqp]), ← h.last q hq,
          Files.held_add]
        refine or_iff_right ?_
        obtain ⟨σ, cid⟩ := p
        obtain ⟨σ', cid'⟩ := q
        rintro ⟨rfl, rfl⟩
        exact hqp rfl
  | unpinned p r =>
    refine ⟨_, Agrees.turn (t := afterRm p r) (fun j _ => h.shape j) rfl (.done _)
      (by rw [hupd rfl]; exact h.inv) fun q hq => ?_⟩
    rw [Loop.endOf, putLast_of_none (by simp [holdEvent, hop])]
    exact h.last q hq

/-- An answer of Kubo. -/
theorem Agrees.served [DecidableEq ι] (h : Agrees nc opts reqs c stage) {i : ι} {cmd : Cmd}
    {k : Proc → Step Response} (hw : c.phase i = .waiting cmd k)
    (hc : ∀ cid, cmd = .pinRm cid → c.mem.heldByAnyone cid = false ∧
      ∀ j p codec buf, fileOp nc opts (reqs j) = some (p, .put codec buf) → p.cid = cid →
        c.phase j ≠ .ready (afterPin p buf (exited 0 [] []))) :
    ∃ stage', Agrees nc opts reqs
      { c with
        env := (c.env.exec nc cmd).2
        phase := update c.phase i (.ready (k (c.env.exec nc cmd).1)) } stage' := by
  have hs := h.shape i
  rw [hw] at hs
  generalize hop : opOf nc opts reqs i = op at hs
  generalize ha : stage i = a at hs
  have hupd : a = .idle → update stage i .idle = stage := by
    rintro rfl
    rw [← ha, update_eq_self]
  -- without a pin command the state of the protocol is what it was
  have hquiet : NoPin cmd → a = .idle →
      Inv (protocolState (update stage i .idle) c.mem (c.env.exec nc cmd).2) := by
    intro hn hidle
    have hi := h.inv
    rw [hupd hidle]
    simpa only [protocolState, pins_of_noPin hn] using hi
  cases hs with
  | waiting hn hk =>
    refine ⟨_, h.phase (a := .idle) ?_ (hquiet hn rfl)⟩
    rw [hop]
    exact .ready (hk _)
  | putting p codec buf =>
    refine ⟨_, h.phase (a := .idle) ?_ (hquiet trivial rfl)⟩
    rw [hop]
    exact .put p codec buf _
  | pinning p codec buf =>
    refine ⟨_, h.phase (a := .acquired p.suffix p.cid) ?_ ?_⟩
    · rw [hop]
      exact .pinned p codec buf
    · simp only [Kubo.exec, protocolState_pin]
      exact h.inv.step (.acquire i p.suffix p.cid ha)
  | unpinning p =>
    refine ⟨_, h.phase (a := .idle) ?_ ?_⟩
    · rw [hop]
      exact .unpinned p _
    · simp only [Kubo.exec, protocolState_unpin]
      refine h.inv.step (.release i p.cid ha ⟨fun σ hσ => ?_, fun j σ hj => ?_⟩)
      · have hany : c.mem.heldByAnyone p.cid = true := Files.heldByAnyone_iff.mpr ⟨σ, hσ⟩
        cases hany.symm.trans (hc p.cid rfl).1
      · -- a party that has pinned and not recorded is a PUT behind its pin
        have hsj := h.shape j
        replace hj : stage j = .acquired σ p.cid := hj
        generalize hopj : opOf nc opts reqs j = opj at hsj
        generalize hphj : c.phase j = phj at hsj
        generalize stage j = st at hsj hj
        cases hsj with
        | pinned q codec buf =>
          exact (hc _ rfl).2 j q codec buf hopj (Stage.acquired.inj hj).2 hphj
        | _ => cases hj

/-- **Every careful step keeps pins and hold files in agreement.** -/
theorem Agrees.step [DecidableEq ι] (h : Agrees nc opts reqs c stage)
    (hc : CarefulUnpins nc opts reqs c l) (hs : (kuboService nc opts reqs).step c l = some c') :
    ∃ stage', Agrees nc opts reqs c' stage' := by
  cases l with
  | arrive i =>
    obtain ⟨hun, rfl⟩ := Loop.step_arrive hs
    have hidle : stage i = .idle := (h.shape i).idle (by rw [hun]; rfl)
    cases hop : fileOp nc opts (reqs i) with
    | none =>
      have hbegan : ∀ q, PutLast (opOf nc opts reqs) q (c.hist ++ [.began i]) ↔
          PutLast (opOf nc opts reqs) q c.hist :=
        fun q => putLast_of_none (by simp [holdEvent, opOf, hop])
      exact ⟨stage, .quiet (c := Loop.arrival c i) h.inv
        (fun q hq => (h.last q hq).trans (hbegan q).symm) (fun j _ => h.shape j) hop hidle
        (go_of_fileOp_none hop)⟩
    | some v =>
      obtain ⟨p, op⟩ := v
      cases op with
      | put codec buf => exact ⟨stage, h.arrivePut hop hidle⟩
      | delete => exact h.arriveDelete hop hidle
  | turn i =>
    obtain ⟨t, ht, rfl⟩ := Loop.step_turn hs
    exact h.resume ht
  | serve i x =>
    obtain ⟨cmd, k, r, e', hw, hex, rfl⟩ := Loop.step_serve hs
    obtain ⟨rfl, rfl⟩ := Prod.mk.inj (Option.some.inj hex)
    refine h.served hw ?_
    rintro cid rfl
    exact hc cid k hw
  | tick x => cases hs
  | kill i => exact hc.elim

/-- Runs of careful steps. -/
theorem agrees_of_reaches [DecidableEq ι]
    (h : (kuboService nc opts reqs).Reaches (CarefulUnpins nc opts reqs)
      (.start Files.empty Kubo.empty) c) : ∃ stage, Agrees nc opts reqs c stage := by
  refine h.invariant (I := fun c => ∃ stage, Agrees nc opts reqs c stage) ?_ ?_
  · rintro c c' l ⟨stage, ha⟩ hc hs
    exact ha.step hc hs
  · refine ⟨fun _ => .idle, fun _ => .unborn, ?_, fun p _ => ?_⟩
    · have he : protocolState (fun _ : ι => Stage.idle) Files.empty Kubo.empty = State.empty := by
        simp only [protocolState, State.empty, State.mk.injEq, true_and]
        refine ⟨?_, ?_⟩ <;> ext <;> simp [Files.held, Files.readSet, Files.empty, Kubo.empty]
      exact he ▸ inv_empty
    · simp [PutLast, Cfg.start, Files.held, Files.readSet, Files.empty]

variable (nc opts reqs c) in
/-- Pins and hold files agree: what a hold file lists is pinned; with no request in flight a
block is pinned just when a hold file lists it, and a signer's list is its completed PUTs not
followed by its own DELETE. -/
def HoldsAgree : Prop :=
  (∀ suffix cid, c.mem.held suffix cid = true → cid ∈ c.env.pins) ∧
    (c.Quiescent → (∀ cid, cid ∈ c.env.pins ↔ ∃ suffix, c.mem.held suffix cid = true) ∧
      ∀ p, unixfs p.cid = false →
        (c.mem.held p.suffix p.cid = true ↔ PutLast (opOf nc opts reqs) p c.hist))

/-- **Holds and pins agree** in every configuration of a run of careful steps. -/
theorem holds_agree [DecidableEq ι]
    (h : (kuboService nc opts reqs).Reaches (CarefulUnpins nc opts reqs)
      (.start Files.empty Kubo.empty) c) : HoldsAgree nc opts reqs c := by
  obtain ⟨stage, ha⟩ := agrees_of_reaches h
  refine ⟨fun suffix cid => ha.inv.listed_taken suffix cid, fun hq => ⟨fun cid => ?_, ha.last⟩⟩
  exact ha.inv.taken_iff (fun i => (ha.shape i).idle (hq i)) cid

end Steps

/-! ## A PUT between a last-holder check and its unpin -/

namespace Sample

/-- Alice's and Bob's PUTs of a dag-cbor block, and Alice's DELETE of it. -/
def sharedBlock : Fin 3 → Int × Request
  | 0 => putOf alice cidCbor cborBlock
  | 1 => putOf bob cidCbor cborBlock
  | 2 => deleteOf alice cidCbor

/-- A PUT that is not held yet, without a pause. -/
def wholePut (i : Fin 3) : List (Label (Fin 3) Unit) :=
  [.arrive i, .serve i (), .turn i, .serve i (), .turn i]

/-- One request after the other. -/
def oneByOne : List (Label (Fin 3) Unit) := wholePut 0 ++ wholePut 1 ++ [.arrive 2]

/-- Bob's PUT comes between Alice's check and her unpin. -/
def lostPut : List (Label (Fin 3) Unit) :=
  wholePut 0 ++ [.arrive 2] ++ wholePut 1 ++ [.serve 2 (), .turn 2]

/-- No unpin takes effect, and no request is killed. -/
def noUnpin (c : Cfg (Fin 3) Files Kubo Cmd (fun _ => Proc) Err Response) :
    Label (Fin 3) Unit → Bool
  | .serve i _ =>
    match c.phase i with
    | .waiting (.pinRm _) _ => false
    | _ => true
  | .kill _ => false
  | _ => true

theorem careful_of_noUnpin {c : Cfg (Fin 3) Files Kubo Cmd (fun _ => Proc) Err Response}
    {l : Label (Fin 3) Unit} (h : noUnpin c l = true) :
    CarefulUnpins blockCrypto opts sharedBlock c l := by
  cases l with
  | serve i x =>
    intro cid k hw
    rw [noUnpin, hw] at h
    cases h
  | arrive i => trivial
  | turn i => trivial
  | tick x => trivial
  | kill i => cases h

end Sample

open Sample in
/-- Alice's DELETE leaves the block to Bob. -/
theorem holds_agree_sample : ∃ c,
    (kuboService blockCrypto opts sharedBlock).run (.start Files.empty Kubo.empty) oneByOne = some c ∧
      HoldsAgree blockCrypto opts sharedBlock c := by
  have hsteps : (kuboService blockCrypto opts sharedBlock).steps noUnpin
      (.start Files.empty Kubo.empty) oneByOne = true := by decide +kernel
  obtain ⟨c, hrun, hr⟩ := Loop.reaches_of_steps hsteps
  exact ⟨c, hrun, holds_agree (hr.mono fun _ _ => careful_of_noUnpin)⟩

open Sample in
/-- **A DELETE unpins a block another signer holds.** Alice's DELETE finds no other holder;
then Bob's PUT of the block is pinned, recorded and answered 201; then the unpin takes effect. -/
theorem holds_disagree : ∃ c,
    (kuboService blockCrypto opts sharedBlock).run (.start Files.empty Kubo.empty) lostPut = some c ∧
      c.Quiescent ∧ c.mem.held (bob.drop 8) cidCbor = true ∧ cidCbor ∉ c.env.pins ∧
      ¬ HoldsAgree blockCrypto opts sharedBlock c := by
  have h : ((kuboService blockCrypto opts sharedBlock).run (.start Files.empty Kubo.empty)
      lostPut).map (fun c => (decide (∀ i, (c.phase i).inFlight = false),
        c.mem.held (bob.drop 8) cidCbor, decide (cidCbor ∈ c.env.pins))) =
      some (true, true, false) := by decide +kernel
  obtain ⟨c, hc, h⟩ := Option.map_eq_some_iff.mp h
  obtain ⟨h₁, h₂, h₃⟩ := by simpa using h
  exact ⟨c, hc, h₁, h₂, h₃, fun ha => h₃ (ha.1 _ _ h₂)⟩

end BlockIngest
