import Yataverse.EpochCycle.Cycle

/-!
# A run whose delta is empty

`run!` ends where the delta step records no rows. A later call on the same work directory
finds the step done, skips it and goes on with replication: nothing in the loop looks at
the recorded rows again. `pick-work` does (`finished?`), so that it never resumes such a
run; a caller that names the directory is not stopped.

- `Over`: while an empty delta is recorded, no process is in a step behind it.
- **`over_iff`**: a run of any calls, failures and kills keeps it exactly when `run!` is
  never called where an empty delta is recorded.
-/

namespace EpochCycle

open Machine

/-- The steps behind `delta`. -/
def Name.behindDelta (n : Name) : Bool := (steps.drop 5).contains n

/-- The state file records an empty delta: the second half of `finished?`. -/
def Saved.EmptyDelta (m : Saved) : Prop := .delta ∈ m.done ∧ m.inv.map Inv.rows = some 0

/-- Once an empty delta is recorded, no step behind it is executed. -/
def Over (s : State) : Prop := s.disk.EmptyDelta → ∀ p, s.proc = some p → p.name.behindDelta = false

/-- `run!` is not called where an empty delta is recorded. -/
def Unfinished (s : State) : Label → Prop
  | .invoke _ => ¬ s.disk.EmptyDelta
  | _ => True

/-! ## The invariant -/

/-- A process that runs has recorded no empty delta, and no other one is on the disk. Only
the delta step records rows. -/
structure ProcInv (disk : Saved) (p : Proc) : Prop where
  disk : ¬ disk.EmptyDelta
  mem : ¬ p.mem.EmptyDelta
  records : .recordInv ∈ p.todo → p.name = .delta

/-- Where an empty delta is recorded, it is the last step recorded. -/
structure DeltaInv (s : State) : Prop where
  order : InOrder s
  last : s.disk.EmptyDelta → s.disk.done.getLast? = some .delta
  proc : ∀ p, s.proc = some p → ProcInv s.disk p

variable {s s' : State} {w : World} {disk mem m : Saved} {stop : Option Name} {rest : List Name}
  {p : Proc} {i : Instr} {r : Reply}

theorem DeltaInv.over (h : DeltaInv s) : Over s :=
  fun he p hp => absurd he (h.proc p hp).disk

theorem DeltaInv.start {imported : Nat → Bool} : DeltaInv (State.start imported) where
  order := .start
  last h := by cases h.1
  proc p hp := by cases hp

theorem addBoth_records {file : String} : .recordInv ∉ addBoth file := by simp [addBoth]

theorem largeRow_records {row : Nat} : .recordInv ∉ largeRow row := by simp [largeRow]

/-- Only the delta step records rows. -/
theorem body_records {n : Name} (h : .recordInv ∈ body m n) : n = .delta := by
  cases n with
  | delta => rfl
  | jacob => simp [body, largeRow_records] at h
  | cids | manifest | bundle => simp [body, addBoth_records] at h
  | _ => simp [body] at h

theorem Instr.run_inv (h : i ≠ .recordInv) : (i.run r w m).mem.inv = m.inv := by
  cases i with
  | recordInv => exact absurd rfl h
  | recordCutoff =>
    unfold Instr.run
    dsimp only
    split <;> rfl
  | callUnless f c | rename f g =>
    unfold Instr.run
    dsimp only
    split <;> rfl
  | call c | attempt c | need f | write f => rfl

/-- In a step that is not recorded, no instruction records an empty delta. -/
theorem ProcInv.run (h : ProcInv disk p) (hd : p.mem.done ++ p.name :: p.rest = steps)
    (hi : i ∈ p.todo) : ¬ (i.run r w p.mem).mem.EmptyDelta := by
  rintro ⟨hdone, hrows⟩
  rw [Instr.run_done] at hdone
  by_cases hr : i = .recordInv
  · have hn : p.name = .delta := h.records (hr ▸ hi)
    have := steps_nodup
    rw [← hd, hn] at this
    exact (List.nodup_append.mp this).2.2 _ hdone _ (.head _) rfl
  · rw [Instr.run_inv hr] at hrows
    exact h.mem ⟨hdone, hrows⟩

/-! ## Steps -/

/-- A process begins with the state on the disk. -/
theorem DeltaInv.begin (h : mem.done ++ rest = steps) (he : ¬ mem.EmptyDelta) :
    DeltaInv (begin w mem mem stop rest) where
  order := .begin h rfl
  last hd := by
    rw [begin_disk] at hd
    exact absurd hd he
  proc p hp := by
    obtain ⟨n, rest', rfl, rfl⟩ := begin_proc hp
    exact ⟨by rwa [begin_disk], he, body_records⟩

theorem DeltaInv.exited {code : Nat} (h : ∃ rest, disk.done ++ rest = steps)
    (hl : disk.EmptyDelta → disk.done.getLast? = some .delta) : DeltaInv (exited w disk code) where
  order := .exited h
  last := hl
  proc p hp := by cases hp

/-- A step is recorded: the run ends if it is the delta and has no rows. -/
theorem DeltaInv.finish (h : ProcInv disk p) (hd : p.mem.done ++ p.name :: p.rest = steps) :
    DeltaInv (p.finish w) := by
  have hrest : (p.mem.done ++ [p.name]) ++ p.rest = steps := by
    rw [List.append_assoc, ← hd]
    rfl
  -- what is recorded of an empty delta is recorded now
  have hnow : ∀ m : Saved, m.inv = p.mem.inv → m.done = p.mem.done ++ [p.name] → m.EmptyDelta →
      p.name = .delta := by
    rintro m hinv hdone ⟨hmem, hrows⟩
    rw [hdone, List.mem_append, List.mem_singleton] at hmem
    rw [hinv] at hrows
    exact hmem.elim (fun hold => absurd ⟨hold, hrows⟩ h.mem) Eq.symm
  have hlast : ∀ m : Saved, m.inv = p.mem.inv → m.done = p.mem.done ++ [p.name] → m.EmptyDelta →
      m.done.getLast? = some .delta := by
    intro m hinv hdone he
    rw [hdone, List.getLast?_concat, hnow m hinv hdone he]
  unfold Proc.finish
  dsimp only
  split
  · exact .exited ⟨p.rest, hrest⟩ (hlast _ rfl rfl)
  · rename_i hgo
    split
    · exact .exited ⟨p.rest, hrest⟩ (hlast _ rfl rfl)
    · rw [enter_rest hrest]
      exact .begin hrest fun he => hgo ⟨hnow { p.mem with done := p.mem.done ++ [p.name] } rfl rfl he, he.2⟩

theorem DeltaInv.next (h : DeltaInv s) (hp : s.proc = some p) (r : Reply) : DeltaInv (p.next r s) := by
  obtain ⟨hd, hsplit⟩ := h.order.proc p hp
  have hinv := h.proc p hp
  have horder := h.order.next hp r
  cases htodo : p.todo with
  | nil =>
    have : p.next r s = p.finish s.world := by rw [Proc.next, htodo]
    rw [this]
    exact .finish hinv hsplit
  | cons i is =>
    have hi : i ∈ p.todo := htodo ▸ .head is
    have hmem := hinv.run (r := r) (w := s.world) hsplit hi
    unfold Proc.next at horder ⊢
    rw [htodo] at horder ⊢
    dsimp only at horder ⊢
    split at horder
    · exact ⟨horder, fun he => absurd he hmem, fun q hq => by cases hq⟩
    · have hdisk : ¬ (if (i.run r s.world p.mem).save then (i.run r s.world p.mem).mem else s.disk).EmptyDelta := by
        split
        · exact hmem
        · exact hinv.disk
      refine ⟨horder, fun he => absurd he hdisk, ?_⟩
      intro q hq
      obtain rfl := Option.some.inj hq
      exact ⟨hdisk, hmem, fun hr => hinv.records (htodo ▸ .tail i hr)⟩

/-- Behind a recorded delta, only later steps are left. -/
theorem behindDelta_of_split {done rest : List Name} {n : Name} (h : done ++ n :: rest = steps)
    (hd : Name.delta ∈ done) : n.behindDelta = true := by
  have hall : ∀ k < 13, Name.delta ∈ steps.take k → ∀ n ∈ steps.drop k, n.behindDelta = true := by decide
  have hlen := congrArg List.length h
  rw [List.length_append, List.length_cons] at hlen
  refine hall done.length ?_ ?_ n ?_
  · have : steps.length = 13 := rfl
    omega
  · rwa [← h, List.take_left]
  · rw [← h, List.drop_left]
    exact .head rest

/-- **One step** keeps the run over if and only if it is no call on a finished directory, and
then keeps the invariant. -/
theorem DeltaInv.step {a : Label} (h : DeltaInv s) (hs : step s a = some s') :
    (Unfinished s a ↔ Over s') ∧ (Unfinished s a → DeltaInv s') := by
  cases a with
  | invoke stop =>
    obtain ⟨-, hs⟩ := Option.ite_none_right_eq_some.mp hs
    obtain rfl := Option.some.inj hs
    obtain ⟨rest, hrest⟩ := h.order.disk
    rw [enter_steps hrest]
    have hkeep : Unfinished s (.invoke stop) → DeltaInv (EpochCycle.begin s.world s.disk s.disk stop rest) :=
      .begin hrest
    refine ⟨⟨fun hu => (hkeep hu).over, fun hover he => ?_⟩, hkeep⟩
    -- the next step is behind the delta
    cases rest with
    | nil =>
      have hl := h.last he
      rw [List.append_nil] at hrest
      rw [hrest] at hl
      cases hl
    | cons n rest =>
      have hn := hover he _ rfl
      rw [behindDelta_of_split hrest he.1] at hn
      cases hn
  | next r =>
    obtain ⟨p, hp, rfl⟩ := Option.map_eq_some_iff.mp hs
    have hn := h.next hp r
    exact ⟨⟨fun _ => hn.over, fun _ => trivial⟩, fun _ => hn⟩
  | kill =>
    obtain ⟨-, hs⟩ := Option.ite_none_right_eq_some.mp hs
    obtain rfl := Option.some.inj hs
    have hk : DeltaInv { s with proc := none, exit := none } :=
      ⟨⟨h.order.disk, fun p hp => by cases hp⟩, h.last, fun p hp => by cases hp⟩
    exact ⟨⟨fun _ => hk.over, fun _ => trivial⟩, fun _ => hk⟩

/-- **A run whose delta is empty is over exactly as long as nobody calls `run!` on it
again**: whatever the calls, failures and kills on one work directory, no step behind the
delta is executed once an empty delta is recorded if and only if no call finds one
recorded. -/
theorem over_iff (imported : Nat → Bool) (ls : List Label)
    (h : (run step (State.start imported) ls).isSome = true) :
    Always step Over (State.start imported) ls ↔ Throughout step Unfinished (State.start imported) ls :=
  always_iff_throughout (fun _ => DeltaInv.over) (fun _ _ _ hi hs => hi.step hs) DeltaInv.start h

/-! ## A run that is called again -/

/-- The delta has no rows. -/
def noRows : Reply := .success ⟨0, []⟩

/-- The first five steps, with all commands succeeding and no rows. -/
def untilDelta : List Label := .invoke none :: List.replicate 16 (.next noRows)

theorem over_iff_untilDelta :
    Always step Over (State.start fun _ => false) untilDelta ↔
      Throughout step Unfinished (State.start fun _ => false) untilDelta :=
  over_iff (fun _ => false) untilDelta (by decide)

/-- The call that the end of the run does not stop, and its first command. -/
def again : List Label := untilDelta ++ [.invoke none, .next noRows]

/-- **Replication starts although the delta is empty** when `run!` is called again. -/
theorem not_over : ¬ ∀ (imported : Nat → Bool) (ls : List Label) (s : State),
    run step (State.start imported) ls = some s → Over s := by
  intro h
  have hagain : (run step (State.start fun _ => false) again).map
      (fun s => (s.disk.done, s.disk.inv.map Inv.rows, s.proc.map Proc.name)) =
      some (steps.take 5, some 0, some .xavier) := by decide
  obtain ⟨s, hs, hfacts⟩ := Option.map_eq_some_iff.mp hagain
  obtain ⟨hdone, hfacts⟩ := Prod.mk.inj hfacts
  obtain ⟨hrows, hname⟩ := Prod.mk.inj hfacts
  obtain ⟨p, hp, hn⟩ := Option.map_eq_some_iff.mp hname
  have he : s.disk.EmptyDelta := ⟨by rw [hdone]; decide, hrows⟩
  have hover := h _ again s hs he p hp
  rw [hn] at hover
  cases hover

end EpochCycle
