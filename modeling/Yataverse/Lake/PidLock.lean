import Yataverse.Machine.Run
import Mathlib.Logic.Function.Basic

/-!
# The pid lock

The tools of the lake keep one process at a time in a directory by a lock file that holds
the pid of its owner. A lock whose owner is dead is taken over. `lake_epoch_cycle`,
`capture_lake_inventory` (`take-lock!`), `ship_lake_car` and `verify_lake_leaves` have
the same steps.

- `step`: the exclusive create, the read of the holder, the probe of the holder and the
  overwrite, each a step of its own; the exit of an owner, which removes the file, and a
  death, which leaves it.
- `Exclusive`: at most one live process owns the lock.
- **`exclusive_iff`**: a run keeps it exactly when nobody overwrites a file that names a
  live process.
- **`not_exclusive`**: two processes that find the same dead holder both take the lock.
-/

namespace PidLock

open Function Machine

/-- Where a process is in `take-lock!`. -/
inductive Phase (ι : Type) where
  | unborn
  /-- About to create the file exclusively. -/
  | creating
  /-- The file exists: about to read the pid in it. -/
  | reading
  /-- About to probe the process it has read. -/
  | probing (holder : ι)
  /-- The holder is dead: about to overwrite the file. -/
  | overwriting
  /-- Past the lock. -/
  | owner
  /-- Ended: refused, exited or dead. -/
  | gone
deriving DecidableEq

/-- A process that runs. -/
def Phase.alive {ι : Type} : Phase ι → Bool
  | .unborn | .gone => false
  | _ => true

/-- The lock file and the processes, each by its pid. No pid is used twice. -/
structure State (ι : Type) where
  file : Option ι
  phase : ι → Phase ι

/-- No lock file and no process. -/
def State.start {ι : Type} : State ι := ⟨none, fun _ => .unborn⟩

/-- What happens next: a process starts, takes its next step at the lock, exits, or dies. -/
inductive Label (ι : Type) where
  | start (i : ι)
  | turn (i : ι)
  | exit (i : ι)
  | die (i : ι)

variable {ι : Type} [DecidableEq ι]

/-- Process `i` goes on to `p`. -/
def State.goto (s : State ι) (i : ι) (p : Phase ι) : State ι := { s with phase := update s.phase i p }

/-- Process `i` owns the lock file. -/
def State.take (s : State ι) (i : ι) : State ι := ⟨some i, update s.phase i .owner⟩

/-- The next step of process `i` at the lock. -/
def turn (s : State ι) (i : ι) : Option (State ι) :=
  match s.phase i with
  | .creating =>
    match s.file with
    | none => some (s.take i)
    | some _ => some (s.goto i .reading)
  | .reading =>
    match s.file with
    | none => some (s.goto i .gone) -- the file is gone: the read throws
    | some holder => some (s.goto i (.probing holder))
  | .probing holder =>
    if (s.phase holder).alive then some (s.goto i .gone) -- "already running"
    else some (s.goto i .overwriting)
  | .overwriting => some (s.take i)
  | _ => none

/-- One step. -/
def step (s : State ι) : Label ι → Option (State ι)
  | .start i => if s.phase i = .unborn then some (s.goto i .creating) else none
  | .turn i => turn s i
  | .exit i =>
    if s.phase i = .owner then some { s.goto i .gone with file := none } else none
  | .die i => if (s.phase i).alive then some (s.goto i .gone) else none

/-- At most one live process owns the lock. -/
def Exclusive (s : State ι) : Prop := ∀ i j, s.phase i = .owner → s.phase j = .owner → i = j

/-- An overwrite does not hit a file that names a live process. -/
def SparesTheLiving (s : State ι) : Label ι → Prop
  | .turn i => s.phase i = .overwriting → ∀ h, s.file = some h → (s.phase h).alive = false
  | _ => True

/-! ## The invariant -/

/-- An owner is the process that the file names; a live process that it names is the
owner. -/
structure LockInv (s : State ι) : Prop where
  owned : ∀ i, s.phase i = .owner → s.file = some i
  named : ∀ i, s.file = some i → s.phase i = .owner ∨ s.phase i = .gone

variable {s s' : State ι} {i j : ι}

@[simp] theorem goto_file {p : Phase ι} : (s.goto i p).file = s.file := rfl

theorem goto_phase {p : Phase ι} : (s.goto i p).phase j = if j = i then p else s.phase j :=
  update_apply ..

@[simp] theorem take_file : (s.take i).file = some i := rfl

theorem take_phase : (s.take i).phase j = if j = i then .owner else s.phase j := update_apply ..

omit [DecidableEq ι] in
theorem LockInv.start : LockInv (State.start (ι := ι)) where
  owned i h := by cases h
  named i h := by cases h

omit [DecidableEq ι] in
theorem LockInv.exclusive (h : LockInv s) : Exclusive s := by
  intro i j hi hj
  exact Option.some.inj ((h.owned i hi).symm.trans (h.owned j hj))

/-- Steps of processes that own nothing, to phases that own nothing. -/
theorem LockInv.goto (h : LockInv s) {p : Phase ι} (ho : s.phase i ≠ .owner)
    (hf : s.phase i ≠ .gone) (hp : p ≠ .owner) : LockInv (s.goto i p) where
  owned j hj := by
    rw [goto_phase] at hj
    split at hj
    · exact absurd hj hp
    · exact h.owned j hj
  named j hj := by
    have hji : j ≠ i := by
      rintro rfl
      exact (h.named j hj).elim ho hf
    rw [goto_phase, if_neg hji]
    exact h.named j hj

/-- A process takes the lock while nobody owns it. -/
theorem LockInv.take (h : ∀ j, s.phase j ≠ .owner) : LockInv (s.take i) where
  owned j hj := by
    rw [take_phase] at hj
    split at hj
    · rename_i hji
      rw [hji, take_file]
    · exact absurd hj (h j)
  named j hj := by
    obtain rfl := Option.some.inj hj
    left
    rw [take_phase, if_pos rfl]

/-- An owner ends; the file may stay. -/
theorem LockInv.leave (h : LockInv s) (ho : s.phase i = .owner) (file : Option ι)
    (hf : file = none ∨ file = s.file) : LockInv { s.goto i .gone with file := file } where
  owned j hj := by
    have hj : (s.goto i .gone).phase j = .owner := hj
    rw [goto_phase] at hj
    split at hj
    · cases hj
    · rename_i hji
      exact absurd (h.exclusive j i hj ho) hji
  named j hj := by
    show (s.goto i .gone).phase j = .owner ∨ (s.goto i .gone).phase j = .gone
    rw [goto_phase]
    obtain rfl | rfl := hf
    · cases hj
    · split
      · exact .inr rfl
      · exact h.named j hj

/-! ## Steps -/

omit [DecidableEq ι] in
/-- While the file names nobody that is alive, nobody owns the lock. -/
theorem LockInv.unowned (h : LockInv s) (hf : ∀ i, s.file = some i → (s.phase i).alive = false) :
    ∀ j, s.phase j ≠ .owner := by
  intro j hj
  have := hf j (h.owned j hj)
  rw [hj] at this
  cases this

omit [DecidableEq ι] in
/-- A live process that the file names owns the lock. -/
theorem LockInv.owner_of_alive (h : LockInv s) (hf : s.file = some j)
    (ha : (s.phase j).alive = true) : s.phase j = .owner := by
  refine (h.named j hf).resolve_right fun hg => ?_
  rw [hg] at ha
  cases ha

/-- **One step** keeps the lock exclusive if and only if it spares the living, and then
keeps the invariant. -/
theorem LockInv.step (h : LockInv s) {a : Label ι} (hs : step s a = some s') :
    (SparesTheLiving s a ↔ Exclusive s') ∧ (SparesTheLiving s a → LockInv s') := by
  -- a step that spares the living and keeps the invariant satisfies both parts
  have both : SparesTheLiving s a → LockInv s' →
      (SparesTheLiving s a ↔ Exclusive s') ∧ (SparesTheLiving s a → LockInv s') :=
    fun hp hi => ⟨⟨fun _ => hi.exclusive, fun _ => hp⟩, fun _ => hi⟩
  cases a with
  | start i =>
    obtain ⟨hp, hs⟩ := Option.ite_none_right_eq_some.mp hs
    obtain rfl := Option.some.inj hs
    exact both trivial (h.goto (by simp [hp]) (by simp [hp]) (by simp))
  | exit i =>
    obtain ⟨hp, hs⟩ := Option.ite_none_right_eq_some.mp hs
    obtain rfl := Option.some.inj hs
    exact both trivial (h.leave hp none (.inl rfl))
  | die i =>
    obtain ⟨hp, hs⟩ := Option.ite_none_right_eq_some.mp hs
    obtain rfl := Option.some.inj hs
    refine both trivial ?_
    by_cases ho : s.phase i = .owner
    · exact h.leave ho s.file (.inr rfl)
    · refine h.goto ho ?_ (by simp)
      intro hg
      rw [hg] at hp
      cases hp
  | turn i =>
    have hs : turn s i = some s' := hs
    unfold turn at hs
    cases hp : s.phase i with
    | unborn | owner | gone =>
      rw [hp] at hs
      cases hs
    | creating =>
      rw [hp] at hs
      have hspare : SparesTheLiving s (.turn i) := by
        intro ho
        rw [hp] at ho
        cases ho
      cases hf : s.file with
      | none =>
        rw [hf] at hs
        obtain rfl := Option.some.inj hs
        refine both hspare (.take fun j hj => ?_)
        rw [h.owned j hj] at hf
        cases hf
      | some holder =>
        rw [hf] at hs
        obtain rfl := Option.some.inj hs
        exact both hspare (h.goto (by simp [hp]) (by simp [hp]) (by simp))
    | reading =>
      rw [hp] at hs
      have hspare : SparesTheLiving s (.turn i) := by
        intro ho
        rw [hp] at ho
        cases ho
      cases hf : s.file <;>
      · rw [hf] at hs
        obtain rfl := Option.some.inj hs
        exact both hspare (h.goto (by simp [hp]) (by simp [hp]) (by simp))
    | probing holder =>
      rw [hp] at hs
      have hspare : SparesTheLiving s (.turn i) := by
        intro ho
        rw [hp] at ho
        cases ho
      dsimp only at hs
      split at hs <;>
      · obtain rfl := Option.some.inj hs
        exact both hspare (h.goto (by simp [hp]) (by simp [hp]) (by simp))
    | overwriting =>
      rw [hp] at hs
      obtain rfl := Option.some.inj hs
      have hkeep : SparesTheLiving s (.turn i) → LockInv (s.take i) :=
        fun hspare => .take (h.unowned (hspare hp))
      refine ⟨⟨fun hspare => (hkeep hspare).exclusive, fun hex => ?_⟩, hkeep⟩
      -- a live process that the file names owns the lock beside the one that takes it
      intro _ j hf
      by_contra ha
      have hj := h.owner_of_alive hf (by simpa using ha)
      have hji : j ≠ i := by
        rintro rfl
        rw [hp] at hj
        cases hj
      refine hji (hex j i ?_ ?_)
      · rw [take_phase, if_neg hji, hj]
      · rw [take_phase, if_pos rfl]

/-- **The lock is exclusive exactly as long as the living are spared**: in a run of any
number of processes, every state has at most one live owner if and only if no overwrite
hits a file that names a live process. -/
theorem exclusive_iff (ls : List (Label ι)) (h : (run step State.start ls).isSome = true) :
    Always step Exclusive State.start ls ↔ Throughout step SparesTheLiving State.start ls :=
  always_iff_throughout (fun _ => LockInv.exclusive) (fun _ _ _ hi hs => hi.step hs) LockInv.start h

/-- A process that dies with the lock, and another one that takes it over. -/
def takeover : List (Label Nat) :=
  [.start 1, .turn 1, .die 1, .start 2, .turn 2, .turn 2, .turn 2, .turn 2, .exit 2]

theorem exclusive_iff_takeover :
    Always step Exclusive State.start takeover ↔
      Throughout step SparesTheLiving State.start takeover :=
  exclusive_iff takeover (by decide)

/-- Two processes that probe the holder before either has overwritten the file. -/
def race : List (Label Nat) :=
  [.start 1, .turn 1, .die 1, .start 2, .start 3, .turn 2, .turn 3, .turn 2, .turn 3, .turn 2,
    .turn 3, .turn 2, .turn 3]

/-- **Two live processes own the lock** after the race. -/
theorem not_exclusive : ¬ ∀ (ls : List (Label Nat)) (s : State Nat),
    run step State.start ls = some s → Exclusive s := by
  intro h
  have hrace : (run step State.start race).map (fun s => (s.phase 2, s.phase 3)) =
      some (.owner, .owner) := by decide
  obtain ⟨s, hs, hp⟩ := Option.map_eq_some_iff.mp hrace
  obtain ⟨h₂, h₃⟩ := Prod.mk.inj hp
  exact absurd (h race s hs 2 3 h₂ h₃) (by decide)

end PidLock
