import Yataverse.RouterStandby.Check
import Yataverse.Machine.Run

/-!
# Three failures in a row

"Takeover needs three consecutive primary failures". A run is a list of checks with
`--apply`, from no state file. The file is written by a check that is not refused only: one
that finds the primary healthy, but may not restore it, leaves the count of the failures
before it.

- `Confirmed`: a check that moves the mapping to the standby, and the two before it, found
  the primary unhealthy.
- `Counted`: the stored count is at most the number of the last checks in a row that found
  the primary unhealthy.
- `Resets`: a check that does not find the primary unhealthy gets to set the count to zero,
  unless it is zero.
- **`confirmed_of_resets`**: a run whose checks meet `Resets` is confirmed throughout.
- **`not_confirmed`**: a run of four checks that is not.
-/

namespace RouterStandby

open Fallible Machine

/-- A check asked the primary, and it was not healthy. -/
def Check.foundUnhealthy (c : Check) : Bool :=
  match c.mapping with
  | .ok _ => !c.primaryHealthy
  | .error _ => false

/-- The action whose commands a check sends. -/
def executed (c : Check) (file : Option StateFile) : Option Action :=
  match settle c file with
  | .ok d => some d.action
  | .error _ => none

/-- The state file; what the checks so far found, the last one first; and the action of the
last one. -/
structure State where
  file : Option StateFile
  unhealthy : List Bool
  action : Option Action
deriving DecidableEq

def State.start : State := ⟨none, [], none⟩

/-- A check with `--apply`. -/
def step (s : State) (c : Check) : Option State :=
  some ⟨(check c s.file).1, c.foundUnhealthy :: s.unhealthy, executed c s.file⟩

/-- The checks in a row, up to the last one, that found the primary unhealthy. -/
def State.inARow (s : State) : Nat := (s.unhealthy.takeWhile id).length

/-- If the last check moved the mapping to the standby, or renewed it there, then it and the
two before it found the primary unhealthy. -/
def Confirmed (s : State) : Prop :=
  s.action = some .takeOver ∨ s.action = some .renewStandby →
    ∃ before, s.unhealthy = true :: true :: true :: before

/-- The count in the file. -/
def storedCount : Option StateFile → Int
  | some (.count n) => n
  | _ => 0

/-- **The condition** on a check: it finds the primary unhealthy, or the count is zero
already, or the router's mapping is one that it may read, and the primary's own unless the
cutover is allowed. -/
def Resets (s : State) (c : Check) : Prop :=
  c.foundUnhealthy = true ∨ storedCount s.file = 0 ∨
    c.mapping = .ok (some xavierIp) ∨ ((∃ m, c.mapping = .ok m) ∧ c.allowRouterCutover = true)

/-- The file is one that a check wrote, and counts no more than the failures in a row. -/
structure Counted (s : State) : Prop where
  file : s.file = none ∨ ∃ n : Nat, s.file = saveFailures n ∧ n ≤ s.inARow
  confirmed : Confirmed s

/-! ## What a check decides -/

section Settle

variable {c : Check} {file : Option StateFile} {d : Decision} {s s' : State}

/-- What is known of a check that is not refused. -/
theorem settle_ok (h : settle c file = .ok d) :
    c.mapping = .ok d.mapping ∧ c.failures file = .ok d.failures ∧
      (c.primaryHealthy = false → d.action = .takeOver ∨ d.action = .renewStandby → 3 ≤ d.failures) ∧
      (c.primaryHealthy = true → d.action = .restorePrimary ∨ d.action = .keepPrimary) := by
  obtain ⟨m, hm, h⟩ := bind_eq_ok.mp h
  obtain ⟨n, hn, h⟩ := bind_eq_ok.mp h
  obtain ⟨a, ha, h⟩ := bind_eq_ok.mp h
  obtain ⟨-, -, ⟨⟩⟩ := bind_eq_ok.mp h
  refine ⟨hm, hn, ?_, ?_⟩
  · intro hp hmove
    by_contra hlt
    rw [decide, if_neg (by simp [hp]), if_pos (Nat.lt_of_not_le hlt)] at ha
    obtain rfl := Except.ok.inj ha
    rcases hmove with h | h <;> cases h
  · intro hp
    rw [decide, if_pos hp] at ha
    obtain rfl := Except.ok.inj ha
    dsimp only
    split
    · exact .inl rfl
    · exact .inr rfl

/-- A check that finds the primary healthy is refused only where it may not restore it. -/
theorem settle_healthy {m : Option String} (hp : c.primaryHealthy = true) (hm : c.mapping = .ok m)
    (hallowed : m = some xavierIp ∨ c.allowRouterCutover = true) : ∃ d, settle c file = .ok d := by
  have hn : c.failures file = .ok 0 := if_pos hp
  have hopt : requireCutoverOptIn (if m ≠ some xavierIp then .restorePrimary else .keepPrimary)
      c.allowRouterCutover = .ok () := by
    rw [requireCutoverOptIn, require_eq_ok]
    rintro ⟨ha, hno⟩
    rcases hallowed with rfl | hyes
    · simp at ha
    · rw [hyes] at hno
      cases hno
  refine ⟨⟨m, 0, if m ≠ some xavierIp then .restorePrimary else .keepPrimary⟩, ?_⟩
  simp only [settle, bind_eq_ok]
  exact ⟨m, hm, 0, hn, _, if_pos hp, (), hopt, rfl⟩

theorem foundUnhealthy_of_mapping {m : Option String} (hm : c.mapping = .ok m) :
    c.foundUnhealthy = !c.primaryHealthy := by
  rw [Check.foundUnhealthy, hm]

theorem executed_refused {e : String} (h : settle c file = .error e) : executed c file = none := by
  rw [executed, h]

theorem executed_settled (h : settle c file = .ok d) : executed c file = some d.action := by
  rw [executed, h]

end Settle

/-! ## The count -/

section Count

variable {c : Check} {d : Decision} {s : State}

theorem inARow_unhealthy {file : Option StateFile} {action : Option Action} :
    (⟨file, true :: s.unhealthy, action⟩ : State).inARow = s.inARow + 1 := rfl

/-- Three failures in a row are the last three checks. -/
theorem three_in_a_row {found : List Bool} (h : 3 ≤ (found.takeWhile id).length) :
    ∃ before, found = true :: true :: true :: before := by
  rcases found with - | ⟨_ | _, _ | ⟨_ | _, _ | ⟨_ | _, before⟩⟩⟩
  case cons.true.cons.true.cons.true => exact ⟨before, rfl⟩
  all_goals simp at h

theorem storedCount_saved (n : Nat) : storedCount (saveFailures n) = n := rfl

/-- What an unhealthy check counts. -/
theorem Counted.failures (h : Counted s) {n : Nat} (hp : c.primaryHealthy = false)
    (hn : c.failures s.file = .ok n) : n ≤ s.inARow + 1 := by
  rw [Check.failures, if_neg (by simp [hp])] at hn
  rcases h.file with hf | ⟨k, hf, hk⟩
  · rw [hf] at hn
    obtain rfl := Except.ok.inj hn
    exact Nat.le_add_left 1 _
  · have hload : loadFailures c.impl (saveFailures k) = .ok k := by
      simp [loadFailures, saveFailures]
    rw [hf, hload] at hn
    obtain rfl := Except.ok.inj hn
    exact Nat.succ_le_succ hk

/-- A check that is refused leaves a count that is still one of failures in a row. -/
theorem Counted.refused (h : Counted s) (hr : Resets s c) {e : String} (he : settle c s.file = .error e) :
    Counted ⟨s.file, c.foundUnhealthy :: s.unhealthy, none⟩ := by
  refine ⟨?_, by rintro (h | h) <;> cases h⟩
  rcases h.file with hf | ⟨n, hf, hn⟩
  · exact .inl hf
  refine .inr ⟨n, hf, ?_⟩
  cases hu : c.foundUnhealthy with
  | true => exact Nat.le_succ_of_le hn
  | false =>
    -- nothing is left of the row, so the count must be zero
    obtain hu' | hz | hm | ⟨⟨m, hm⟩, hallowed⟩ := hr
    · rw [hu] at hu'
      cases hu'
    · rw [hf, storedCount_saved] at hz
      rw [Int.ofNat_eq_zero.mp hz]
      exact Nat.zero_le _
    all_goals
      rw [foundUnhealthy_of_mapping hm] at hu
      obtain ⟨d, hd⟩ : ∃ d, settle c s.file = .ok d := settle_healthy (by simpa using hu) hm (by simp_all)
      rw [hd] at he
      cases he

/-- A check that is not refused. -/
theorem Counted.settled (h : Counted s) (hd : settle c s.file = .ok d) :
    Counted ⟨saveFailures d.failures, c.foundUnhealthy :: s.unhealthy, some d.action⟩ := by
  obtain ⟨hm, hn, hmove, hhealthy⟩ := settle_ok hd
  rw [foundUnhealthy_of_mapping hm]
  cases hp : c.primaryHealthy with
  | true =>
    rw [Check.failures, if_pos hp] at hn
    obtain hn : 0 = d.failures := Except.ok.inj hn
    refine ⟨.inr ⟨0, hn ▸ rfl, Nat.zero_le _⟩, ?_⟩
    rintro (h | h) <;> rcases hhealthy hp with h' | h' <;> rw [h'] at h <;> cases h
  | false =>
    have hcount : d.failures ≤ s.inARow + 1 := h.failures hp hn
    refine ⟨.inr ⟨d.failures, rfl, hcount⟩, fun hmoved => three_in_a_row ?_⟩
    have hthree : 3 ≤ d.failures := hmove hp (by simpa using hmoved)
    exact Nat.le_trans hthree hcount

theorem Counted.start : Counted State.start := ⟨.inl rfl, by rintro (h | h) <;> cases h⟩

/-- One check keeps the count. -/
theorem Counted.next (h : Counted s) (hr : Resets s c) {s' : State} (hs : step s c = some s') :
    Counted s' := by
  obtain rfl := Option.some.inj hs
  cases hd : settle c s.file with
  | error e =>
    rw [check_refused hd, executed_refused hd]
    exact h.refused hr hd
  | ok d =>
    rw [check_settled hd, executed_settled hd]
    exact h.settled hd

end Count

/-- **Takeover needs three consecutive failures** in every run whose checks reset the count
when they do not find the primary unhealthy. -/
theorem confirmed_of_resets (checks : List Check) (h : Throughout step Resets State.start checks) :
    Always step Confirmed State.start checks :=
  (Always.of_throughout (fun _ _ _ hc hr hs => hc.next hr hs) Counted.start h).mono fun _ hc => hc.confirmed

namespace Sample

/-- The mapping is the standby's, and every command is taken. -/
def router : Router := fun _ => .ok ⟨some publicIp, [(gadIp, "443")]⟩

/-- The standby is healthy, the primary does not listen, and no cutover is allowed. -/
def unhealthy : Check := ⟨.python, router, false, true, false, false⟩

def healthy : Check := { unhealthy with primaryHealthy := true }

end Sample

/-- One run with an unhealthy check in it is confirmed. -/
theorem confirmed_of_resets_unhealthy :
    Always step Confirmed State.start [Sample.unhealthy, Sample.unhealthy, Sample.unhealthy] :=
  confirmed_of_resets _ ⟨.inl rfl, fun _ _ => ⟨.inl rfl, fun _ _ => ⟨.inl rfl, fun _ _ => trivial⟩⟩⟩

/-- **A healthy check that is refused** leaves the count: the failure behind it is the third. -/
theorem not_confirmed : ¬ ∀ checks, Always step Confirmed State.start checks := by
  intro h
  have hrun : run step State.start [Sample.unhealthy, Sample.unhealthy, Sample.healthy, Sample.unhealthy] =
      some ⟨saveFailures 3, [true, false, true, true], some .renewStandby⟩ := by
    decide
  obtain ⟨before, hb⟩ := (h _).final hrun (.inr rfl)
  simp at hb

end RouterStandby
