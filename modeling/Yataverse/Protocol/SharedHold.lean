import Mathlib.Data.Set.Insert
import Mathlib.Logic.Function.Basic

/-!
# Resources shared by holders

A resource is taken before a holder is listed for it, and released after the last
holder has been dropped. Taking and listing are two steps of one party, dropping and
releasing two steps of another, and other parties move between them.

- `Stage`: how far a party is.
- `Step`: the four steps. A release is *safe* when nobody is listed for the resource
  and nobody has taken it and is not listed yet.
- `Inv`: a listed resource is taken, and a taken one is listed or a party is between
  its two steps.
- `Inv.step`: steps with safe releases keep the invariant; `Inv.taken_iff`: with no
  party between its two steps, taken is listed.
-/

namespace SharedHold

open Function

/-- How far a party is: between no steps, has taken a resource for a holder, or is about
to release a resource. -/
inductive Stage (H R : Type) where
  | idle
  | acquired (h : H) (r : R)
  | releasing (r : R)

/-- The stages of the parties, who is listed for what, and what is taken. -/
structure State (ι H R : Type) where
  stage : ι → Stage H R
  listed : Set (H × R)
  taken : Set R

variable {ι H R : Type} {s s' : State ι H R}

/-- Nobody is listed for the resource, and nobody is about to be. -/
def Safe (s : State ι H R) (r : R) : Prop :=
  (∀ h, (h, r) ∉ s.listed) ∧ ∀ i h, s.stage i ≠ .acquired h r

/-- The steps. Dropping the last holder of a resource leaves it to be released. -/
inductive Step [DecidableEq ι] (s : State ι H R) : State ι H R → Prop where
  | acquire (i : ι) (h : H) (r : R) : s.stage i = .idle →
      Step s { s with stage := update s.stage i (.acquired h r), taken := insert r s.taken }
  | record (i : ι) (h : H) (r : R) : s.stage i = .acquired h r →
      Step s { s with stage := update s.stage i .idle, listed := insert (h, r) s.listed }
  | drop (i : ι) (h h' : H) (r : R) : s.stage i = .idle → (h', r) ∈ s.listed \ {(h, r)} →
      Step s { s with listed := s.listed \ {(h, r)} }
  | dropLast (i : ι) (h : H) (r : R) : s.stage i = .idle →
      Step s { s with stage := update s.stage i (.releasing r), listed := s.listed \ {(h, r)} }
  | release (i : ι) (r : R) : s.stage i = .releasing r → Safe s r →
      Step s { s with stage := update s.stage i .idle, taken := s.taken \ {r} }

/-- The invariant. -/
structure Inv (s : State ι H R) : Prop where
  listed_taken : ∀ h r, (h, r) ∈ s.listed → r ∈ s.taken
  acquired_taken : ∀ i h r, s.stage i = .acquired h r → r ∈ s.taken
  cause : ∀ r ∈ s.taken, (∃ h, (h, r) ∈ s.listed) ∨ (∃ i h, s.stage i = .acquired h r) ∨
    ∃ i, s.stage i = .releasing r

/-- Nothing is listed or taken. -/
def State.empty : State ι H R := ⟨fun _ => .idle, ∅, ∅⟩

theorem inv_empty : Inv (State.empty : State ι H R) :=
  ⟨fun _ _ h => (Set.notMem_empty _ h).elim, fun _ _ _ h => (by cases h),
    fun _ h => (Set.notMem_empty _ h).elim⟩

/-- With no party between its two steps, what is taken is what is listed. -/
theorem Inv.taken_iff (h : Inv s) (hidle : ∀ i, s.stage i = .idle) (r : R) :
    r ∈ s.taken ↔ ∃ holder, (holder, r) ∈ s.listed := by
  constructor
  · intro hr
    rcases h.cause r hr with hl | ⟨i, _, hi⟩ | ⟨i, hi⟩
    · exact hl
    · rw [hidle] at hi
      cases hi
    · rw [hidle] at hi
      cases hi
  · rintro ⟨holder, hl⟩
    exact h.listed_taken holder r hl

/-- A party that was not in a stage moves: the others that were in it still are. -/
theorem update_stage_ne [DecidableEq ι] {i j : ι} {a b : Stage H R} (hi : s.stage i ≠ a)
    (hj : s.stage j = a) : update s.stage i b j = a := by
  have hne : j ≠ i := by
    rintro rfl
    exact hi hj
  rw [update_of_ne hne, hj]

/-- Who is in a stage after a move: the party that moved into it, or one that was. -/
theorem update_stage_eq [DecidableEq ι] {i j : ι} {a b : Stage H R}
    (h : update s.stage i b j = a) : j = i ∧ b = a ∨ j ≠ i ∧ s.stage j = a := by
  by_cases hji : j = i
  · subst hji
    rw [update_self] at h
    exact .inl ⟨rfl, h⟩
  · rw [update_of_ne hji] at h
    exact .inr ⟨hji, h⟩

/-- **Every step keeps the invariant.** -/
theorem Inv.step [DecidableEq ι] (hs : Inv s) (h : Step s s') : Inv s' := by
  obtain ⟨h₁, h₂, h₃⟩ := hs
  cases h with
  | acquire i h r hi =>
    refine ⟨fun h' r' hl => .inr (h₁ h' r' hl), fun j h' r' hj => ?_, fun r' hr' => ?_⟩
    · rcases update_stage_eq hj with ⟨-, he⟩ | ⟨-, hj⟩
      · cases he
        exact .inl rfl
      · exact .inr (h₂ j h' r' hj)
    · rcases hr' with rfl | hr'
      · exact .inr (.inl ⟨i, h, update_self ..⟩)
      · rcases h₃ r' hr' with hl | ⟨j, h', hj⟩ | ⟨j, hj⟩
        · exact .inl hl
        · exact .inr (.inl ⟨j, h', update_stage_ne (by simp [hi]) hj⟩)
        · exact .inr (.inr ⟨j, update_stage_ne (by simp [hi]) hj⟩)
  | record i h r hi =>
    refine ⟨fun h' r' hl => ?_, fun j h' r' hj => ?_, fun r' hr' => ?_⟩
    · rcases hl with hl | hl
      · cases hl
        exact h₂ i h r hi
      · exact h₁ h' r' hl
    · rcases update_stage_eq hj with ⟨-, he⟩ | ⟨-, hj⟩
      · cases he
      · exact h₂ j h' r' hj
    · rcases h₃ r' hr' with ⟨h', hl⟩ | ⟨j, h', hj⟩ | ⟨j, hj⟩
      · exact .inl ⟨h', .inr hl⟩
      · by_cases hji : j = i
        · -- the party that records is no cause any more, but is listed
          subst hji
          rw [hi] at hj
          cases hj
          exact .inl ⟨h, .inl rfl⟩
        · exact .inr (.inl ⟨j, h', (update_of_ne hji ..).trans hj⟩)
      · exact .inr (.inr ⟨j, update_stage_ne (by simp [hi]) hj⟩)
  | drop i h h' r hi hl =>
    refine ⟨fun h'' r' hl' => h₁ h'' r' hl'.1, h₂, fun r' hr' => ?_⟩
    rcases h₃ r' hr' with ⟨h'', hl'⟩ | hc
    · by_cases he : (h'', r') = (h, r)
      · cases he
        exact .inl ⟨h', hl⟩
      · exact .inl ⟨h'', hl', he⟩
    · exact .inr hc
  | dropLast i h r hi =>
    refine ⟨fun h' r' hl => h₁ h' r' hl.1, fun j h' r' hj => ?_, fun r' hr' => ?_⟩
    · rcases update_stage_eq hj with ⟨-, he⟩ | ⟨-, hj⟩
      · cases he
      · exact h₂ j h' r' hj
    · rcases h₃ r' hr' with ⟨h', hl⟩ | ⟨j, h', hj⟩ | ⟨j, hj⟩
      · by_cases he : (h', r') = (h, r)
        · cases he
          exact .inr (.inr ⟨i, update_self ..⟩)
        · exact .inl ⟨h', hl, he⟩
      · exact .inr (.inl ⟨j, h', update_stage_ne (by simp [hi]) hj⟩)
      · exact .inr (.inr ⟨j, update_stage_ne (by simp [hi]) hj⟩)
  | release i r hi hsafe =>
    have hstage : ∀ j a, a ≠ .releasing r → s.stage j = a → update s.stage i .idle j = a :=
      fun j a ha hj => update_stage_ne (fun h => ha (h.symm.trans hi)) hj
    refine ⟨fun h' r' hl => ⟨h₁ h' r' hl, ?_⟩, fun j h' r' hj => ?_, fun r' hr' => ?_⟩
    · rintro rfl
      exact hsafe.1 h' hl
    · rcases update_stage_eq hj with ⟨-, he⟩ | ⟨-, hj'⟩
      · cases he
      · refine ⟨h₂ j h' r' hj', ?_⟩
        rintro rfl
        exact hsafe.2 j h' hj'
    · rcases h₃ r' hr'.1 with hl | ⟨j, h', hj⟩ | ⟨j, hj⟩
      · exact .inl hl
      · exact .inr (.inl ⟨j, h', hstage j _ (by simp) hj⟩)
      · refine .inr (.inr ⟨j, hstage j _ ?_ hj⟩)
        rintro h
        cases h
        exact hr'.2 rfl

end SharedHold
