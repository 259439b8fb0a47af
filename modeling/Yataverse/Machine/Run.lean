import Mathlib.Data.Option.Basic

/-!
# Runs of a machine

A machine takes one labelled step after the other; a step that cannot be taken is `none`.
What its labels are is the machine's own choice: the step of a party, a failure, a kill.

- `run`: the state after a list of steps.
- `Always`: what holds in every state of a run.
- `Throughout`: what every step of a run meets, in the state it is taken in.
- `Steps`: what every step of a run does, from the state before it to the one behind it.
- `Always.of_throughout`: the induction behind an invariant that only some steps keep.
- `always_iff_throughout`: the same where a step breaks the goal as soon as it misses
  the condition.
-/

namespace Machine

variable {σ α : Type*} (step : σ → α → Option σ)

/-- The state after a list of steps. -/
def run : σ → List α → Option σ
  | s, [] => some s
  | s, a :: as => (step s a).bind fun s' => run s' as

/-- `P` holds in every state of a run. -/
def Always (P : σ → Prop) : σ → List α → Prop
  | s, [] => P s
  | s, a :: as => P s ∧ ∀ s', step s a = some s' → Always P s' as

/-- Every step of a run meets `G`, in the state it is taken in. -/
def Throughout (G : σ → α → Prop) : σ → List α → Prop
  | _, [] => True
  | s, a :: as => G s a ∧ ∀ s', step s a = some s' → Throughout G s' as

/-- Every step of a run is one of `R`. -/
def Steps (R : σ → σ → Prop) : σ → List α → Prop
  | _, [] => True
  | s, a :: as => ∀ s', step s a = some s' → R s s' ∧ Steps R s' as

variable {step} {P Q Inv : σ → Prop} {G H : σ → α → Prop} {R : σ → σ → Prop} {s s' : σ} {a : α} {as bs : List α}

@[simp] theorem run_nil : run step s [] = some s := rfl

theorem run_cons : run step s (a :: as) = (step s a).bind fun s' => run step s' as := rfl

theorem run_append : run step s (as ++ bs) = (run step s as).bind fun s' => run step s' bs := by
  induction as generalizing s with
  | nil => rfl
  | cons a as ih =>
    rw [List.cons_append, run_cons, run_cons]
    cases step s a with
    | none => rfl
    | some s' => exact ih

theorem run_cons_isSome (h : (run step s (a :: as)).isSome = true) :
    ∃ s', step s a = some s' ∧ (run step s' as).isSome = true := by
  rw [run_cons] at h
  cases hs : step s a with
  | none =>
    rw [hs] at h
    cases h
  | some s' =>
    rw [hs] at h
    exact ⟨s', rfl, h⟩

theorem Always.start (h : Always step P s as) : P s := by
  cases as with
  | nil => exact h
  | cons a as => exact h.1

/-- What always holds, holds at the end. -/
theorem Always.final (h : Always step P s as) (hr : run step s as = some s') : P s' := by
  induction as generalizing s with
  | nil =>
    obtain rfl := Option.some.inj hr
    exact h
  | cons a as ih =>
    obtain ⟨s₁, hs, hr⟩ := Option.bind_eq_some_iff.mp hr
    exact ih (h.2 s₁ hs) hr

theorem Always.mono (hPQ : ∀ s, P s → Q s) (h : Always step P s as) : Always step Q s as := by
  induction as generalizing s with
  | nil => exact hPQ s h
  | cons a as ih => exact ⟨hPQ s h.1, fun s' hs => ih (h.2 s' hs)⟩

theorem Throughout.mono (hGH : ∀ s a, G s a → H s a) (h : Throughout step G s as) :
    Throughout step H s as := by
  induction as generalizing s with
  | nil => trivial
  | cons a as ih => exact ⟨hGH s a h.1, fun s' hs => ih (h.2 s' hs)⟩

/-- The steps of a run that goes on. -/
theorem Throughout.append (h : Throughout step G s as) (hr : run step s as = some s') (hmore : Throughout step G s' bs) :
    Throughout step G s (as ++ bs) := by
  induction as generalizing s with
  | nil =>
    obtain rfl := Option.some.inj hr
    exact hmore
  | cons a as ih =>
    refine ⟨h.1, fun s₁ hs => ih (h.2 s₁ hs) ?_⟩
    rwa [run_cons, hs, Option.bind_some] at hr

/-- **An invariant** that the steps keep which meet `G`. -/
theorem Always.of_throughout (hstep : ∀ s a s', Inv s → G s a → step s a = some s' → Inv s')
    (h : Inv s) (hG : Throughout step G s as) : Always step Inv s as := by
  induction as generalizing s with
  | nil => exact h
  | cons a as ih => exact ⟨h, fun s' hs => ih (hstep s a s' h hG.1 hs) (hG.2 s' hs)⟩

/-- **An invariant** that every step keeps. -/
theorem Always.of_step (hstep : ∀ s a s', Inv s → step s a = some s' → Inv s') (h : Inv s) :
    Always step Inv s as := by
  induction as generalizing s with
  | nil => exact h
  | cons a as ih => exact ⟨h, fun s' hs => ih (hstep s a s' h hs)⟩

/-- **A relation** that every step is in from a state with the invariant. -/
theorem Steps.of_step (hstep : ∀ s a s', Inv s → step s a = some s' → R s s' ∧ Inv s')
    (h : Inv s) : Steps step R s as := by
  induction as generalizing s with
  | nil => trivial
  | cons a as ih =>
    intro s' hs
    obtain ⟨hR, hI⟩ := hstep s a s' h hs
    exact ⟨hR, ih hI⟩

/-- The steps of a run are in `R` exactly when they meet `G`, if each of them is. -/
theorem steps_iff_throughout (hstep : ∀ s a s', Inv s → step s a = some s' → (G s a ↔ R s s') ∧ Inv s')
    (h : Inv s) (hr : (run step s as).isSome = true) :
    Steps step R s as ↔ Throughout step G s as := by
  induction as generalizing s with
  | nil => exact ⟨fun _ => trivial, fun _ => trivial⟩
  | cons a as ih =>
    obtain ⟨s₁, hs, hr⟩ := run_cons_isSome hr
    obtain ⟨hG, hI⟩ := hstep s a s₁ h hs
    constructor
    · intro hR
      refine ⟨hG.mpr (hR s₁ hs).1, fun s' hs' => ?_⟩
      obtain rfl : s₁ = s' := Option.some.inj (hs.symm.trans hs')
      exact (ih hI hr).mp (hR s₁ hs).2
    · rintro ⟨hg, hT⟩ s' hs'
      obtain rfl : s₁ = s' := Option.some.inj (hs.symm.trans hs')
      exact ⟨hG.mp hg, (ih hI hr).mpr (hT s₁ hs)⟩

/-- **The exact condition**: where a step meets `G` if and only if `P` holds behind it, and
then keeps an invariant that implies `P`, a run keeps `P` exactly when its steps meet `G`. -/
theorem always_iff_throughout (hP : ∀ s, Inv s → P s)
    (hstep : ∀ s a s', Inv s → step s a = some s' → (G s a ↔ P s') ∧ (G s a → Inv s'))
    (h : Inv s) (hr : (run step s as).isSome = true) :
    Always step P s as ↔ Throughout step G s as := by
  induction as generalizing s with
  | nil => exact ⟨fun _ => trivial, fun _ => hP s h⟩
  | cons a as ih =>
    obtain ⟨s₁, hs, hr⟩ := run_cons_isSome hr
    obtain ⟨hG, hInv⟩ := hstep s a s₁ h hs
    constructor
    · intro hA
      have hg : G s a := hG.mpr (hA.2 s₁ hs).start
      refine ⟨hg, fun s' hs' => ?_⟩
      obtain rfl : s₁ = s' := Option.some.inj (hs.symm.trans hs')
      exact (ih (hInv hg) hr).mp (hA.2 s₁ hs)
    · rintro ⟨hg, hT⟩
      refine ⟨hP s h, fun s' hs' => ?_⟩
      obtain rfl : s₁ = s' := Option.some.inj (hs.symm.trans hs')
      exact (ih (hInv hg) hr).mpr (hT s₁ hs)

end Machine
