import Mathlib.Data.List.Forall2

/-!
# Programs that fail

- `bind_eq_ok`, `map_eq_ok`, `mapM_eq_ok`: when a program of `Except` returns.
- `bind_eq_error`, `mapM_eq_error`: where it fails.
- `require`: a check.
-/

namespace Fallible

variable {ε α β : Type}

theorem bind_eq_ok {x : Except ε α} {f : α → Except ε β} {b : β} :
    (x >>= f) = .ok b ↔ ∃ a, x = .ok a ∧ f a = .ok b := by
  cases x with
  | error e => exact ⟨nofun, nofun⟩
  | ok a =>
    refine ⟨fun h => ⟨a, rfl, h⟩, ?_⟩
    rintro ⟨a', h, hf⟩
    obtain rfl := Except.ok.inj h
    exact hf

theorem ok_of_toOption {x : Except ε α} {a : α} (h : x.toOption = some a) : x = .ok a := by
  cases x with
  | error e => cases h
  | ok a' => exact congrArg Except.ok (Option.some.inj h)

theorem map_eq_ok {x : Except ε α} {f : α → β} {b : β} :
    f <$> x = .ok b ↔ ∃ a, x = .ok a ∧ f a = b := by
  cases x with
  | error e => exact ⟨nofun, nofun⟩
  | ok a =>
    refine ⟨fun h => ⟨a, rfl, Except.ok.inj h⟩, ?_⟩
    rintro ⟨a', h, rfl⟩
    obtain rfl := Except.ok.inj h
    rfl

theorem bind_eq_error {x : Except ε α} {f : α → Except ε β} {e : ε} :
    (x >>= f) = .error e ↔ x = .error e ∨ ∃ a, x = .ok a ∧ f a = .error e := by
  cases x with
  | error e' =>
    constructor
    · rintro h
      exact .inl (congrArg Except.error (Except.error.inj h))
    · rintro (h | ⟨a, ha, -⟩)
      · exact congrArg Except.error (Except.error.inj h)
      · cases ha
  | ok a =>
    constructor
    · rintro h
      exact .inr ⟨a, rfl, h⟩
    · rintro (h | ⟨a', ha, hf⟩)
      · cases h
      · obtain rfl := Except.ok.inj ha
        exact hf

/-- A list of programs returns when each of them does. -/
theorem mapM_eq_ok {f : α → Except ε β} {xs : List α} {ys : List β} :
    xs.mapM f = .ok ys ↔ List.Forall₂ (fun x y => f x = .ok y) xs ys := by
  induction xs generalizing ys with
  | nil =>
    rw [List.mapM_nil, List.forall₂_nil_left_iff]
    exact ⟨fun h => (Except.ok.inj h).symm, fun h => h ▸ rfl⟩
  | cons x xs ih =>
    simp only [List.mapM_cons, bind_eq_ok, List.forall₂_cons_left_iff, ih]
    constructor
    · rintro ⟨y, hy, ys, hys, ⟨⟩⟩
      exact ⟨y, ys, hy, hys, rfl⟩
    · rintro ⟨y, ys, hy, hys, rfl⟩
      exact ⟨y, hy, ys, hys, rfl⟩

theorem mapM_ok {f : α → Except ε β} {xs : List α} {ys : List β} (h : xs.mapM f = .ok ys) :
    ∀ x ∈ xs, ∃ y, f x = .ok y := by
  have h := mapM_eq_ok.mp h
  induction h with
  | nil => nofun
  | cons hxy _ ih =>
    rintro x (_ | ⟨_, hx⟩)
    · exact ⟨_, hxy⟩
    · exact ih (mapM_eq_ok.mpr ‹_›) x hx

theorem mapM_mem {f : α → Except ε β} {xs : List α} {ys : List β} (h : xs.mapM f = .ok ys) :
    ∀ y ∈ ys, ∃ x ∈ xs, f x = .ok y := by
  have h := mapM_eq_ok.mp h
  induction h with
  | nil => nofun
  | cons hxy _ ih =>
    rintro y (_ | ⟨_, hy⟩)
    · exact ⟨_, List.mem_cons_self .., hxy⟩
    · obtain ⟨x, hx, h⟩ := ih (mapM_eq_ok.mpr ‹_›) y hy
      exact ⟨x, List.mem_cons_of_mem _ hx, h⟩

theorem mapM_singleton {f : α → Except ε β} {x : α} {ys : List β} (h : [x].mapM f = .ok ys) :
    ∃ y, f x = .ok y ∧ ys = [y] := by
  simpa [List.forall₂_cons_left_iff] using mapM_eq_ok.mp h

/-- A list of programs fails where one of them does. -/
theorem mapM_eq_error {f : α → Except ε β} {xs : List α} {e : ε} (h : xs.mapM f = .error e) :
    ∃ x ∈ xs, f x = .error e := by
  induction xs with
  | nil => cases h
  | cons x xs ih =>
    rw [List.mapM_cons] at h
    obtain h | ⟨y, -, h⟩ := bind_eq_error.mp h
    · exact ⟨x, .head xs, h⟩
    · obtain h | ⟨ys, -, h⟩ := bind_eq_error.mp h
      · obtain ⟨x', hx', h'⟩ := ih h
        exact ⟨x', .tail x hx', h'⟩
      · cases h

theorem mapM_length {f : α → Except ε β} {xs : List α} {ys : List β} (h : xs.mapM f = .ok ys) :
    ys.length = xs.length := (mapM_eq_ok.mp h).length_eq.symm

/-- A check: fail with `e` unless `c`. -/
def require (c : Prop) [Decidable c] (e : ε) : Except ε Unit := if c then .ok () else .error e

variable {c : Prop} [Decidable c] {e : ε}

theorem require_eq_ok {u : Unit} : require c e = .ok u ↔ c := by
  unfold require
  split <;> simp_all

theorem require_eq_error {e' : ε} : require c e = .error e' ↔ ¬ c ∧ e = e' := by
  unfold require
  split <;> simp_all

end Fallible
