import Mathlib.Data.List.Basic

/-!
# Consecutive pieces

Pieces of the natural numbers that follow each other without a gap, as what a process has
done with the numbers it has passed.

- `Consecutive`: the pieces begin at one number, each where the last one ended, and end at
  another.
- `Consecutive.existsUnique`: every number between the two lies in exactly one of them.
-/

namespace Cover

variable {α : Type*} (lo hi : α → Nat)

/-- The pieces cover the numbers from `a` up to `c`, one after the other. -/
def Consecutive : Nat → List α → Nat → Prop
  | a, [], c => a = c
  | a, p :: ps, c => lo p = a ∧ lo p < hi p ∧ Consecutive (hi p) ps c

variable {lo hi} {a b c n : Nat} {p : α} {ps qs : List α}

theorem Consecutive.le (h : Consecutive lo hi a ps c) : a ≤ c := by
  induction ps generalizing a with
  | nil => exact Nat.le_of_eq h
  | cons p ps ih =>
    have := ih h.2.2
    have := h.1
    have := h.2.1
    omega

/-- One more piece behind the others. -/
theorem Consecutive.concat (h : Consecutive lo hi a ps c) (hp : lo p = c) (hlt : lo p < hi p) :
    Consecutive lo hi a (ps ++ [p]) (hi p) := by
  induction ps generalizing a with
  | nil => exact ⟨hp.trans (Eq.symm h), hlt, rfl⟩
  | cons q ps ih => exact ⟨h.1, h.2.1, ih h.2.2⟩

/-- No piece reaches out of what is covered. -/
theorem Consecutive.bounds (h : Consecutive lo hi a ps c) (hp : p ∈ ps) : a ≤ lo p ∧ hi p ≤ c := by
  induction ps generalizing a with
  | nil => cases hp
  | cons q ps ih =>
    obtain rfl | hp := List.mem_cons.mp hp
    · exact ⟨Nat.le_of_eq (Eq.symm h.1), h.2.2.le⟩
    · have := ih h.2.2 hp
      have := h.1
      have := h.2.1
      exact ⟨by omega, by omega⟩

/-- **Exactly one piece** holds each of the numbers that are covered. -/
theorem Consecutive.existsUnique (h : Consecutive lo hi a ps c) (ha : a ≤ n) (hc : n < c) :
    ∃! p, p ∈ ps ∧ lo p ≤ n ∧ n < hi p := by
  induction ps generalizing a with
  | nil =>
    have : a = c := h
    omega
  | cons q ps ih =>
    obtain ⟨hlo, hlt, hrest⟩ := h
    by_cases hn : n < hi q
    · refine ⟨q, ⟨.head ps, by omega, hn⟩, ?_⟩
      rintro p ⟨hp, hlop, -⟩
      -- the later pieces begin behind `q`
      obtain rfl | hp := List.mem_cons.mp hp
      · rfl
      · have := (hrest.bounds hp).1
        omega
    · obtain ⟨p, ⟨hp, hpn⟩, huniq⟩ := ih hrest (by omega)
      refine ⟨p, ⟨.tail q hp, hpn⟩, ?_⟩
      rintro p' ⟨hp', hpn'⟩
      obtain rfl | hp' := List.mem_cons.mp hp'
      · exact absurd hpn'.2 hn
      · exact huniq p' ⟨hp', hpn'⟩

end Cover
