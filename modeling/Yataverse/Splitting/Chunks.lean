import Mathlib.Data.List.TakeDrop
import Mathlib.Tactic.Common

/-!
# Chunks of a list

- `chunks n`: consecutive pieces of `n` elements; the last one may be shorter.
- `flatten_chunks`, `length_of_mem_chunks`: nothing is lost, and no chunk is empty or too long.
- **`length_chunks`**: how many there are.
-/

namespace Splitting

variable {α β : Type*} {n : Nat} {xs c : List α}

/-- Consecutive pieces of `n` elements, where `n` is positive. -/
def chunks (n : Nat) : List α → List (List α)
  | [] => []
  | x :: xs => (x :: xs.take (n - 1)) :: chunks n (xs.drop (n - 1))
termination_by xs => xs.length
decreasing_by
  rw [List.length_drop, List.length_cons]
  omega

@[simp] theorem chunks_nil (n : Nat) : chunks n ([] : List α) = [] := by
  rw [chunks]

theorem chunks_cons (n : Nat) (x : α) (xs : List α) :
    chunks n (x :: xs) = (x :: xs.take (n - 1)) :: chunks n (xs.drop (n - 1)) := by
  rw [chunks]

@[simp] theorem flatten_chunks (n : Nat) (xs : List α) : (chunks n xs).flatten = xs := by
  fun_induction chunks n xs with
  | case1 => rfl
  | case2 x xs ih => rw [List.flatten_cons, ih, List.cons_append, List.take_append_drop]

theorem length_of_mem_chunks (hn : 0 < n) (hc : c ∈ chunks n xs) : 1 ≤ c.length ∧ c.length ≤ n := by
  fun_induction chunks n xs with
  | case1 => cases hc
  | case2 x xs ih =>
    rcases List.mem_cons.mp hc with rfl | hc
    · rw [List.length_cons, List.length_take]
      omega
    · exact ih hc

/-- **How many chunks there are**: the quotient of the lengths, rounded up. -/
theorem length_chunks (hn : 0 < n) (xs : List α) : (chunks n xs).length = (xs.length + n - 1) / n := by
  fun_induction chunks n xs with
  | case1 => exact (Nat.div_eq_of_lt (by rw [List.length_nil]; omega)).symm
  | case2 x xs ih =>
    rw [List.length_cons, ih, List.length_drop, List.length_cons]
    rcases Nat.lt_or_ge xs.length n with hlt | hge
    · have hone : (xs.length - (n - 1) + n - 1) / n = 0 := Nat.div_eq_of_lt (by omega)
      have htwo : (xs.length + 1 + n - 1) / n = 1 := Nat.div_eq_of_lt_le (by omega) (by omega)
      rw [hone, htwo]
    · have hsplit : xs.length + 1 + n - 1 = (xs.length - (n - 1) + n - 1) + n := by omega
      rw [hsplit, Nat.add_div_right _ hn]

/-- Chunks of what is mapped. -/
theorem chunks_map (n : Nat) (f : α → β) (xs : List α) : chunks n (xs.map f) = (chunks n xs).map (List.map f) := by
  fun_induction chunks n xs with
  | case1 => rw [List.map_nil, chunks_nil, List.map_nil]
  | case2 x xs ih => rw [List.map_cons, chunks_cons, ← List.map_drop, ih, ← List.map_take, List.map_cons, List.map_cons]

end Splitting
