import Mathlib.Algebra.Order.BigOperators.Group.List
import Mathlib.Algebra.Order.Group.Nat
import Mathlib.Algebra.GroupWithZero.Nat
import Mathlib.Data.List.Basic

/-!
# Lines that are joined

- `joined`: lines one behind the other, each with a separator at its end.
- `count_joined`: how many separators there are.
- **`eq_of_joined`**: lines without a separator are all that as many lines can be read as.
-/

namespace Splitting

variable {α : Type*} [DecidableEq α] {a : α} {lines lines' : List (List α)}

variable (a) in
/-- The lines, each ended by the separator. -/
def joined (lines : List (List α)) : List α := lines.flatMap fun line => line ++ [a]

omit [DecidableEq α] in
@[simp] theorem joined_nil : joined a [] = [] := rfl

omit [DecidableEq α] in
theorem joined_cons (line : List α) : joined a (line :: lines) = line ++ a :: joined a lines := by
  rw [joined, List.flatMap_cons, List.append_assoc]
  rfl

/-- Every line has its own separator and those in it. -/
theorem count_joined : (joined a lines).count a = (lines.map fun line => line.count a).sum + lines.length := by
  induction lines with
  | nil => rfl
  | cons line lines ih =>
    rw [joined_cons, List.count_append, List.count_cons_self, ih, List.map_cons, List.sum_cons, List.length_cons]
    omega

/-- Lines hold no separator where there are only as many as lines. -/
theorem whole_of_count (h : (joined a lines).count a = lines.length) : ∀ line ∈ lines, a ∉ line := by
  rw [count_joined] at h
  intro line hline
  have hle : line.count a ≤ (lines.map fun line => line.count a).sum :=
    List.single_le_sum (fun _ _ => Nat.zero_le _) _ (List.mem_map_of_mem hline)
  exact List.count_eq_zero.mp (by omega)

omit [DecidableEq α] in
/-- The first separator ends the first line. -/
theorem append_cons_inj {x y r r' : List α} (hx : a ∉ x) (hy : a ∉ y) (h : x ++ a :: r = y ++ a :: r') :
    x = y ∧ r = r' := by
  induction x generalizing y with
  | nil =>
    cases y with
    | nil => exact ⟨rfl, (List.cons.inj h).2⟩
    | cons u y => exact absurd (List.mem_cons.mpr (.inl (List.cons.inj h).1)) hy
  | cons u x ih =>
    cases y with
    | nil => exact absurd (List.mem_cons.mpr (.inl (List.cons.inj h).1.symm)) hx
    | cons v y =>
      obtain ⟨rfl, htail⟩ := List.cons.inj h
      obtain ⟨rfl, rfl⟩ := ih (List.not_mem_of_not_mem_cons hx) (List.not_mem_of_not_mem_cons hy) htail
      exact ⟨rfl, rfl⟩

/-- **Lines are read back**: where one reading has no separator within a line, another one with as many lines is
the same. -/
theorem eq_of_joined (hwhole : ∀ line ∈ lines, a ∉ line) (hlen : lines.length = lines'.length)
    (h : joined a lines = joined a lines') : lines = lines' := by
  have hcount : (joined a lines').count a = lines'.length := by
    rw [← h, count_joined, hlen, List.sum_eq_zero, Nat.zero_add]
    intro n hn
    obtain ⟨line, hline, rfl⟩ := List.mem_map.mp hn
    exact List.count_eq_zero.mpr (hwhole line hline)
  have hwhole' := whole_of_count hcount
  clear hcount
  induction lines generalizing lines' with
  | nil => exact (List.length_eq_zero_iff.mp hlen.symm).symm
  | cons line lines ih =>
    cases lines' with
    | nil => cases hlen
    | cons line' lines' =>
      rw [joined_cons, joined_cons] at h
      obtain ⟨hl, hls⟩ := List.forall_mem_cons.mp hwhole
      obtain ⟨hl', hls'⟩ := List.forall_mem_cons.mp hwhole'
      obtain ⟨rfl, hrest⟩ := append_cons_inj hl hl' h
      rw [ih hls (Nat.succ.inj hlen) hrest hls']

end Splitting
