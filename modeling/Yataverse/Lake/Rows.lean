import Yataverse.Js.Json
import Yataverse.Lake.Inventory

/-!
# Rows and their sizes

- `fresh`: the rows that other rows do not have.
- `addSizes`: the sum of the sizes, as doubles.
- `addSizes_exact`: up to `2 ^ 53` bytes, it is exact.
-/

namespace Lake

open Js

/-- The rows whose CIDs the old rows do not have. -/
def fresh (old new : List Row) : List Row := new.filter fun row => row.cid ∉ old.map Row.cid

/-- `(reduce + sizes)`, from a first number on. -/
def addSizes (rows : List Row) (bytes : Number) : Number := rows.foldl (fun bytes row => bytes.add row.size) bytes

/-- The sum of the sizes. -/
def totalSize (rows : List Row) : Nat := (rows.map Row.size).sum

variable {old rows : List Row} {row : Row}

theorem fresh_cons_of_mem (h : row.cid ∈ old.map Row.cid) : fresh old (row :: rows) = fresh old rows :=
  List.filter_cons_of_neg (by rw [decide_eq_true_iff]; exact not_not.mpr h)

theorem fresh_cons_of_not_mem (h : row.cid ∉ old.map Row.cid) : fresh old (row :: rows) = row :: fresh old rows :=
  List.filter_cons_of_pos (decide_eq_true h)

theorem addSizes_exact {n : Nat} (h : n + totalSize rows ≤ 2 ^ 53) :
    addSizes rows (.int n) = .int (n + totalSize rows : Nat) := by
  induction rows generalizing n with
  | nil => rfl
  | cons row rows ih =>
    rw [totalSize, List.map_cons, List.sum_cons, ← Nat.add_assoc] at h ⊢
    have hstep : (Number.int n).add row.size = .int (n + row.size : Nat) := by
      rw [Number.add, Number.ofInt_exact (by omega), Nat.cast_add]
    rw [addSizes, List.foldl_cons, hstep]
    exact ih h

end Lake
