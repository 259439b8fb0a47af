import Yataverse.Sorting.Stable
import Mathlib.Data.List.FinRange
import Mathlib.Order.Compare

/-!
# Sorting with a comparison that may fail

A sort that is given a comparison knows nothing of the elements but its answers, so what it
does is a tree of questions about two places of its input. If the comparison fails, so does
the sort.

- `Comparisons`: such a tree, and `Comparisons.run` its result for a comparison.
- `Sorter`: a tree for every length, which sorts by every key in a linear order.
- **`Sorter.run_undecided`**: a sort fails if its comparison leaves open which of two elements
  comes first.
- `Sorter.run_sorted`: otherwise it sorts.
- `insertionSorter`: there is one.
-/

namespace Sorting

/-- The questions of a sort about `n` places, and the order in which it lists them. -/
inductive Comparisons (n : Nat) where
  | done (order : List (Fin n))
  | ask (i j : Fin n) (next : Ordering → Comparisons n)

namespace Comparisons

variable {n : Nat} {ε : Type}

/-- The result, if `compare` answers the questions. -/
def run (compare : Fin n → Fin n → Except ε Ordering) : Comparisons n → Except ε (List (Fin n))
  | done order => .ok order
  | ask i j next =>
    match compare i j with
    | .ok o => (next o).run compare
    | .error e => .error e

/-- Another comparison that gives the same answers. -/
theorem run_agree {compare compare' : Fin n → Fin n → Except ε Ordering}
    (hagree : ∀ i j o, compare i j = .ok o → compare' i j = .ok o) {t : Comparisons n} {order : List (Fin n)}
    (h : t.run compare = .ok order) : t.run compare' = .ok order := by
  induction t with
  | done order' => exact h
  | ask i j next ih =>
    rw [run] at h ⊢
    cases hc : compare i j with
    | error e =>
      rw [hc] at h
      cases h
    | ok o =>
      rw [hc] at h
      rw [hagree i j o hc]
      exact ih o h

/-- Go on with the order that `t` found. -/
def bind : Comparisons n → (List (Fin n) → Comparisons n) → Comparisons n
  | done order, f => f order
  | ask i j next, f => ask i j fun o => (next o).bind f

theorem run_bind {compare : Fin n → Fin n → Except ε Ordering} {t : Comparisons n}
    {f : List (Fin n) → Comparisons n} {order : List (Fin n)} (h : t.run compare = .ok order) :
    (t.bind f).run compare = (f order).run compare := by
  induction t with
  | done order' => rw [bind, Except.ok.inj h]
  | ask i j next ih =>
    rw [run] at h
    rw [bind, run]
    cases hc : compare i j with
    | error e =>
      rw [hc] at h
      cases h
    | ok o =>
      rw [hc] at h
      exact ih o h

end Comparisons

/-- The comparison of two places by a key. -/
def byKey {n : Nat} (ε : Type) {D : Type} [LinearOrder D] (key : Fin n → D) (i j : Fin n) : Except ε Ordering :=
  .ok (compare (key i) (key j))

/-- A sort: for every length, the questions it asks. -/
structure Sorter where
  comparisons : (n : Nat) → Comparisons n
  sorts : ∀ (ε : Type) {D : Type} [LinearOrder D] {n : Nat} (key : Fin n → D),
    ∃ order, (comparisons n).run (byKey ε key) = .ok order ∧ order.Perm (List.finRange n) ∧
      order.Pairwise fun i j => key i ≤ key j

namespace Sorter

variable (S : Sorter) {ε D : Type} [LinearOrder D] {n : Nat} {compare : Fin n → Fin n → Except ε Ordering}

/-- What is sorted by a key that agrees with the comparison. -/
theorem run_sorted {key : Fin n → D} (hkey : ∀ i j o, compare i j = .ok o → byKey ε key i j = .ok o)
    {order : List (Fin n)} (h : (S.comparisons n).run compare = .ok order) :
    order.Perm (List.finRange n) ∧ order.Pairwise fun i j => key i ≤ key j := by
  obtain ⟨order', h', hperm, hsorted⟩ := S.sorts ε key
  rw [Comparisons.run_agree hkey h] at h'
  obtain rfl := Except.ok.inj h'
  exact ⟨hperm, hsorted⟩

/-- **A comparison that leaves two elements open** makes the sort fail: two keys agree with
it, and put them in different orders. -/
theorem run_undecided {key key' : Fin n → D} (hkey : ∀ i j o, compare i j = .ok o → byKey ε key i j = .ok o)
    (hkey' : ∀ i j o, compare i j = .ok o → byKey ε key' i j = .ok o) {i j : Fin n}
    (hlt : key i < key j) (hgt : key' j < key' i) (order : List (Fin n)) :
    (S.comparisons n).run compare ≠ .ok order := by
  intro h
  obtain ⟨hperm, hsorted⟩ := S.run_sorted hkey h
  obtain ⟨-, hsorted'⟩ := S.run_sorted hkey' h
  have hmem : ∀ k, k ∈ order := fun k => hperm.mem_iff.mpr (List.mem_finRange k)
  have hij : i ≠ j := by
    rintro rfl
    exact lt_irrefl _ hlt
  -- one of the two comes first, which one of the keys denies
  obtain hbefore | hbefore := before_or_before (hmem i) (hmem j) hij
  · exact absurd (List.pairwise_iff_forall_sublist.mp hsorted' hbefore) (not_le.mpr hgt)
  · exact absurd (List.pairwise_iff_forall_sublist.mp hsorted hbefore) (not_le.mpr hlt)

end Sorter

/-! ## Insertion -/

namespace Comparisons

variable {n : Nat} {ε D : Type} [LinearOrder D]

/-- Put `i` in front of the first that is not less. -/
def insert (i : Fin n) : List (Fin n) → Comparisons n
  | [] => done [i]
  | j :: js => ask i j fun o =>
    if o = .gt then (insert i js).bind fun order => done (j :: order) else done (i :: j :: js)

def insertion : List (Fin n) → Comparisons n
  | [] => done []
  | i :: is => (insertion is).bind (insert i)

theorem run_insert (key : Fin n → D) (i : Fin n) (js : List (Fin n)) :
    (insert i js).run (byKey ε key) = .ok (js.orderedInsert (fun i j => key i ≤ key j) i) := by
  induction js with
  | nil => rfl
  | cons j js ih =>
    rw [insert, run, byKey, List.orderedInsert]
    dsimp only
    by_cases hle : key i ≤ key j
    · rw [if_pos hle, if_neg (by rwa [compare_gt_iff_gt, not_lt])]
      rfl
    · rw [if_neg hle, if_pos (compare_gt_iff_gt.mpr (not_le.mp hle)), run_bind ih]
      rfl

theorem run_insertion (key : Fin n → D) (is : List (Fin n)) :
    (insertion is).run (byKey ε key) = .ok (is.insertionSort fun i j => key i ≤ key j) := by
  induction is with
  | nil => rfl
  | cons i is ih =>
    rw [insertion, run_bind ih, run_insert]
    rfl

end Comparisons

/-- Insertion sort. -/
def insertionSorter : Sorter where
  comparisons n := Comparisons.insertion (List.finRange n)
  sorts ε D _ n key := by
    refine ⟨_, Comparisons.run_insertion key _, List.perm_insertionSort _ _, ?_⟩
    have htotal : Std.Total fun i j => key i ≤ key j := ⟨fun i j => le_total _ _⟩
    have htrans : IsTrans _ fun i j => key i ≤ key j := ⟨fun i j k => le_trans⟩
    exact List.pairwise_insertionSort _ _

end Sorting
