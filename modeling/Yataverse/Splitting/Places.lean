import Mathlib.Algebra.GroupWithZero.Nat
import Mathlib.Algebra.Order.BigOperators.Group.List
import Mathlib.Algebra.Order.Group.Nat
import Mathlib.Data.List.Basic

/-!
# Places in a row of lists

Lists stand one behind the other, and some may be empty.

- `startsFrom`: where lists of so many elements start, one behind the other.
- `start`: where a list starts.
- `IsPlace`: the list that holds an offset.
- **`isPlace_of_search`**: it is the last one that does not start behind the offset.
- `IsPlace.drop`, `IsPlace.take`: what follows the offset.
-/

namespace Splitting

variable {α : Type*} {xss : List (List α)} {xs : List α} {offset i j k : Nat}

/-- Where lists of so many elements start, the first one at `o`. -/
def startsFrom : Nat → List Nat → List Nat
  | _, [] => []
  | o, n :: ns => o :: startsFrom (o + n) ns

@[simp] theorem length_startsFrom (o : Nat) (ns : List Nat) : (startsFrom o ns).length = ns.length := by
  induction ns generalizing o with
  | nil => rfl
  | cons n ns ih => rw [startsFrom, List.length_cons, List.length_cons, ih]

theorem getElem?_startsFrom {o : Nat} {ns : List Nat} (h : i < ns.length) :
    (startsFrom o ns)[i]? = some (o + (ns.take i).sum) := by
  induction ns generalizing o i with
  | nil => exact absurd h (Nat.not_lt_zero _)
  | cons n ns ih =>
    cases i with
    | zero => rfl
    | succ i =>
      rw [startsFrom, List.getElem?_cons_succ, ih (Nat.lt_of_succ_lt_succ h), List.take_succ_cons, List.sum_cons,
        Nat.add_assoc]

theorem startsFrom_sorted (o : Nat) (ns : List Nat) : (startsFrom o ns).Pairwise (· ≤ ·) := by
  have hle : ∀ (o : Nat) (ns : List Nat), ∀ s ∈ startsFrom o ns, o ≤ s := by
    intro o ns
    induction ns generalizing o with
    | nil => exact fun s hs => absurd hs List.not_mem_nil
    | cons n ns ih =>
      intro s hs
      rcases List.mem_cons.mp hs with rfl | hs
      · exact Nat.le_refl _
      · exact (Nat.le_add_right o n).trans (ih _ s hs)
  induction ns generalizing o with
  | nil => exact List.Pairwise.nil
  | cons n ns ih => exact List.pairwise_cons.mpr ⟨fun s hs => (Nat.le_add_right o n).trans (hle _ _ s hs), ih _⟩

/-- Where a list starts in the row. -/
def start (xss : List (List α)) (i : Nat) : Nat := ((xss.take i).map List.length).sum

/-- The starts of lists are where they start. -/
theorem getElem?_starts (h : i < xss.length) : (startsFrom 0 (xss.map List.length))[i]? = some (start xss i) := by
  rw [getElem?_startsFrom (by rwa [List.length_map]), Nat.zero_add, ← List.map_take, start]

@[simp] theorem start_zero : start xss 0 = 0 := rfl

theorem start_succ (h : xss[i]? = some xs) : start xss (i + 1) = start xss i + xs.length := by
  rw [start, List.take_add_one, h, Option.toList_some, List.map_append, List.sum_append]
  rfl

theorem start_length : start xss xss.length = xss.flatten.length := by
  rw [start, List.take_length, List.length_flatten]

theorem start_mono (h : i ≤ j) : start xss i ≤ start xss j := by
  obtain ⟨d, rfl⟩ := Nat.exists_eq_add_of_le h
  rw [start, start, List.take_add, List.map_append, List.sum_append]
  exact Nat.le_add_right _ _

/-- What a list starts. -/
theorem drop_start (i : Nat) : xss.flatten.drop (start xss i) = (xss.drop i).flatten := by
  rw [start, ← List.length_flatten]
  conv_lhs => rw [← List.take_append_drop i xss, List.flatten_append]
  rw [List.drop_left' (by rw [List.take_append_drop])]

/-- The list that holds an offset. -/
structure IsPlace (xss : List (List α)) (offset i : Nat) : Prop where
  lt : i < xss.length
  le : start xss i ≤ offset
  next : offset < start xss (i + 1)

/-- There is one list that holds an offset. -/
theorem IsPlace.unique (hi : IsPlace xss offset i) (hj : IsPlace xss offset j) : i = j := by
  rcases Nat.lt_trichotomy i j with hlt | heq | hlt
  · have := @start_mono _ xss (i + 1) j hlt
    have := hi.next
    have := hj.le
    omega
  · exact heq
  · have := @start_mono _ xss (j + 1) i hlt
    have := hj.next
    have := hi.le
    omega

/-- **The last list that does not start behind the offset** holds it, however many lists are empty. -/
theorem isPlace_of_search (hk : ∀ j < xss.length, j < k ↔ start xss j ≤ offset) (hle : k ≤ xss.length)
    (hoffset : offset < xss.flatten.length) : IsPlace xss offset (k - 1) := by
  have hpos : 0 < xss.length := by
    refine List.length_pos_iff.mpr ?_
    rintro rfl
    exact absurd hoffset (Nat.not_lt_zero _)
  have hk0 : 0 < k := (hk 0 hpos).mpr (Nat.zero_le _)
  refine ⟨by omega, (hk (k - 1) (by omega)).mp (by omega), ?_⟩
  rw [Nat.sub_add_cancel hk0]
  rcases Nat.lt_or_eq_of_le hle with hlt | rfl
  · exact Nat.lt_of_not_le fun h => absurd ((hk k hlt).mpr h) (Nat.lt_irrefl _)
  · rwa [start_length]

/-- What follows an offset: the rest of its list, and the lists behind. -/
theorem IsPlace.drop (h : IsPlace xss offset i) (hi : xss[i]? = some xs) :
    xss.flatten.drop offset = xs.drop (offset - start xss i) ++ (xss.drop (i + 1)).flatten := by
  have hlen : offset - start xss i ≤ xs.length := by
    have := h.next
    rw [start_succ hi] at this
    omega
  obtain ⟨d, hd⟩ := Nat.exists_eq_add_of_le h.le
  have hcons : xss.drop i = xs :: xss.drop (i + 1) := by
    obtain ⟨hlt, rfl⟩ := List.getElem?_eq_some_iff.mp hi
    exact List.drop_eq_getElem_cons hlt
  rw [hd, Nat.add_sub_cancel_left, ← List.drop_drop, drop_start, hcons, List.flatten_cons,
    List.drop_append_of_le_length (by omega)]

theorem IsPlace.lt_length (h : IsPlace xss offset i) (hi : xss[i]? = some xs) : offset - start xss i < xs.length := by
  have := h.next
  have := h.le
  rw [start_succ hi] at *
  omega

end Splitting
