import Mathlib.Data.List.TakeWhile

/-!
# Lists with strictly increasing keys

Whether one of them is part of another one is decided by going through both at once.

- `Increasing`: the keys increase from item to item.
- **`subset_cons_of_lt`, `subset_cons_cons`, `subset_cons_of_gt`**: what the two first items say.
- `subset_dropWhile`: items in front of the first one of the other list do not matter.
-/

namespace Sorting

open Std

variable {α β : Type*} [LT α] {key : β → α} {xs ys : List β} {x y z : β}

variable (key) in
/-- The keys increase. -/
def Increasing (xs : List β) : Prop := xs.Pairwise fun a b => key a < key b

theorem Increasing.tail (h : Increasing key (x :: xs)) : Increasing key xs := (List.pairwise_cons.mp h).2

theorem Increasing.lt (h : Increasing key (x :: xs)) (hz : z ∈ xs) : key x < key z := (List.pairwise_cons.mp h).1 z hz

theorem Increasing.dropWhile {p : β → Bool} (h : Increasing key xs) : Increasing key (xs.dropWhile p) :=
  h.sublist (List.dropWhile_sublist p)

variable [LE α] [IsLinearOrder α] [LawfulOrderLT α]

theorem Increasing.le (h : Increasing key (x :: xs)) (hz : z ∈ x :: xs) : key x ≤ key z := by
  rcases List.mem_cons.mp hz with rfl | hz
  · exact le_refl _
  · exact le_of_lt (h.lt hz)

/-- Only the first item has the first key. -/
theorem Increasing.mem_iff (h : Increasing key (x :: xs)) (hz : key z ≤ key x) : z ∈ x :: xs ↔ z = x := by
  refine ⟨fun hmem => ?_, fun heq => heq ▸ List.mem_cons_self⟩
  rcases List.mem_cons.mp hmem with heq | hmem
  · exact heq
  · exact absurd (lt_of_le_of_lt hz (h.lt hmem)) lt_irrefl

/-- Items with the same key are the same. -/
theorem Increasing.eq_of_key (h : Increasing key xs) (hx : x ∈ xs) (hy : y ∈ xs) (hkey : key x = key y) : x = y := by
  induction xs with
  | nil => cases hx
  | cons z xs ih =>
    rcases List.mem_cons.mp hx with rfl | hx'
    · exact ((h.mem_iff (hkey ▸ le_refl _)).mp hy).symm
    · rcases List.mem_cons.mp hy with rfl | hy'
      · exact (h.mem_iff (hkey ▸ le_refl _)).mp hx
      · exact ih h.tail hx' hy'

/-- The first list has an item that the second one has passed. -/
theorem subset_cons_of_lt (hys : Increasing key (y :: ys)) (hlt : key x < key y) : ¬ ∀ z ∈ x :: xs, z ∈ y :: ys := by
  rintro h
  have hmem := h x List.mem_cons_self
  rw [hys.mem_iff (le_of_lt hlt)] at hmem
  exact absurd hlt (hmem ▸ lt_irrefl)

/-- The first keys are the same. -/
theorem subset_cons_cons (hxs : Increasing key (x :: xs)) (hys : Increasing key (y :: ys)) (heq : key x = key y) :
    (∀ z ∈ x :: xs, z ∈ y :: ys) ↔ x = y ∧ ∀ z ∈ xs, z ∈ ys := by
  constructor
  · rintro h
    refine ⟨(hys.mem_iff (heq ▸ le_refl _)).mp (h x List.mem_cons_self), fun z hz => ?_⟩
    rcases List.mem_cons.mp (h z (List.mem_cons_of_mem _ hz)) with rfl | hmem
    · exact absurd (hxs.lt hz) (heq ▸ lt_irrefl)
    · exact hmem
  · rintro ⟨rfl, h⟩ z hz
    rcases List.mem_cons.mp hz with rfl | hz
    · exact List.mem_cons_self
    · exact List.mem_cons_of_mem _ (h z hz)

/-- The first list has passed an item of the second one. -/
theorem subset_cons_of_gt (hxs : Increasing key (x :: xs)) (hgt : key y < key x) :
    (∀ z ∈ x :: xs, z ∈ y :: ys) ↔ ∀ z ∈ x :: xs, z ∈ ys := by
  refine forall₂_congr fun z hz => ?_
  have hne : z ≠ y := by
    rintro rfl
    exact absurd (lt_of_lt_of_le hgt (hxs.le hz)) lt_irrefl
  rw [List.mem_cons, or_iff_right hne]

/-- Items with smaller keys do not matter. -/
theorem subset_dropWhile [DecidableLT α] (hxs : Increasing key (x :: xs)) :
    (∀ z ∈ x :: xs, z ∈ ys.dropWhile fun y => key y < key x) ↔ ∀ z ∈ x :: xs, z ∈ ys := by
  refine forall₂_congr fun z hz => ⟨fun h => (List.dropWhile_sublist _).subset h, fun h => ?_⟩
  rw [← @List.takeWhile_append_dropWhile _ (fun y => decide (key y < key x)) ys] at h
  rcases List.mem_append.mp h with h | h
  · have hlt : key z < key x := by simpa using List.mem_takeWhile_imp h
    exact absurd (lt_of_lt_of_le hlt (hxs.le hz)) lt_irrefl
  · exact h

end Sorting
