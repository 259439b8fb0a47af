import Mathlib.Data.Finset.Card
import Mathlib.Logic.Function.Basic

/-!
# Slots

Parties take slots and give them back; only so many slots are taken at a time.

- `Taken`: so many parties hold a slot.
- `Taken.take`, `Taken.give`: one of them takes one, or gives its one back.
- **`Taken.alone`**: where there is one slot, one party holds it.
- **`Taken.eq_zero`**: where nobody holds a slot, none is taken.
-/

namespace Limiting

variable {ι : Type*} {holds holds' : ι → Bool} {n : Nat} {i j : ι}

/-- So many parties hold a slot. -/
def Taken (holds : ι → Bool) (n : Nat) : Prop := ∃ parties : Finset ι, (∀ i, i ∈ parties ↔ holds i = true) ∧ parties.card = n

theorem taken_none (h : ∀ i, holds i = false) : Taken holds 0 :=
  ⟨∅, fun i => iff_of_false (Finset.notMem_empty i) (by rw [h i]; exact Bool.false_ne_true), rfl⟩

/-- Nothing has changed. -/
theorem Taken.keep (h : Taken holds n) (hsame : ∀ i, holds' i = holds i) : Taken holds' n := by
  obtain rfl := funext hsame
  exact h

/-- A party takes a slot. -/
theorem Taken.take (h : Taken holds n) (hi : holds i = false) (hi' : holds' i = true) (hother : ∀ j, j ≠ i → holds' j = holds j) :
    Taken holds' (n + 1) := by
  classical
  obtain ⟨parties, hmem, hcard⟩ := h
  have hnew : i ∉ parties := fun hin => by
    rw [(hmem i).mp hin] at hi
    cases hi
  refine ⟨insert i parties, fun j => ?_, by rw [Finset.card_insert_of_notMem hnew, hcard]⟩
  rw [Finset.mem_insert]
  by_cases hj : j = i
  · rw [hj]
    exact iff_of_true (.inl rfl) hi'
  · rw [hother j hj, ← hmem j]
    exact or_iff_right hj

/-- A party gives its slot back. -/
theorem Taken.give (h : Taken holds n) (hi : holds i = true) (hi' : holds' i = false) (hother : ∀ j, j ≠ i → holds' j = holds j) :
    0 < n ∧ Taken holds' (n - 1) := by
  classical
  obtain ⟨parties, hmem, rfl⟩ := h
  have hin : i ∈ parties := (hmem i).mpr hi
  refine ⟨Finset.card_pos.mpr ⟨i, hin⟩, parties.erase i, fun j => ?_, Finset.card_erase_of_mem hin⟩
  rw [Finset.mem_erase]
  by_cases hj : j = i
  · rw [hj, hi']
    exact iff_of_false (fun h => h.1 rfl) Bool.false_ne_true
  · rw [hother j hj, ← hmem j]
    exact and_iff_right hj

/-- **One slot** is held by one party. -/
theorem Taken.alone (h : Taken holds n) (hn : n ≤ 1) (hi : holds i = true) (hj : holds j = true) : i = j := by
  obtain ⟨parties, hmem, hcard⟩ := h
  exact Finset.card_le_one.mp (hcard.trans_le hn) i ((hmem i).mpr hi) j ((hmem j).mpr hj)

/-- **Nobody holds** a slot, and none is taken. -/
theorem Taken.eq_zero (h : Taken holds n) : n = 0 ↔ ∀ i, holds i = false := by
  obtain ⟨parties, hmem, rfl⟩ := h
  rw [Finset.card_eq_zero, Finset.eq_empty_iff_forall_notMem]
  exact forall_congr' fun i => (not_congr (hmem i)).trans (iff_of_eq (Bool.not_eq_true _))

end Limiting
