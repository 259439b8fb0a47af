import Mathlib.Data.List.Sort

/-!
# What a stable sort depends on

A stable sort forgets the order of its input, up to the order of elements that compare equal.

- **`mergeSort_eq_iff`**: two orders of the same elements are sorted into one list exactly
  when they agree on the elements that compare equal.
-/

namespace Sorting

variable {α : Type*} {le : α → α → Bool} {l l' : List α} {a b : α}

/-- `a` stands before `b`. -/
def Before (l : List α) (a b : α) : Prop := List.Sublist [a, b] l

theorem Before.mem_left (h : Before l a b) : a ∈ l := h.subset (List.mem_cons_self ..)

theorem Before.mem_right (h : Before l a b) : b ∈ l := h.subset (.tail _ (List.mem_cons_self ..))

theorem before_cons {c : α} : Before (c :: l) a b ↔ Before l a b ∨ a = c ∧ b ∈ l := by
  rw [Before, List.cons_sublist_cons']
  simp [Before]

/-- Two places cannot be each before the other. -/
theorem Before.asymm (hn : l.Nodup) (h : Before l a b) : ¬ Before l b a := by
  induction l with
  | nil => cases h
  | cons c l ih =>
    obtain ⟨hc, hn⟩ := List.nodup_cons.mp hn
    rw [before_cons] at h ⊢
    rintro (h' | ⟨rfl, h'⟩)
    · obtain h | ⟨rfl, h⟩ := h
      · exact ih hn h h'
      · exact hc h'.mem_right
    · obtain h | ⟨rfl, h⟩ := h
      · exact hc h.mem_right
      · exact hc h

theorem before_or_before (ha : a ∈ l) (hb : b ∈ l) (hab : a ≠ b) : Before l a b ∨ Before l b a := by
  induction l with
  | nil => cases ha
  | cons c l ih =>
    simp only [before_cons]
    obtain rfl | ha' := List.mem_cons.mp ha
    · obtain rfl | hb' := List.mem_cons.mp hb
      · exact absurd rfl hab
      · exact .inl (.inr ⟨rfl, hb'⟩)
    · obtain rfl | hb' := List.mem_cons.mp hb
      · exact .inr (.inr ⟨rfl, ha'⟩)
      · obtain h | h := ih ha' hb'
        · exact .inl (.inl h)
        · exact .inr (.inl h)

theorem Before.ne (hn : l.Nodup) (h : Before l a b) : a ≠ b := by
  rintro rfl
  exact h.asymm hn h

theorem before_iff_not (hn : l.Nodup) (ha : a ∈ l) (hb : b ∈ l) (hab : a ≠ b) : Before l a b ↔ ¬ Before l b a :=
  ⟨fun h => h.asymm hn, fun h => (before_or_before ha hb hab).resolve_right h⟩

theorem pairwise_before (l : List α) : l.Pairwise (Before l) := by
  induction l with
  | nil => exact .nil
  | cons c l ih =>
    refine .cons (fun b hb => before_cons.mpr (.inr ⟨rfl, hb⟩)) (ih.imp fun h => before_cons.mpr (.inl h))

section Sorted

variable (trans : ∀ a b c, le a b = true → le b c = true → le a c = true)
  (total : ∀ a b, (le a b || le b a) = true)

include trans total

/-- A stable sort keeps the order of the elements that compare equal. -/
theorem before_of_mergeSort (hn : l.Nodup) (hba : le b a = true) (h : Before (l.mergeSort le) a b) :
    Before l a b := by
  have hn' : (l.mergeSort le).Nodup := (List.mergeSort_perm l le).nodup_iff.mpr hn
  obtain h' | h' := before_or_before (List.mem_mergeSort.mp h.mem_left) (List.mem_mergeSort.mp h.mem_right) (h.ne hn')
  · exact h'
  · exact absurd (List.pair_sublist_mergeSort trans total hba h') (h.asymm hn')

/-- **Two orders** of the same elements are sorted alike exactly when they agree on the
elements that compare equal. -/
theorem mergeSort_eq_iff (h : l.Perm l') (hn : l.Nodup) :
    l.mergeSort le = l'.mergeSort le ↔
      ∀ a b, le a b = true → le b a = true → (Before l a b ↔ Before l' a b) := by
  have hn' : l'.Nodup := h.nodup_iff.mp hn
  constructor
  · intro heq a b hab hba
    constructor
    · intro hl
      have hs : Before (l'.mergeSort le) a b := heq ▸ List.pair_sublist_mergeSort trans total hab hl
      exact before_of_mergeSort trans total hn' hba hs
    · intro hl
      have hs : Before (l.mergeSort le) a b := heq ▸ List.pair_sublist_mergeSort trans total hab hl
      exact before_of_mergeSort trans total hn hba hs
  · intro htied
    -- both are sorted by `le` and, among the tied, by the place in `l`
    have hsorted : ∀ {k : List α}, k.Nodup → (∀ a b, le a b = true → le b a = true → (Before l a b ↔ Before k a b)) →
        (k.mergeSort le).Pairwise fun a b => le a b = true ∧ (le b a = true → Before l a b) := by
      intro k hk htied
      refine ((List.pairwise_mergeSort trans total k).and (pairwise_before (k.mergeSort le))).imp ?_
      rintro a b ⟨hab, hbefore⟩
      exact ⟨hab, fun hba => (htied a b hab hba).mpr (before_of_mergeSort trans total hk hba hbefore)⟩
    have hperm : (l.mergeSort le).Perm (l'.mergeSort le) :=
      (List.mergeSort_perm l le).trans (h.trans (List.mergeSort_perm l' le).symm)
    refine hperm.eq_of_pairwise ?_ (hsorted hn fun _ _ _ _ => Iff.rfl) (hsorted hn' htied)
    rintro a b - - ⟨hab, ha⟩ ⟨hba, hb⟩
    exact absurd (hb hab) ((ha hba).asymm hn)

end Sorted

end Sorting
