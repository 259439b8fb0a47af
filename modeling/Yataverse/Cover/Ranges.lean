import Yataverse.Sorting.Bisect

/-!
# Half-open ranges

- `mergeRanges`: sorted ranges, merged where they overlap or touch.
- **`mergeRanges_spec`**: what is left is apart and contains the same points.
- **`found_iff`**: the range with a point is found by binary search.
-/

namespace Cover

open Sorting

variable {α : Type*} [LinearOrder α]

/-- A range from its start to its end, which is not in it. -/
def Contains (r : α × α) (n : α) : Prop := r.1 ≤ n ∧ n < r.2

instance (r : α × α) (n : α) : Decidable (Contains r n) := by
  unfold Contains
  infer_instance

/-- The next range is merged into the last one where it overlaps or touches it. -/
def mergeRange (covered : List (α × α)) (r : α × α) : List (α × α) :=
  match covered.getLast? with
  | some last => if r.1 ≤ last.2 then covered.dropLast ++ [(last.1, max last.2 r.2)] else covered ++ [r]
  | none => [r]

/-- Ranges, in the order of their starts, merged. -/
def mergeRanges (ranges : List (α × α)) : List (α × α) := ranges.foldl mergeRange []

/-- Ranges that have points, with a gap between any two of them, in their order. -/
structure Apart (ranges : List (α × α)) : Prop where
  points : ∀ r ∈ ranges, r.1 < r.2
  gaps : ranges.Pairwise fun a b => a.2 < b.1

variable {ranges covered init : List (α × α)} {r last : α × α} {n : α}

theorem mergeRange_concat : mergeRange (init ++ [last]) r =
    if r.1 ≤ last.2 then init ++ [(last.1, max last.2 r.2)] else init ++ [last] ++ [r] := by
  rw [mergeRange, List.getLast?_concat]
  dsimp only
  rw [List.dropLast_concat]

/-- One range. -/
theorem mergeRange_spec (hcovered : Apart covered) (hr : r.1 < r.2) (hstart : ∀ c ∈ covered, c.1 ≤ r.1) :
    Apart (mergeRange covered r) ∧ (∀ c ∈ mergeRange covered r, c.1 ≤ r.1) ∧
      ∀ n, (∃ c ∈ mergeRange covered r, Contains c n) ↔ (∃ c ∈ covered, Contains c n) ∨ Contains r n := by
  rcases List.eq_nil_or_concat covered with rfl | ⟨init, last, rfl⟩
  · refine ⟨⟨?_, List.pairwise_singleton _ _⟩, ?_, fun n => ?_⟩
    · rintro c hc
      obtain rfl := List.mem_singleton.mp hc
      exact hr
    · rintro c hc
      obtain rfl := List.mem_singleton.mp hc
      exact le_refl _
    · simp [mergeRange]
  · rw [List.concat_eq_append] at hcovered hstart ⊢
    have hmem : last ∈ init ++ [last] := List.mem_append_right _ (List.mem_singleton_self last)
    have hlast := hcovered.points last hmem
    have hfirst := hstart last hmem
    obtain ⟨hinit, -, hgap⟩ := List.pairwise_append.mp hcovered.gaps
    have hgap : ∀ c ∈ init, c.2 < last.1 := fun c hc => hgap c hc last (List.mem_singleton_self last)
    have hpoints : ∀ c ∈ init, c.1 < c.2 := fun c hc => hcovered.points c (List.mem_append_left _ hc)
    rw [mergeRange_concat]
    by_cases htouch : r.1 ≤ last.2
    · rw [if_pos htouch]
      refine ⟨⟨?_, ?_⟩, ?_, fun n => ?_⟩
      · rintro c hc
        rcases List.mem_append.mp hc with hc | hc
        · exact hpoints c hc
        · obtain rfl := List.mem_singleton.mp hc
          exact lt_of_lt_of_le hlast (le_max_left _ _)
      · refine List.pairwise_append.mpr ⟨hinit, List.pairwise_singleton _ _, ?_⟩
        rintro c hc d hd
        obtain rfl := List.mem_singleton.mp hd
        exact hgap c hc
      · rintro c hc
        rcases List.mem_append.mp hc with hc | hc
        · exact hstart c (List.mem_append_left _ hc)
        · obtain rfl := List.mem_singleton.mp hc
          exact hfirst
      · have hboth : Contains (last.1, max last.2 r.2) n ↔ Contains last n ∨ Contains r n := by
          simp only [Contains, lt_max_iff]
          constructor
          · rintro ⟨hle, hlt | hlt⟩
            · exact .inl ⟨hle, hlt⟩
            · rcases lt_or_ge n last.2 with hlt' | hge
              · exact .inl ⟨hle, hlt'⟩
              · exact .inr ⟨le_trans htouch hge, hlt⟩
          · rintro (⟨hle, hlt⟩ | ⟨hle, hlt⟩)
            · exact ⟨hle, .inl hlt⟩
            · exact ⟨le_trans hfirst hle, .inr hlt⟩
        simp only [List.mem_append, List.mem_singleton, or_and_right, exists_or, exists_eq_left, hboth, or_assoc]
    · rw [if_neg htouch]
      have hapart : last.2 < r.1 := not_le.mp htouch
      refine ⟨⟨?_, ?_⟩, ?_, fun n => ?_⟩
      · rintro c hc
        rcases List.mem_append.mp hc with hc | hc
        · exact hcovered.points c hc
        · obtain rfl := List.mem_singleton.mp hc
          exact hr
      · refine List.pairwise_append.mpr ⟨hcovered.gaps, List.pairwise_singleton _ _, ?_⟩
        rintro c hc d hd
        obtain rfl := List.mem_singleton.mp hd
        rcases List.mem_append.mp hc with hc | hc
        · exact lt_trans (hgap c hc) (lt_trans hlast hapart)
        · obtain rfl := List.mem_singleton.mp hc
          exact hapart
      · rintro c hc
        rcases List.mem_append.mp hc with hc | hc
        · exact hstart c hc
        · obtain rfl := List.mem_singleton.mp hc
          exact le_refl _
      · simp only [List.mem_append, List.mem_singleton, or_and_right, exists_or, exists_eq_left]

theorem foldl_mergeRange_spec (hsorted : ranges.Pairwise fun a b => a.1 ≤ b.1) (hpoints : ∀ r ∈ ranges, r.1 < r.2)
    (hcovered : Apart covered) (hstart : ∀ c ∈ covered, ∀ r ∈ ranges, c.1 ≤ r.1) :
    Apart (ranges.foldl mergeRange covered) ∧
      ∀ n, (∃ c ∈ ranges.foldl mergeRange covered, Contains c n) ↔
        (∃ c ∈ covered, Contains c n) ∨ ∃ r ∈ ranges, Contains r n := by
  induction ranges generalizing covered with
  | nil => exact ⟨hcovered, fun n => by simp⟩
  | cons r ranges ih =>
    obtain ⟨hfirst, hsorted⟩ := List.pairwise_cons.mp hsorted
    obtain ⟨hone, hnext, hpoint⟩ := mergeRange_spec hcovered (hpoints r List.mem_cons_self)
      fun c hc => hstart c hc r List.mem_cons_self
    obtain ⟨hall, hunion⟩ := ih hsorted (fun s hs => hpoints s (List.mem_cons_of_mem _ hs)) hone
      fun c hc s hs => le_trans (hnext c hc) (hfirst s hs)
    refine ⟨hall, fun n => ?_⟩
    rw [List.foldl_cons, hunion, hpoint, or_assoc, List.exists_mem_cons_iff]

/-- **Merging**: the ranges that are left have gaps between them, and the same points. -/
theorem mergeRanges_spec (hsorted : ranges.Pairwise fun a b => a.1 ≤ b.1) (hpoints : ∀ r ∈ ranges, r.1 < r.2) :
    Apart (mergeRanges ranges) ∧ ∀ n, (∃ c ∈ mergeRanges ranges, Contains c n) ↔ ∃ r ∈ ranges, Contains r n := by
  obtain ⟨hapart, hunion⟩ := foldl_mergeRange_spec hsorted hpoints ⟨by simp, List.Pairwise.nil⟩ (by simp)
  refine ⟨hapart, fun n => ?_⟩
  rw [mergeRanges, hunion]
  simp

/-- **Binary search**: the last range that starts at the point or in front of it is the only one that may
have it. -/
theorem found_iff (h : Apart ranges) : (∃ r ∈ ranges, Contains r n) ↔
    ∃ r, 0 < bisectRight (ranges.map Prod.fst) n ∧ ranges[bisectRight (ranges.map Prod.fst) n - 1]? = some r ∧ n < r.2 := by
  have hsorted : (ranges.map Prod.fst).Pairwise (· ≤ ·) := by
    rw [List.pairwise_map]
    refine h.gaps.imp_of_mem fun {a b} ha _ hab => ?_
    exact le_of_lt (lt_trans (h.points a ha) hab)
  have hplace : ∀ {i c}, ranges[i]? = some c → (i < bisectRight (ranges.map Prod.fst) n ↔ c.1 ≤ n) := by
    intro i c hc
    refine lt_bisectRight_iff hsorted ?_
    rw [List.getElem?_map, hc]
    rfl
  constructor
  · rintro ⟨r, hr, hle, hlt⟩
    obtain ⟨i, hi⟩ := List.mem_iff_getElem?.mp hr
    have hin := (hplace hi).mpr hle
    refine ⟨r, Nat.lt_of_le_of_lt (Nat.zero_le i) hin, ?_, hlt⟩
    have hbound : bisectRight (ranges.map Prod.fst) n ≤ ranges.length := by
      have hle' := @bisectRight_le _ _ (ranges.map Prod.fst) n
      rwa [List.length_map] at hle'
    rcases Nat.eq_or_lt_of_le (Nat.le_sub_one_of_lt hin) with heq | hlt'
    · rw [← heq]
      exact hi
    · -- a later range that starts at the point or in front of it
      have hget := List.getElem?_eq_getElem (l := ranges) (i := bisectRight (ranges.map Prod.fst) n - 1) (by omega)
      have hlast := (hplace hget).mp (by omega)
      obtain ⟨hi', rfl⟩ := List.getElem?_eq_some_iff.mp hi
      have hgap := List.pairwise_iff_getElem.mp h.gaps i _ hi' (by omega) hlt'
      exact absurd (lt_of_lt_of_le (lt_trans hlt hgap) hlast) (lt_irrefl _)
  · rintro ⟨r, hpos, hr, hlt⟩
    exact ⟨r, List.mem_of_getElem? hr, (hplace hr).mp (by omega), hlt⟩

end Cover
