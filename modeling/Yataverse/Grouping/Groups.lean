import Mathlib.Data.List.Dedup

/-!
# Groups and the largest of them

A map from keys to groups is listed in an order of its own, which may be a different one for every set of keys.

- `Listing`: such an order.
- `groupBy`, `frequencies`: the groups and their sizes.
- `last_sorted`, `first_sorted`: a sorted list has a largest entry at its end.
- **`majority_unique`**: two groups do not both have more than half of the items.
-/

namespace Grouping

variable {α κ : Type} [DecidableEq κ] {key : α → κ} {xs : List α} {x : α} {k k' : κ} {n : Nat}

/-- How a map lists its keys. -/
structure Listing (κ : Type) where
  listed : List κ → List κ
  perm : ∀ ks, (listed ks).Perm ks

/-- The keys in the order in which they come. -/
def Listing.plain : Listing κ := ⟨id, fun _ => List.Perm.refl _⟩

variable (keys : Listing κ)

/-- `group-by`. -/
def groupBy (key : α → κ) (xs : List α) : List (κ × List α) :=
  (keys.listed (xs.map key).dedup).map fun k => (k, xs.filter fun x => key x = k)

/-- How often the key is among the keys. -/
def occurrences (ks : List κ) (k : κ) : Nat := ks.count k

/-- `frequencies`. -/
def frequencies (ks : List κ) : List (κ × Nat) := (keys.listed ks.dedup).map fun k => (k, occurrences ks k)

variable {keys}

theorem mem_listed {ks : List κ} : k ∈ keys.listed ks.dedup ↔ k ∈ ks := by
  rw [(keys.perm _).mem_iff, List.mem_dedup]

theorem mem_groupBy {group : κ × List α} :
    group ∈ groupBy keys key xs ↔ group.1 ∈ xs.map key ∧ group.2 = xs.filter fun x => key x = group.1 := by
  rw [groupBy, List.mem_map]
  constructor
  · rintro ⟨k, hk, rfl⟩
    exact ⟨mem_listed.mp hk, rfl⟩
  · rintro ⟨hk, hgroup⟩
    exact ⟨group.1, mem_listed.mpr hk, Prod.ext rfl hgroup.symm⟩

theorem mem_frequencies {ks : List κ} {entry : κ × Nat} :
    entry ∈ frequencies keys ks ↔ entry.1 ∈ ks ∧ entry.2 = occurrences ks entry.1 := by
  rw [frequencies, List.mem_map]
  constructor
  · rintro ⟨k, hk, rfl⟩
    exact ⟨mem_listed.mp hk, rfl⟩
  · rintro ⟨hk, hentry⟩
    exact ⟨entry.1, mem_listed.mpr hk, Prod.ext rfl hentry.symm⟩

theorem group_length : (xs.filter fun x => key x = k).length = occurrences (xs.map key) k := by
  rw [occurrences, List.count_eq_countP, List.countP_map, List.countP_eq_length_filter]
  refine congrArg List.length (List.filter_congr fun x _ => ?_)
  rw [Function.comp_apply, Bool.eq_iff_iff, decide_eq_true_iff, beq_iff_eq]

theorem mem_of_occurrences {ks : List κ} (h : 0 < occurrences ks k) : k ∈ ks := List.count_pos_iff.mp h

theorem occurrences_perm {ks ks' : List κ} (h : ks.Perm ks') : occurrences ks k = occurrences ks' k := h.count_eq k

theorem groupBy_length : (groupBy keys key xs).length = (xs.map key).dedup.length := by
  rw [groupBy, List.length_map, (keys.perm _).length_eq]

/-! ## The largest entry -/

/-- Sorting by a number, in either direction. -/
theorem sorted_by {r : Nat → Nat → Prop} [DecidableRel r] [Std.Total r] [IsTrans Nat r] (f : α → Nat) (xs : List α) :
    (xs.mergeSort fun a b => r (f a) (f b)).Pairwise fun a b => r (f a) (f b) := by
  refine (List.pairwise_mergeSort (fun a b c hab hbc => ?_) (fun a b => ?_) xs).imp of_decide_eq_true
  · exact decide_eq_true (IsTrans.trans _ _ _ (of_decide_eq_true hab) (of_decide_eq_true hbc))
  · rw [Bool.or_eq_true, decide_eq_true_iff, decide_eq_true_iff]
    exact Std.Total.total _ _

/-- The last entry of a sorted list. -/
theorem last_sorted {f : α → Nat} (h : (xs.mergeSort fun a b => f a ≤ f b).getLast? = some x) :
    x ∈ xs ∧ ∀ y ∈ xs, f y ≤ f x := by
  have hsorted := sorted_by (r := (· ≤ ·)) f xs
  obtain ⟨init, hinit⟩ := List.getLast?_eq_some_iff.mp h
  have hmem : ∀ y, y ∈ xs ↔ y ∈ init ++ [x] := fun y => by rw [← hinit, List.mem_mergeSort]
  rw [hinit, List.pairwise_append] at hsorted
  refine ⟨(hmem x).mpr (List.mem_append_right _ (List.mem_singleton_self x)), fun y hy => ?_⟩
  rcases List.mem_append.mp ((hmem y).mp hy) with hy | hy
  · exact hsorted.2.2 y hy x (List.mem_singleton_self x)
  · obtain rfl := List.mem_singleton.mp hy
    exact Nat.le_refl _

/-- The first entry of a list that is sorted the other way. -/
theorem first_sorted {f : α → Nat} (h : (xs.mergeSort fun a b => f b ≤ f a).head? = some x) :
    x ∈ xs ∧ ∀ y ∈ xs, f y ≤ f x := by
  have hsorted := sorted_by (r := (· ≥ ·)) f xs
  obtain ⟨rest, hrest⟩ := List.head?_eq_some_iff.mp h
  have hmem : ∀ y, y ∈ xs ↔ y ∈ x :: rest := fun y => by rw [← hrest, List.mem_mergeSort]
  rw [hrest, List.pairwise_cons] at hsorted
  refine ⟨(hmem x).mpr List.mem_cons_self, fun y hy => ?_⟩
  rcases List.mem_cons.mp ((hmem y).mp hy) with rfl | hy
  · exact Nat.le_refl _
  · exact hsorted.1 y hy

/-! ## Majorities -/

/-- Two different keys do not both have `n` of fewer than `2 * n` items. -/
theorem majority_unique {ks : List κ} (hn : ks.length < 2 * n) (hk : n ≤ occurrences ks k) (hk' : n ≤ occurrences ks k') :
    k = k' := by
  by_contra hne
  unfold occurrences at hk hk'
  have hsum : ks.count k + ks.count k' ≤ ks.length := by
    clear hn hk hk'
    induction ks with
    | nil => exact Nat.le_refl _
    | cons c ks ih =>
      rw [List.count_cons, List.count_cons, List.length_cons]
      by_cases hc : c = k
      · have hc' : ¬ (c == k') = true := fun h => hne (hc.symm.trans (beq_iff_eq.mp h))
        rw [if_pos (beq_iff_eq.mpr hc), if_neg hc']
        omega
      · rw [if_neg fun h => hc (beq_iff_eq.mp h)]
        split_ifs <;> omega
  omega

end Grouping
