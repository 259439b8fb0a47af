import Mathlib.Data.List.Basic
import Mathlib.Data.List.Nodup
import Mathlib.Data.Nat.ModEq

/-!
# A walk around rows of different lengths

A walk takes the rows in turn, one element of each in a round. In round `r` it visits row
`j` at place `r + j`, counted around the row, so it comes back to the elements of a short
row while it still meets new ones in a long row.

- `visit`: the element of a step.
- `exists_visit_ge`: every element is visited again and again.
- `fresh`: the steps that meet an element for the first time, which the lengths alone decide:
  those in a round below the length of their row (`exists_earlier_visit`, `fresh_injective`).
- `countP_freshSteps`: how many elements of a row have been met.
- **`freshSteps_level`**: the rows are used up level by level.
-/

namespace RoundRobin

variable {α : Type*}

/-- The element that step `i` visits. -/
def visit (rows : List (List α)) (i : Nat) : Option α :=
  rows[i % rows.length]?.bind fun row => row[(i / rows.length + i % rows.length) % row.length]?

/-- Step `i` meets an element for the first time. -/
def fresh (sizes : List Nat) (i : Nat) : Bool := i / sizes.length < sizes.getD (i % sizes.length) 0

/-- The steps before `N` that meet an element for the first time. -/
def freshSteps (sizes : List Nat) (N : Nat) : List Nat := (List.range N).filter (fresh sizes)

/-- How often the steps before `N` come to row `j` of `n`. -/
def turns (n j N : Nat) : Nat := N / n + if j < N % n then 1 else 0

/-! ## What is visited -/

section Visit

variable {rows : List (List α)} {row : List α} {i j : Nat} {a : α}

theorem visit_at (hj : rows[j]? = some row) (r : Nat) :
    visit rows (rows.length * r + j) = row[(r + j) % row.length]? := by
  obtain ⟨hlt, -⟩ := List.getElem?_eq_some_iff.mp hj
  rw [visit, Nat.mul_add_mod, Nat.mod_eq_of_lt hlt, hj, Nat.mul_add_div (by omega), Nat.div_eq_of_lt hlt]
  rfl

/-- The row of a step. -/
theorem exists_row (hne : rows ≠ []) (i : Nat) : ∃ row, rows[i % rows.length]? = some row ∧ row ∈ rows := by
  have hlt : i % rows.length < rows.length := Nat.mod_lt _ (List.length_pos_iff.mpr hne)
  exact ⟨_, List.getElem?_eq_getElem hlt, List.getElem_mem hlt⟩

theorem visit_eq (hj : rows[i % rows.length]? = some row) :
    visit rows i = row[(i / rows.length + i % rows.length) % row.length]? := by
  rw [visit, hj]
  rfl

/-- Every step visits an element, if no row is empty. -/
theorem exists_visit (hne : rows ≠ []) (hrows : ∀ row ∈ rows, row ≠ []) (i : Nat) :
    ∃ a row, rows[i % rows.length]? = some row ∧ visit rows i = some a ∧ a ∈ row := by
  obtain ⟨row, hj, hmem⟩ := exists_row hne i
  have hlt : (i / rows.length + i % rows.length) % row.length < row.length :=
    Nat.mod_lt _ (List.length_pos_iff.mpr (hrows row hmem))
  exact ⟨_, row, hj, (visit_eq hj).trans (List.getElem?_eq_getElem hlt), List.getElem_mem hlt⟩

/-- **Every element is visited** at or behind any step. -/
theorem exists_visit_ge (hrow : row ∈ rows) (ha : a ∈ row) (i : Nat) :
    ∃ i' ≥ i, visit rows i' = some a := by
  obtain ⟨j, hj⟩ := List.mem_iff_getElem?.mp hrow
  obtain ⟨p, hp⟩ := List.mem_iff_getElem?.mp ha
  obtain ⟨hjlt, -⟩ := List.getElem?_eq_some_iff.mp hj
  obtain ⟨hplt, -⟩ := List.getElem?_eq_some_iff.mp hp
  have hround : i + j ≤ row.length * (i + j) := Nat.le_mul_of_pos_left _ (by omega)
  -- a round behind `i` in which the place, counted around the row, is `p`
  obtain ⟨r, hr⟩ : ∃ r, r + j = row.length * (i + j) + p := ⟨row.length * (i + j) + p - j, by omega⟩
  refine ⟨rows.length * r + j, ?_, ?_⟩
  · calc i ≤ r := by omega
      _ ≤ rows.length * r := Nat.le_mul_of_pos_left _ (by omega)
      _ ≤ rows.length * r + j := Nat.le_add_right ..
  · rw [visit_at hj, hr, Nat.mul_add_mod, Nat.mod_eq_of_lt hplt, hp]

/-! ## What is met for the first time -/

theorem fresh_iff (hj : rows[i % rows.length]? = some row) :
    fresh (rows.map List.length) i = true ↔ i / rows.length < row.length := by
  simp [fresh, hj]

/-- A step that is not fresh repeats one that is. -/
theorem exists_earlier_visit (hj : rows[i % rows.length]? = some row) (hrow : row ≠ [])
    (hstale : fresh (rows.map List.length) i = false) :
    ∃ i' < i, fresh (rows.map List.length) i' = true ∧ visit rows i' = visit rows i := by
  obtain ⟨hjlt, -⟩ := List.getElem?_eq_some_iff.mp hj
  have hlen : 0 < row.length := List.length_pos_iff.mpr hrow
  have hlate : row.length ≤ i / rows.length := by
    by_contra hlt
    rw [(fresh_iff hj).mpr (Nat.lt_of_not_le hlt)] at hstale
    cases hstale
  -- the same place of the row, in one of its first rounds
  have hround : i / rows.length % row.length < row.length := Nat.mod_lt _ hlen
  have hrow' : (rows.length * (i / rows.length % row.length) + i % rows.length) % rows.length = i % rows.length := by
    rw [Nat.mul_add_mod, Nat.mod_mod]
  have hdiv : (rows.length * (i / rows.length % row.length) + i % rows.length) / rows.length =
      i / rows.length % row.length := by
    rw [Nat.mul_add_div (by omega), Nat.div_eq_of_lt hjlt, Nat.add_zero]
  refine ⟨rows.length * (i / rows.length % row.length) + i % rows.length, ?_, ?_, ?_⟩
  · calc rows.length * (i / rows.length % row.length) + i % rows.length
        < rows.length * (i / rows.length) + i % rows.length :=
          Nat.add_lt_add_right (Nat.mul_lt_mul_of_pos_left (by omega) (by omega)) _
      _ = i := Nat.div_add_mod i rows.length
  · refine (fresh_iff ((congrArg (rows[·]?) hrow').trans hj)).mpr ?_
    rwa [hdiv]
  · rw [visit_at hj, visit_eq hj, Nat.mod_add_mod]

/-- Two fresh steps meet two elements, if the rows have no element twice. -/
theorem fresh_injective (hn : rows.flatten.Nodup) {i' : Nat} {row' : List α}
    (hj : rows[i % rows.length]? = some row) (hj' : rows[i' % rows.length]? = some row')
    (hf : fresh (rows.map List.length) i = true) (hf' : fresh (rows.map List.length) i' = true)
    (ha : visit rows i = some a) (ha' : visit rows i' = some a) : i = i' := by
  obtain ⟨hnodup, hdisjoint⟩ := List.nodup_flatten.mp hn
  rw [visit_eq hj] at ha
  rw [visit_eq hj'] at ha'
  rw [fresh_iff hj] at hf
  rw [fresh_iff hj'] at hf'
  obtain ⟨hlt, hrow⟩ := List.getElem?_eq_some_iff.mp hj
  obtain ⟨hlt', hrow'⟩ := List.getElem?_eq_some_iff.mp hj'
  have hsame : i % rows.length = i' % rows.length := by
    by_contra hne
    have hdis : List.Disjoint rows[i % rows.length] rows[i' % rows.length] := by
      obtain h | h := Nat.lt_or_gt_of_ne hne
      · exact List.pairwise_iff_getElem.mp hdisjoint _ _ hlt hlt' h
      · exact fun a ha ha' => List.pairwise_iff_getElem.mp hdisjoint _ _ hlt' hlt h ha' ha
    rw [hrow, hrow'] at hdis
    exact hdis (List.mem_of_getElem? ha) (List.mem_of_getElem? ha')
  obtain rfl : row = row' := by
    rw [hsame, hj'] at hj
    exact (Option.some.inj hj).symm
  have hplace : (i / rows.length + i % rows.length) % row.length =
      (i' / rows.length + i % rows.length) % row.length := by
    rw [← hsame] at ha'
    obtain ⟨hp, hpa⟩ := List.getElem?_eq_some_iff.mp ha
    obtain ⟨hp', hpa'⟩ := List.getElem?_eq_some_iff.mp ha'
    exact (hnodup row (List.mem_of_getElem? hj)).getElem_inj_iff.mp (hpa.trans hpa'.symm)
  have hround : i / rows.length = i' / rows.length :=
    Nat.ModEq.eq_of_lt_of_lt (Nat.ModEq.add_right_cancel' _ hplace) hf hf'
  rw [← Nat.div_add_mod i rows.length, ← Nat.div_add_mod i' rows.length, hround, hsame]

end Visit

/-! ## How much of a row has been met -/

section Level

variable {sizes : List Nat} {n j j' N N' : Nat}

theorem freshSteps_succ : freshSteps sizes (N + 1) =
    freshSteps sizes N ++ if fresh sizes N then [N] else [] := by
  rw [freshSteps, List.range_succ, List.filter_append]
  cases h : fresh sizes N <;> simp [freshSteps, h]

theorem turns_zero : turns n j 0 = 0 := by simp [turns]

theorem turns_at {q t : Nat} (ht : t < n) : turns n j (n * q + t) = q + if j < t then 1 else 0 := by
  rw [turns, Nat.mul_add_div (by omega), Nat.div_eq_of_lt ht, Nat.mul_add_mod, Nat.mod_eq_of_lt ht, Nat.add_zero]

/-- One more step is one more turn of its row. -/
theorem turns_succ (hj : j < n) : turns n j (N + 1) = turns n j N + if N % n = j then 1 else 0 := by
  obtain ⟨q, t, ht, rfl⟩ : ∃ q t, t < n ∧ N = n * q + t :=
    ⟨N / n, N % n, Nat.mod_lt _ (by omega), (Nat.div_add_mod N n).symm⟩
  rw [turns_at ht, Nat.mul_add_mod, Nat.mod_eq_of_lt ht]
  obtain hlast | hlast := Nat.lt_or_eq_of_le (Nat.succ_le_of_lt ht)
  · rw [Nat.add_assoc, turns_at hlast]
    split <;> split <;> split <;> omega
  · rw [show n * q + t + 1 = n * (q + 1) + 0 by rw [Nat.mul_succ]; omega, turns_at (by omega)]
    split <;> split <;> split <;> omega

theorem turns_of_mod (hj : N % n = j) : turns n j N = N / n := by simp [turns, hj]

/-- **How much of row `j`** the steps before `N` have met: one element a turn, to its end. -/
theorem countP_freshSteps (hj : j < sizes.length) :
    (freshSteps sizes N).countP (· % sizes.length = j) = min (turns sizes.length j N) sizes[j] := by
  induction N with
  | zero => simp [freshSteps, turns_zero]
  | succ N ih =>
    rw [freshSteps_succ, List.countP_append, ih, turns_succ hj]
    by_cases hN : N % sizes.length = j
    · have hsize : sizes.getD (N % sizes.length) 0 = sizes[j] := by
        subst hN
        simp [hj]
      have hfresh : fresh sizes N = decide (turns sizes.length j N < sizes[j]) := by
        rw [fresh, hsize, turns_of_mod hN]
      rw [hfresh, if_pos hN]
      by_cases hlt : turns sizes.length j N < sizes[j] <;> simp [hlt, hN] <;> omega
    · rw [if_neg hN]
      cases fresh sizes N <;> simp [hN]

/-- **Level by level**: while a row still has new elements, no other row is more than one
ahead of it. -/
theorem freshSteps_level (hj : j < sizes.length) (hj' : j' < sizes.length)
    (hleft : (freshSteps sizes N).countP (· % sizes.length = j) < sizes[j]) :
    (freshSteps sizes N).countP (· % sizes.length = j') ≤
      (freshSteps sizes N).countP (· % sizes.length = j) + 1 := by
  rw [countP_freshSteps hj] at hleft ⊢
  rw [countP_freshSteps hj']
  have hturns : turns sizes.length j' N ≤ turns sizes.length j N + 1 := by
    unfold turns
    split <;> split <;> omega
  omega

/-- The rows that have been met are the first ones, one a step. -/
theorem countP_freshSteps_pos (hj : j < sizes.length) (hpos : 0 < sizes[j]) :
    0 < (freshSteps sizes N).countP (· % sizes.length = j) ↔ j < N := by
  rw [countP_freshSteps hj]
  have hturns : 0 < turns sizes.length j N ↔ j < N := by
    unfold turns
    obtain hlt | hge := Nat.lt_or_ge N sizes.length
    · rw [Nat.div_eq_of_lt hlt, Nat.mod_eq_of_lt hlt]
      split <;> omega
    · have : 0 < N / sizes.length := Nat.div_pos hge (by omega)
      omega
  omega

/-- The first round is fresh. -/
theorem freshSteps_first_round (hsizes : ∀ n ∈ sizes, 0 < n) (hN : N ≤ sizes.length) :
    freshSteps sizes N = List.range N := by
  refine List.filter_eq_self.mpr fun i hi => ?_
  have hlt : i < sizes.length := Nat.lt_of_lt_of_le (List.mem_range.mp hi) hN
  simp [fresh, Nat.div_eq_of_lt hlt, Nat.mod_eq_of_lt hlt, hlt, hsizes]

theorem freshSteps_mono (h : N ≤ N') : freshSteps sizes N <+: freshSteps sizes N' := by
  obtain ⟨k, rfl⟩ := Nat.exists_eq_add_of_le h
  rw [freshSteps, freshSteps, List.range_add, List.filter_append]
  exact List.prefix_append ..

/-- As many fresh steps are the same fresh steps. -/
theorem freshSteps_eq_of_length (h : (freshSteps sizes N).length = (freshSteps sizes N').length) :
    freshSteps sizes N = freshSteps sizes N' := by
  obtain hle | hle := Nat.le_total N N'
  · exact (freshSteps_mono hle).eq_of_length h
  · exact ((freshSteps_mono hle).eq_of_length h.symm).symm

end Level

end RoundRobin
