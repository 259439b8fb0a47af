import Mathlib.Data.List.Chain

/-!
# Pieces between separators

- `pieces`: what stands between separators, where there is something.
- `pieces_append`, `length_pieces_append`: two lists one behind the other.
- **`pieces_flatten`, `unbroken_of_length`**: no piece is lost in a row of lists, exactly where a separator stands
  between any two of them.
-/

namespace Splitting

variable {α : Type*} [DecidableEq α] {a x : α} {xs ys : List α} {xss : List (List α)}

variable (a) in
/-- What stands between separators, without empty pieces. -/
def pieces (xs : List α) : List (List α) := (xs.splitOn a).filter (· ≠ [])

@[simp] theorem pieces_nil : pieces a [] = [] := by simp [pieces]

theorem pieces_append_cons : pieces a (xs ++ a :: ys) = pieces a xs ++ pieces a ys := by
  rw [pieces, List.splitOn_append_cons_self, List.filter_append, pieces, pieces]

/-- A separator at the end of the first list, or at the start of the second one. -/
theorem pieces_append (h : xs.getLast? = some a ∨ ys.head? = some a) : pieces a (xs ++ ys) = pieces a xs ++ pieces a ys := by
  rcases h with h | h
  · obtain ⟨init, rfl⟩ := List.getLast?_eq_some_iff.mp h
    rw [List.append_assoc, List.singleton_append, pieces_append_cons, pieces_append_cons, pieces_nil, List.append_nil]
  · obtain ⟨rest, rfl⟩ := List.head?_eq_some_iff.mp h
    have hcons : pieces a (a :: rest) = pieces a rest := by
      have := @pieces_append_cons _ _ a [] rest
      rwa [pieces_nil, List.nil_append, List.nil_append] at this
    rw [pieces_append_cons, hcons]

/-- One more item in front: a separator, the last item of a piece, or another item of it. -/
theorem length_pieces_cons : (pieces a (x :: xs)).length =
    (pieces a xs).length + if x ≠ a ∧ ∀ y ∈ xs.head?, y = a then 1 else 0 := by
  rw [pieces, pieces, List.splitOn_cons_eq_if_modifyHead]
  by_cases hx : x = a
  · rw [if_pos (beq_iff_eq.mpr hx), if_neg fun h => h.1 hx]
    simp
  · rw [if_neg fun h => hx (beq_iff_eq.mp h)]
    cases xs with
    | nil => simp [hx]
    | cons y ys =>
      rw [List.splitOn_cons_eq_if_modifyHead]
      by_cases hy : y = a
      · simp [hx, hy]
      · obtain ⟨l, ls, hls⟩ := List.exists_cons_of_ne_nil (List.splitOn_ne_nil a ys)
        simp [hy, hls]

/-- Without a separator, the last piece and the first one are one. -/
theorem length_pieces_append (hxs : xs ≠ []) (hys : ys ≠ []) (hlast : xs.getLast? ≠ some a) (hhead : ys.head? ≠ some a) :
    (pieces a (xs ++ ys)).length + 1 = (pieces a xs).length + (pieces a ys).length := by
  induction xs with
  | nil => exact absurd rfl hxs
  | cons x xs ih =>
    rw [List.cons_append, length_pieces_cons, length_pieces_cons]
    cases xs with
    | nil =>
      have hx : x ≠ a := fun h => hlast (congrArg some h)
      obtain ⟨y, ys, rfl⟩ := List.exists_cons_of_ne_nil hys
      have hy : y ≠ a := fun h => hhead (congrArg some h)
      simp [hx, hy]
      omega
    | cons x' xs =>
      have h := ih (List.cons_ne_nil _ _) (by rwa [List.getLast?_cons_cons] at hlast)
      rw [List.cons_append, List.head?_cons, List.head?_cons]
      rw [List.cons_append] at h
      omega

/-! ## Many lists -/

variable (a) in
/-- Between any two lists, the empty ones left out, there is a separator. -/
def Unbroken (xss : List (List α)) : Prop :=
  (xss.filter (· ≠ [])).IsChain fun xs ys => xs.getLast? = some a ∨ ys.head? = some a

theorem unbroken_nil_cons : Unbroken a ([] :: xss) ↔ Unbroken a xss := by
  rw [Unbroken, List.filter_cons_of_neg (by simp)]
  rfl

/-- The first list that is not empty stands at the start of all of them. -/
theorem flatten_head {zs : List α} {zss : List (List α)} (h : xss.filter (· ≠ []) = zs :: zss) :
    xss.flatten ≠ [] ∧ xss.flatten.head? = zs.head? := by
  have hflat : xss.flatten = (xss.filter (· ≠ [])).flatten := by
    clear h
    induction xss with
    | nil => rfl
    | cons xs xss ih =>
      by_cases hxs : xs = []
      · rw [List.filter_cons_of_neg (by simp [hxs]), List.flatten_cons, ih, hxs, List.nil_append]
      · rw [List.filter_cons_of_pos (by simp [hxs]), List.flatten_cons, List.flatten_cons, ih]
  have hzs : zs ≠ [] := by
    have hmem : zs ∈ xss.filter (· ≠ []) := h ▸ List.mem_cons_self
    exact of_decide_eq_true (List.mem_filter.mp hmem).2
  obtain ⟨z, zs, rfl⟩ := List.exists_cons_of_ne_nil hzs
  rw [hflat, h]
  exact ⟨by simp, by simp⟩

theorem unbroken_cons {zs : List α} {zss : List (List α)} (hxs : xs ≠ []) (h : xss.filter (· ≠ []) = zs :: zss) :
    Unbroken a (xs :: xss) ↔ (xs.getLast? = some a ∨ xss.flatten.head? = some a) ∧ Unbroken a xss := by
  rw [Unbroken, Unbroken, List.filter_cons_of_pos (by simp [hxs]), h, List.isChain_cons_cons, (flatten_head h).2]

theorem flatten_of_filter_nil (h : xss.filter (· ≠ []) = []) : xss.flatten = [] := by
  rw [List.filter_eq_nil_iff] at h
  rw [List.flatten_eq_nil_iff]
  simpa using h

theorem length_pieces_flatten_le : (pieces a xss.flatten).length ≤ (xss.flatMap (pieces a)).length := by
  induction xss with
  | nil => simp
  | cons xs xss ih =>
    rw [List.flatten_cons, List.flatMap_cons, List.length_append]
    by_cases hsep : xs.getLast? = some a ∨ xss.flatten.head? = some a
    · rw [pieces_append hsep, List.length_append]
      exact Nat.add_le_add_left ih _
    · by_cases hxs : xs = []
      · rw [hxs, List.nil_append]
        exact ih.trans (Nat.le_add_left _ _)
      · by_cases hxss : xss.flatten = []
        · rw [hxss, List.append_nil]
          exact Nat.le_add_right _ _
        · have h := length_pieces_append hxs hxss (fun h => hsep (.inl h)) fun h => hsep (.inr h)
          omega

/-- **No piece is lost**, and none is changed. -/
theorem pieces_flatten (h : Unbroken a xss) : pieces a xss.flatten = xss.flatMap (pieces a) := by
  induction xss with
  | nil => simp
  | cons xs xss ih =>
    rw [List.flatten_cons, List.flatMap_cons]
    by_cases hxs : xs = []
    · rw [hxs] at h ⊢
      rw [List.nil_append, ih (unbroken_nil_cons.mp h), pieces_nil, List.nil_append]
    · cases hfilter : xss.filter (· ≠ []) with
      | nil =>
        have hflat := flatten_of_filter_nil hfilter
        have hrest : xss.flatMap (pieces a) = [] := by
          rw [List.flatMap_eq_nil_iff]
          rintro ys hys
          rw [List.flatten_eq_nil_iff.mp hflat ys hys, pieces_nil]
        rw [hflat, hrest, List.append_nil, List.append_nil]
      | cons zs zss =>
        obtain ⟨hsep, hrest⟩ := (unbroken_cons hxs hfilter).mp h
        rw [pieces_append hsep, ih hrest]

/-- **Where no piece is lost**, there are separators. -/
theorem unbroken_of_length (h : (pieces a xss.flatten).length = (xss.flatMap (pieces a)).length) : Unbroken a xss := by
  induction xss with
  | nil => exact List.IsChain.nil
  | cons xs xss ih =>
    rw [List.flatten_cons, List.flatMap_cons, List.length_append] at h
    by_cases hxs : xs = []
    · rw [hxs] at h ⊢
      rw [List.nil_append, pieces_nil, List.length_nil, Nat.zero_add] at h
      exact unbroken_nil_cons.mpr (ih h)
    · cases hfilter : xss.filter (· ≠ []) with
      | nil =>
        rw [Unbroken, List.filter_cons_of_pos (by simp [hxs]), hfilter]
        exact List.isChain_singleton _
      | cons zs zss =>
        rw [unbroken_cons hxs hfilter]
        have hle := @length_pieces_flatten_le _ _ a xss
        by_cases hsep : xs.getLast? = some a ∨ xss.flatten.head? = some a
        · rw [pieces_append hsep, List.length_append] at h
          exact ⟨hsep, ih (Nat.add_left_cancel h)⟩
        · have hlost := length_pieces_append hxs (flatten_head hfilter).1 (fun h => hsep (.inl h)) fun h => hsep (.inr h)
          omega

end Splitting
