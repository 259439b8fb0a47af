import Mathlib.Order.MinMax
import Mathlib.Data.List.Basic

/-!
# Binary search

- `bisectRight`: where a value is inserted into a sorted list, behind its equals.
- **`lt_bisectRight_iff`**: the entries in front of that place are those that are not larger.
-/

namespace Sorting

variable {α : Type*} [LinearOrder α]

/-- The search between two places; the fuel bounds its steps. -/
def bisectFrom (a : List α) (x : α) : Nat → Nat → Nat → Nat
  | 0, lo, _ => lo
  | fuel + 1, lo, hi =>
    if lo < hi then
      match a[(lo + hi) / 2]? with
      | some y => if x < y then bisectFrom a x fuel lo ((lo + hi) / 2) else bisectFrom a x fuel ((lo + hi) / 2 + 1) hi
      | none => lo
    else lo

/-- `bisect.bisect_right`. -/
def bisectRight (a : List α) (x : α) : Nat := bisectFrom a x a.length 0 a.length

variable {a : List α} {x y : α} {fuel lo hi i : Nat}

theorem bisectFrom_spec (h : a.Pairwise (· ≤ ·)) (hfuel : hi - lo ≤ fuel) (hle : lo ≤ hi) (hhi : hi ≤ a.length)
    (hlow : ∀ i y, a[i]? = some y → i < lo → y ≤ x) (hhigh : ∀ i y, a[i]? = some y → hi ≤ i → x < y) :
    ∀ i y, a[i]? = some y → (i < bisectFrom a x fuel lo hi ↔ y ≤ x) := by
  have hend : lo = hi → ∀ i y, a[i]? = some y → (i < lo ↔ y ≤ x) := by
    rintro rfl i y hy
    exact ⟨hlow i y hy, fun hyx => Nat.lt_of_not_le fun hi => absurd (hhigh i y hy hi) (not_lt.mpr hyx)⟩
  induction fuel generalizing lo hi with
  | zero => exact hend (by omega)
  | succ fuel ih =>
    rw [bisectFrom]
    by_cases hlt : lo < hi
    · rw [if_pos hlt]
      have hmid : (lo + hi) / 2 < a.length := by omega
      rw [List.getElem?_eq_getElem hmid]
      dsimp only
      have hsorted : ∀ (i j : Nat) (y z : α), a[i]? = some y → a[j]? = some z → i < j → y ≤ z := by
        intro i j y z hy hz hij
        obtain ⟨hi', rfl⟩ := List.getElem?_eq_some_iff.mp hy
        obtain ⟨hj', rfl⟩ := List.getElem?_eq_some_iff.mp hz
        exact List.pairwise_iff_getElem.mp h i j hi' hj' hij
      have hget := List.getElem?_eq_getElem hmid
      by_cases hx : x < a[(lo + hi) / 2]
      · rw [if_pos hx]
        refine ih (by omega) (by omega) (by omega) hlow (fun i y hy hi' => ?_) ?_
        · rcases Nat.eq_or_lt_of_le hi' with rfl | hlt'
          · obtain rfl := Option.some.inj (hget.symm.trans hy)
            exact hx
          · exact lt_of_lt_of_le hx (hsorted _ _ _ _ hget hy hlt')
        · rintro heq i y hy
          refine ⟨hlow i y hy, fun hyx => Nat.lt_of_not_le fun hi' => ?_⟩
          rcases Nat.eq_or_lt_of_le hi' with rfl | hlt'
          · rw [heq, hget] at hy
            obtain rfl := Option.some.inj hy
            exact absurd hx (not_lt.mpr hyx)
          · exact absurd (lt_of_lt_of_le hx (hsorted _ _ _ _ hget hy (by omega))) (not_lt.mpr hyx)
      · rw [if_neg hx]
        have hle' : a[(lo + hi) / 2] ≤ x := not_lt.mp hx
        have hlow' : ∀ i y, a[i]? = some y → i < (lo + hi) / 2 + 1 → y ≤ x := by
          intro i y hy hi'
          rcases Nat.eq_or_lt_of_le (Nat.le_of_lt_succ hi') with rfl | hlt'
          · obtain rfl := Option.some.inj (hget.symm.trans hy)
            exact hle'
          · exact le_trans (hsorted _ _ _ _ hy hget hlt') hle'
        refine ih (by omega) (by omega) hhi hlow' hhigh ?_
        rintro heq i y hy
        refine ⟨hlow' i y hy, fun hyx => Nat.lt_of_not_le fun hi' => ?_⟩
        exact absurd (hhigh i y hy (by omega)) (not_lt.mpr hyx)
    · rw [if_neg hlt]
      exact hend (by omega)

/-- **The place of `x`** in a sorted list. -/
theorem lt_bisectRight_iff (h : a.Pairwise (· ≤ ·)) (hy : a[i]? = some y) : i < bisectRight a x ↔ y ≤ x :=
  bisectFrom_spec h (by omega) (Nat.zero_le _) (Nat.le_refl _) (fun _ _ _ hi => absurd hi (Nat.not_lt_zero _))
    (fun i y hy hi => absurd (List.getElem?_eq_some_iff.mp hy).1 (Nat.not_lt.mpr hi)) i y hy

theorem bisectFrom_le (hle : lo ≤ hi) : bisectFrom a x fuel lo hi ≤ hi := by
  induction fuel generalizing lo hi with
  | zero => exact hle
  | succ fuel ih =>
    rw [bisectFrom]
    split_ifs
    · split
      · split_ifs
        · exact (ih (by omega)).trans (by omega)
        · exact ih (by omega)
      · exact hle
    · exact hle

theorem bisectRight_le : bisectRight a x ≤ a.length := bisectFrom_le (Nat.zero_le _)

/-- The same place is where a run of entries that are not larger ends. -/
theorem lt_length_takeWhile_iff (h : a.Pairwise (· ≤ ·)) (hy : a[i]? = some y) :
    i < (a.takeWhile (· ≤ x)).length ↔ y ≤ x := by
  induction a generalizing i with
  | nil => cases hy
  | cons z a ih =>
    obtain ⟨hz, ha⟩ := List.pairwise_cons.mp h
    by_cases hx : z ≤ x
    · rw [List.takeWhile_cons, if_pos (decide_eq_true hx), List.length_cons]
      cases i with
      | zero =>
        obtain rfl := Option.some.inj hy
        exact iff_of_true (Nat.succ_pos _) hx
      | succ i => exact Nat.succ_lt_succ_iff.trans (ih ha hy)
    · rw [List.takeWhile_cons, if_neg fun h => hx (of_decide_eq_true h)]
      refine iff_of_false (Nat.not_lt_zero _) fun hyx => hx ?_
      cases i with
      | zero => exact (Option.some.inj hy).symm ▸ hyx
      | succ i => exact (hz y (List.mem_of_getElem? hy)).trans hyx

end Sorting
