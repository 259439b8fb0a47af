import Mathlib.Algebra.Order.Ring.Defs

/-!
# Token buckets

A bucket gains tokens as time goes on, up to `burst`, and loses one for everything that is let through.

- `level`: the tokens of a bucket at a time.
- `level_later`: time adds no more than `gain` for each unit of it.
- `take`, `level_take`: the bucket behind a request.
-/

namespace TokenBucket

variable {K : Type*} [Ring K] [LinearOrder K] [IsOrderedRing K]

/-- The tokens there were, and when that was. -/
structure Bucket (K : Type*) where
  tokens : K
  since : K

variable {gain burst τ τ' : K} {b : Bucket K}

/-- The tokens of a bucket at a time. -/
def level (gain burst : K) (b : Bucket K) (τ : K) : K := min burst (b.tokens + gain * (τ - b.since))

omit [IsOrderedRing K] in
theorem level_le : level gain burst b τ ≤ burst := min_le_left _ _

theorem level_nonneg (hgain : 0 ≤ gain) (hburst : 0 ≤ burst) (htokens : 0 ≤ b.tokens) (hsince : b.since ≤ τ) :
    0 ≤ level gain burst b τ :=
  le_min hburst (add_nonneg htokens (mul_nonneg hgain (sub_nonneg.mpr hsince)))

/-- **Time** adds no more than it is worth. -/
theorem level_later (hgain : 0 ≤ gain) (h : τ ≤ τ') :
    level gain burst b τ' ≤ level gain burst b τ + gain * (τ' - τ) := by
  have hadd : 0 ≤ gain * (τ' - τ) := mul_nonneg hgain (sub_nonneg.mpr h)
  have hsplit : b.tokens + gain * (τ' - b.since) = b.tokens + gain * (τ - b.since) + gain * (τ' - τ) := by
    rw [add_assoc, ← mul_add]
    congr 2
    exact (sub_add_sub_cancel' _ _ _).symm
  rw [level, level, hsplit, ← min_add_add_right]
  exact min_le_min_right _ (le_add_of_nonneg_right hadd)

/-- The bucket behind a request at `τ`, which is let through where there is a token. -/
def take (gain burst : K) (b : Bucket K) (τ : K) : Bucket K :=
  ⟨if 1 ≤ level gain burst b τ then level gain burst b τ - 1 else level gain burst b τ, τ⟩

/-- **A request** takes a token where it is let through, and none otherwise. -/
theorem level_take : level gain burst (take gain burst b τ) τ =
    level gain burst b τ - if 1 ≤ level gain burst b τ then 1 else 0 := by
  have hle : level gain burst b τ ≤ burst := level_le
  rw [level, take, sub_self, mul_zero, add_zero]
  split_ifs
  · exact min_eq_right ((sub_le_self _ zero_le_one).trans hle)
  · rw [sub_zero]
    exact min_eq_right hle

theorem take_nonneg (h : 0 ≤ level gain burst b τ) : 0 ≤ (take gain burst b τ).tokens := by
  rw [take]
  split_ifs with h1
  · exact sub_nonneg.mpr h1
  · exact h

end TokenBucket
