import Yataverse.Js.Json

/-!
# Integers beyond `2 ^ 53`

`JSON.parse` rounds them to the nearest double, which is an integer again, or an infinity.

- `ofInt_large`: what a large integer is read as.
-/

namespace Js.Number

theorem floor_le_roundEven (q : ℚ) : ⌊q⌋ ≤ roundEven q := by
  unfold roundEven
  dsimp only
  split_ifs <;> omega

/-- A large integer is rounded to an integer, which is as large. -/
theorem nearest_large {n : Int} (h : 2 ^ 53 < n) : ∃ m : Int, nearest n = m ∧ 2 ^ 53 ≤ m := by
  have hn : (2 : ℚ) ^ 53 < n := by exact_mod_cast h
  have hpos : (0 : ℚ) < n := lt_trans (by positivity) hn
  have hlog : (53 : ℤ) ≤ Int.log 2 (n : ℚ) := by
    rw [← Int.zpow_le_iff_le_log (by decide) hpos]
    exact_mod_cast hn.le
  obtain ⟨k, hk⟩ : ∃ k : ℕ, Int.log 2 (n : ℚ) - 52 = k := ⟨(Int.log 2 (n : ℚ) - 52).toNat, by omega⟩
  have hmax : max (Int.log 2 |(n : ℚ)| - 52) (-1074) = k := by
    rw [abs_of_pos hpos, hk]
    exact max_eq_left (by omega)
  have hstep : (0 : ℚ) < 2 ^ k := by positivity
  have hquot : (2 ^ 52 : ℤ) ≤ roundEven ((n : ℚ) / 2 ^ k) := by
    refine le_trans (Int.le_floor.mpr ?_) (floor_le_roundEven _)
    rw [le_div_iff₀ hstep]
    have hself := Int.zpow_log_le_self (b := 2) (by decide) hpos
    have hsplit : Int.log 2 (n : ℚ) = (52 + k : ℕ) := by push_cast; omega
    rw [hsplit, zpow_natCast, pow_add] at hself
    exact_mod_cast hself
  refine ⟨roundEven ((n : ℚ) / 2 ^ k) * 2 ^ k, ?_, ?_⟩
  · rw [nearest, hmax, zpow_natCast]
    push_cast
    rfl
  · have hk1 : 1 ≤ k := by omega
    calc (2 : ℤ) ^ 53 = 2 ^ 52 * 2 ^ 1 := by norm_num
      _ ≤ roundEven ((n : ℚ) / 2 ^ k) * 2 ^ k :=
        mul_le_mul hquot (pow_le_pow_right₀ (by decide) hk1) (by positivity) (le_trans (by positivity) hquot)

theorem ofInt_large {n : Int} (h : 2 ^ 53 < n) :
    (∃ m : Int, ofInt n = int m ∧ 2 ^ 53 ≤ m) ∨ ofInt n = inf false := by
  obtain ⟨m, hm, hle⟩ := nearest_large h
  have hsmall : ¬ ((n : ℚ).den = 1 ∧ (n : ℚ).num.natAbs ≤ 2 ^ 53) := by
    rintro ⟨-, hle⟩
    rw [Rat.num_intCast] at hle
    omega
  have hpos : ¬ ((m : ℚ) < 0) := by
    rw [not_lt]
    exact_mod_cast le_trans (by norm_num) hle
  rw [ofInt, ofRat, if_neg hsmall]
  dsimp only
  rw [hm, Rat.den_intCast, Rat.num_intCast, if_pos rfl, decide_eq_false hpos]
  split_ifs
  · exact .inr rfl
  · exact .inl ⟨m, rfl, hle⟩
end Js.Number
