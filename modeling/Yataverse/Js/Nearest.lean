import Yataverse.Js.Json
import Mathlib.Data.Rat.Lemmas
import Mathlib.Tactic.Linarith
import Mathlib.Tactic.FieldSimp
import Mathlib.Tactic.NormNum.Inv

/-!
# Rounding to doubles

- `IsDouble`: the rationals that are doubles, but for their size.
- `nearest_isDouble`, `IsDouble.nearest_eq`: rounding gives doubles, and leaves them as they are.
- `ofRat_eq_pack`, `ofRat_neg`: a number is its rounded value, with its sign.
- **`nearest_of_close`**: what is closer to a double than `2 ^ -54` of it rounds to it.
-/

namespace Js.Number

variable {q x : ℚ}

/-! ## Rounding to integers -/

theorem roundEven_of_lt {n : ℤ} (h : |q - n| < 1 / 2) : roundEven q = n := by
  obtain ⟨hlo, hhi⟩ := abs_lt.mp h
  have hfloor : ⌊q⌋ = n ∨ ⌊q⌋ = n - 1 := by
    have h1 : n - 1 ≤ ⌊q⌋ := Int.le_floor.mpr (by push_cast; linarith)
    have h2 : ⌊q⌋ < n + 1 := Int.floor_lt.mpr (by push_cast; linarith)
    omega
  unfold roundEven
  dsimp only
  rcases hfloor with heq | heq <;> rw [heq]
  · rw [if_pos (by linarith)]
  · push_cast
    rw [if_neg (by linarith), if_pos (by linarith), Int.sub_add_cancel]

theorem roundEven_intCast (n : ℤ) : roundEven n = n := roundEven_of_lt (by norm_num)

theorem roundEven_neg (q : ℚ) : roundEven (-q) = -roundEven q := by
  rcases lt_trichotomy (q - ⌊q⌋) (1 / 2) with hlt | heq | hgt
  · have hround : |q - ⌊q⌋| < 1 / 2 := by
      rw [abs_of_nonneg (by linarith [Int.floor_le q])]
      exact hlt
    have hneg : |-q - ((-⌊q⌋ : ℤ) : ℚ)| < 1 / 2 := by
      push_cast
      rw [← abs_neg]
      ring_nf at hround ⊢
      exact hround
    rw [roundEven_of_lt hround, roundEven_of_lt hneg]
  · -- halfway: the two integers around `q` have one even among them
    have hq : q = ⌊q⌋ + 1 / 2 := by linarith
    have hfloor : ⌊-q⌋ = -⌊q⌋ - 1 := by
      rw [Int.floor_eq_iff]
      push_cast
      constructor <;> linarith
    have hhalf : -q - ((-⌊q⌋ - 1 : ℤ) : ℚ) = 1 / 2 := by
      push_cast
      linarith
    unfold roundEven
    dsimp only
    rw [hfloor, hhalf, heq, if_neg (lt_irrefl _), if_neg (lt_irrefl _), if_neg (lt_irrefl _), if_neg (lt_irrefl _)]
    split_ifs <;> omega
  · have hround : |q - ((⌊q⌋ + 1 : ℤ) : ℚ)| < 1 / 2 := by
      push_cast
      rw [abs_lt]
      constructor <;> linarith [Int.lt_floor_add_one q]
    have hneg : |-q - ((-(⌊q⌋ + 1) : ℤ) : ℚ)| < 1 / 2 := by
      push_cast at hround ⊢
      rw [← abs_neg]
      ring_nf at hround ⊢
      exact hround
    rw [roundEven_of_lt hround, roundEven_of_lt hneg]

/-! ## Doubles -/

/-- The exponent of the last bit. -/
def exponent (q : ℚ) : ℤ := max (Int.log 2 |q| - 52) (-1074)

theorem nearest_eq (q : ℚ) : nearest q = roundEven (q / 2 ^ exponent q) * 2 ^ exponent q := rfl

theorem nearest_neg (q : ℚ) : nearest (-q) = -nearest q := by
  rw [nearest_eq, nearest_eq, exponent, abs_neg, ← exponent, neg_div, roundEven_neg]
  push_cast
  ring

/-- A double, but for its size: 53 bits, the last one not below `2 ^ -1074`. -/
def IsDouble (q : ℚ) : Prop := ∃ m k : ℤ, |m| ≤ 2 ^ 53 ∧ -1074 ≤ k ∧ q = m * 2 ^ k

theorem two_zpow_pos (k : ℤ) : (0 : ℚ) < 2 ^ k := zpow_pos two_pos k

/-- A quotient of powers of two that is no fraction. -/
theorem zpow_div_zpow {k j : ℤ} (h : j ≤ k) : ∃ n : ℤ, (2 : ℚ) ^ k / 2 ^ j = n := by
  refine ⟨2 ^ (k - j).toNat, ?_⟩
  rw [← zpow_sub₀ two_ne_zero]
  push_cast
  rw [← zpow_natCast, Int.toNat_of_nonneg (by omega)]

theorem log_lt_of_lt {k : ℤ} (h : 0 < q) (hlt : q < 2 ^ k) : Int.log 2 q < k := by
  rw [← Int.lt_zpow_iff_log_lt (by decide) h]
  exact_mod_cast hlt

theorem zpow_log_le (h : 0 < q) : (2 : ℚ) ^ Int.log 2 q ≤ q := by
  exact_mod_cast Int.zpow_log_le_self (b := 2) (by decide) h

theorem lt_zpow_log (q : ℚ) : q < (2 : ℚ) ^ (Int.log 2 q + 1) := by
  exact_mod_cast Int.lt_zpow_succ_log_self (b := 2) (by decide) q

theorem nearest_isDouble (q : ℚ) : IsDouble (nearest q) := by
  refine ⟨roundEven (q / 2 ^ exponent q), exponent q, ?_, le_max_right _ _, nearest_eq q⟩
  have hsize : |q| < 2 ^ 53 * 2 ^ exponent q := by
    refine lt_of_lt_of_le (lt_zpow_log |q|) ?_
    rw [← zpow_natCast, ← zpow_add₀ two_ne_zero]
    refine zpow_le_zpow_right₀ one_le_two ?_
    have := le_max_left (Int.log 2 |q| - 52) (-1074)
    rw [exponent]
    push_cast
    omega
  have hquot : |q / 2 ^ exponent q| < 2 ^ 53 := by
    rw [abs_div, abs_of_pos (two_zpow_pos _), div_lt_iff₀ (two_zpow_pos _)]
    exact hsize
  obtain ⟨hlo, hhi⟩ := abs_lt.mp hquot
  have hfloor : ⌊q / 2 ^ exponent q⌋ < 2 ^ 53 := Int.floor_lt.mpr (by push_cast; linarith)
  have hfloor' : -2 ^ 53 ≤ ⌊q / 2 ^ exponent q⌋ := Int.le_floor.mpr (by push_cast; linarith)
  rw [abs_le]
  unfold roundEven
  dsimp only
  split_ifs <;> omega

theorem IsDouble.neg (h : IsDouble q) : IsDouble (-q) := by
  obtain ⟨m, k, hm, hk, rfl⟩ := h
  exact ⟨-m, k, by rwa [abs_neg], hk, by push_cast; ring⟩

/-- A double with at most 53 bits. -/
theorem IsDouble.strict (h : IsDouble q) : ∃ m k : ℤ, |m| < 2 ^ 53 ∧ -1074 ≤ k ∧ q = m * 2 ^ k := by
  obtain ⟨m, k, hm, hk, rfl⟩ := h
  rcases lt_or_eq_of_le hm with hlt | heq
  · exact ⟨m, k, hlt, hk, rfl⟩
  · have hhalf : ∃ j : ℤ, m = j * 2 ∧ |j| = 2 ^ 52 := by
      rcases abs_eq (by norm_num) |>.mp heq with rfl | rfl
      · exact ⟨2 ^ 52, by norm_num, by norm_num⟩
      · exact ⟨-2 ^ 52, by norm_num, by norm_num⟩
    obtain ⟨j, rfl, hj⟩ := hhalf
    refine ⟨j, k + 1, by rw [hj]; norm_num, by omega, ?_⟩
    rw [zpow_add₀ two_ne_zero]
    push_cast
    ring

/-- Doubles are multiples of their last bit. -/
theorem IsDouble.quotient (h : IsDouble q) : ∃ n : ℤ, q / 2 ^ exponent q = n := by
  obtain ⟨m, k, hm, hk, rfl⟩ := h.strict
  rcases eq_or_ne m 0 with rfl | hne
  · exact ⟨0, by simp⟩
  have hpos : 0 < |(m : ℚ) * 2 ^ k| := abs_pos.mpr (mul_ne_zero (by exact_mod_cast hne) (two_zpow_pos k).ne')
  have hlog : Int.log 2 |(m : ℚ) * 2 ^ k| < 53 + k := by
    refine log_lt_of_lt hpos ?_
    rw [abs_mul, abs_of_pos (two_zpow_pos k), zpow_add₀ two_ne_zero]
    refine mul_lt_mul_of_pos_right ?_ (two_zpow_pos k)
    exact_mod_cast hm
  obtain ⟨n, hn⟩ := zpow_div_zpow (k := k) (j := exponent (m * 2 ^ k)) (max_le (by omega) hk)
  exact ⟨m * n, by rw [mul_div_assoc, hn]; push_cast; rfl⟩

/-- **Doubles are not rounded.** -/
theorem IsDouble.nearest_eq (h : IsDouble q) : nearest q = q := by
  obtain ⟨n, hn⟩ := h.quotient
  rw [Number.nearest_eq, hn, roundEven_intCast, ← hn, div_mul_cancel₀ _ (two_zpow_pos _).ne']

/-! ## Numbers -/

/-- The number of a value that is rounded. -/
def pack (r : ℚ) : Number :=
  if 2 ^ 1024 ≤ |r| then inf (decide (r < 0))
  else if r.den = 1 then int r.num
  else frac r

/-- The other sign. -/
def neg : Number → Number
  | int n => int (-n)
  | frac q => frac (-q)
  | inf negative => inf !negative

theorem ofRat_eq_pack (q : ℚ) : ofRat q = pack (nearest q) := by
  by_cases hsmall : q.den = 1 ∧ q.num.natAbs ≤ 2 ^ 53
  · obtain ⟨hden, hnum⟩ := hsmall
    have hq : (q.num : ℚ) = q := Rat.coe_int_num_of_den_eq_one hden
    have habs : |q.num| ≤ 2 ^ 53 := by
      rw [Int.abs_eq_natAbs]
      exact_mod_cast hnum
    have hdouble : IsDouble q := ⟨q.num, 0, habs, by norm_num, by rw [zpow_zero, mul_one, hq]⟩
    have hlt : ¬ (2 : ℚ) ^ 1024 ≤ |q| := by
      rw [not_le, ← hq, ← Int.cast_abs]
      refine lt_of_le_of_lt (b := ((2 ^ 53 : ℤ) : ℚ)) (by exact_mod_cast habs) ?_
      rw [Int.cast_pow, Int.cast_ofNat]
      exact pow_lt_pow_right₀ (by decide) (by decide)
    rw [ofRat, if_pos ⟨hden, hnum⟩, hdouble.nearest_eq, pack, if_neg hlt, if_pos hden]
  · rw [ofRat, if_neg hsmall]
    rfl

theorem pack_neg {r : ℚ} : pack (-r) = (pack r).neg := by
  unfold pack
  rw [abs_neg, Rat.den_neg_eq_den, Rat.num_neg_eq_neg_num]
  split_ifs with hbig hden
  · have hne : r ≠ 0 := by
      rintro rfl
      rw [abs_zero] at hbig
      exact absurd hbig (not_le.mpr (by positivity))
    rw [neg]
    congr 1
    rw [Bool.eq_not, ne_eq, decide_eq_decide]
    intro hiff
    rcases lt_or_gt_of_ne hne with hlt | hgt
    · exact absurd (hiff.mpr hlt) (by linarith)
    · exact absurd (hiff.mp (by linarith)) (not_lt.mpr hgt.le)
  · rfl
  · rfl

theorem ofRat_neg (q : ℚ) : ofRat (-q) = (ofRat q).neg := by
  rw [ofRat_eq_pack, ofRat_eq_pack, nearest_neg, pack_neg]

/-- The value of a number that is finite. -/
def value? : Number → Option ℚ
  | int n => some n
  | frac q => some q
  | inf _ => none

/-- A number that a double holds. -/
def Held (x : Number) : Prop := ∀ q, x.value? = some q → IsDouble q ∧ ofRat q = x

theorem pack_held {r : ℚ} (h : IsDouble r) : (pack r).Held := by
  intro q hq
  have heq : q = r := by
    unfold pack at hq
    split_ifs at hq with hbig hden
    · cases hq
    · rw [← Option.some.inj hq]
      exact Rat.coe_int_num_of_den_eq_one hden
    · exact (Option.some.inj hq).symm
  subst heq
  exact ⟨h, by rw [ofRat_eq_pack, h.nearest_eq]⟩

/-- **What is rounded is a double.** -/
theorem ofRat_held (q : ℚ) : (ofRat q).Held := by
  rw [ofRat_eq_pack]
  exact pack_held (nearest_isDouble q)

/-! ## What rounds to a double -/

/-- Half of the last bit. -/
theorem zpow_half (k : ℤ) : (2 : ℚ) ^ (k + -1) = 2 ^ k / 2 := by
  rw [zpow_add₀ two_ne_zero]
  norm_num
  ring

/-- A multiple of the last bit of `x`, less than half of it away. -/
theorem nearest_of_multiple {n : ℤ} (hn : q = n * 2 ^ exponent x) (hhalf : |x - q| < 2 ^ exponent x / 2) :
    nearest x = q := by
  have hu := two_zpow_pos (exponent x)
  have hdiff : |x / 2 ^ exponent x - n| < 1 / 2 := by
    have hsub : x / 2 ^ exponent x - n = (x - q) / 2 ^ exponent x := by
      rw [hn, sub_div, mul_div_assoc, div_self hu.ne', mul_one]
    rw [hsub, abs_div, abs_of_pos hu, div_lt_iff₀ hu]
    linarith
  rw [nearest_eq, roundEven_of_lt hdiff, ← hn]

/-- A double as a multiple of its last bit. -/
theorem IsDouble.multiple (h : IsDouble q) : ∃ n : ℤ, q = n * 2 ^ exponent q := by
  obtain ⟨n, hn⟩ := h.quotient
  exact ⟨n, (div_eq_iff (two_zpow_pos _).ne').mp hn⟩

/-- A positive double is not less than its last bit. -/
theorem IsDouble.exponent_le (h : IsDouble q) (hq : 0 < q) : exponent q ≤ Int.log 2 q := by
  obtain ⟨n, hn⟩ := h.multiple
  have hu := two_zpow_pos (exponent q)
  have hpos : (0 : ℚ) < n := by
    rw [hn] at hq
    exact (mul_pos_iff_of_pos_right hu).mp hq
  have hone : (1 : ℚ) ≤ n := by
    have : 0 < n := by exact_mod_cast hpos
    exact_mod_cast this
  have hle : (2 : ℚ) ^ exponent q ≤ q := by
    refine le_trans (le_mul_of_one_le_left hu.le hone) ?_
    rw [← hn]
  exact (Int.zpow_le_iff_le_log (b := 2) (by decide) hq).mp (by exact_mod_cast hle)

theorem exponent_of_pos (hq : 0 < q) : exponent q = max (Int.log 2 q - 52) (-1074) := by
  rw [exponent, abs_of_pos hq]

/-- The distance is less than half of the last bit. -/
theorem close_lt_half (hq : 0 < q) : q * 2 ^ (-54 : ℤ) < 2 ^ exponent q / 2 := by
  calc q * 2 ^ (-54 : ℤ) < 2 ^ (Int.log 2 q + 1) * 2 ^ (-54 : ℤ) :=
        mul_lt_mul_of_pos_right (lt_zpow_log q) (two_zpow_pos _)
    _ = 2 ^ (Int.log 2 q + 1 + -54) := (zpow_add₀ two_ne_zero _ _).symm
    _ ≤ 2 ^ (exponent q + -1) := by
      refine zpow_le_zpow_right₀ one_le_two ?_
      have := le_max_left (Int.log 2 q - 52) (-1074)
      rw [exponent_of_pos hq]
      omega
    _ = 2 ^ exponent q / 2 := zpow_half _

/-- A double that is less than its last bit above a power of two is that power. -/
theorem IsDouble.eq_zpow (h : IsDouble q) (hq : 0 < q) (hlt : q < 2 ^ Int.log 2 q + 2 ^ exponent q) :
    q = 2 ^ Int.log 2 q := by
  obtain ⟨M, hM⟩ := h.multiple
  obtain ⟨N, hN⟩ := zpow_div_zpow (h.exponent_le hq)
  have hu := two_zpow_pos (exponent q)
  rw [div_eq_iff hu.ne'] at hN
  have hle : (N : ℚ) ≤ M := by
    refine le_of_mul_le_mul_right ?_ hu
    rw [← hN, ← hM]
    exact zpow_log_le hq
  have hlt' : (M : ℚ) < N + 1 := by
    refine lt_of_mul_lt_mul_right ?_ hu.le
    rw [← hM, add_mul, one_mul, ← hN]
    exact hlt
  have hMN : M = N := by
    have h1 : N ≤ M := by exact_mod_cast hle
    have h2 : M < N + 1 := by exact_mod_cast hlt'
    omega
  exact hM.trans (by rw [hMN, hN])

/-- There is a whole bit between a double and the next power of two. -/
theorem IsDouble.add_le (h : IsDouble q) (hq : 0 < q) : q + 2 ^ exponent q ≤ 2 ^ (Int.log 2 q + 1) := by
  obtain ⟨M, hM⟩ := h.multiple
  obtain ⟨N, hN⟩ := zpow_div_zpow ((h.exponent_le hq).trans (Int.le_add_one le_rfl))
  have hu := two_zpow_pos (exponent q)
  rw [div_eq_iff hu.ne'] at hN
  have hlt : (M : ℚ) < N := by
    refine lt_of_mul_lt_mul_right ?_ hu.le
    rw [← hM, ← hN]
    exact lt_zpow_log q
  have hle : (M + 1 : ℚ) ≤ N := by
    have : M < N := by exact_mod_cast hlt
    exact_mod_cast this
  calc q + 2 ^ exponent q = (M + 1) * 2 ^ exponent q := by rw [add_mul, one_mul, ← hM]
    _ ≤ N * 2 ^ exponent q := mul_le_mul_of_nonneg_right hle hu.le
    _ = 2 ^ (Int.log 2 q + 1) := hN.symm

/-- **What is close to a double rounds to it.** -/
theorem nearest_of_close (hd : IsDouble q) (hq : 0 < q) (hclose : |x - q| < q * 2 ^ (-54 : ℤ)) : nearest x = q := by
  have hsmall : q * 2 ^ (-54 : ℤ) < q / 2 := by
    rw [div_eq_mul_inv]
    exact mul_lt_mul_of_pos_left (by norm_num) hq
  have hhalf := hclose.trans (close_lt_half hq)
  obtain ⟨hlo, hhi⟩ := abs_lt.mp (hclose.trans hsmall)
  obtain ⟨hlo', hhi'⟩ := abs_lt.mp hhalf
  have hx : 0 < x := by linarith
  obtain ⟨M, hM⟩ := hd.multiple
  rcases lt_trichotomy (Int.log 2 x) (Int.log 2 q) with hlt | heq | hgt
  · -- `x` is below the power of two that `q` is
    have hxlt : x < 2 ^ Int.log 2 q := (lt_zpow_log x).trans_le (zpow_le_zpow_right₀ one_le_two (by omega))
    have hu := two_zpow_pos (exponent q)
    have hqpow := hd.eq_zpow hq (by linarith)
    have hbelow : (2 : ℚ) ^ (Int.log 2 q + -1) ≤ x := by
      rw [zpow_half, ← hqpow]
      linarith
    have hlogx : Int.log 2 q + -1 ≤ Int.log 2 x :=
      (Int.zpow_le_iff_le_log (b := 2) (by decide) hx).mp (by exact_mod_cast hbelow)
    have hmono : exponent x ≤ exponent q := by
      rw [exponent_of_pos hq, exponent_of_pos hx]
      exact max_le_max (by omega) le_rfl
    obtain ⟨n, hn⟩ := zpow_div_zpow hmono
    rw [div_eq_iff (two_zpow_pos _).ne'] at hn
    refine nearest_of_multiple (n := M * n) ?_ ?_
    · push_cast
      rw [mul_assoc, ← hn]
      exact hM
    · calc |x - q| < q * 2 ^ (-54 : ℤ) := hclose
        _ = 2 ^ (Int.log 2 q + -54) := by
          rw [zpow_add₀ two_ne_zero, ← hqpow]
        _ ≤ 2 ^ (exponent x + -1) := by
          refine zpow_le_zpow_right₀ one_le_two ?_
          have := le_max_left (Int.log 2 x - 52) (-1074)
          rw [exponent_of_pos hx]
          omega
        _ = 2 ^ exponent x / 2 := zpow_half _
  · have hsame : exponent x = exponent q := by rw [exponent_of_pos hq, exponent_of_pos hx, heq]
    rw [← hsame] at hM hhalf
    exact nearest_of_multiple hM hhalf
  · have hxge : (2 : ℚ) ^ (Int.log 2 q + 1) ≤ x :=
      (zpow_le_zpow_right₀ one_le_two (by omega)).trans (zpow_log_le hx)
    have hu := two_zpow_pos (exponent q)
    have hadd := hd.add_le hq
    linarith

end Js.Number
