import Yataverse.Js.Nearest
import Yataverse.Js.RoundTrip

/-!
# The text of a number reads back

A number is written with the fewest digits that read back. Seventeen are always enough.

- `Digits.Normal`: digits without a leading zero.
- `shortest_isSome`: seventeen digits are enough.
- `readNumber_text`: the four ways to write digits.
- **`readNumber_numStr`**: the text of a double reads back.
-/

namespace Js

open Json Number

/-! ## Seventeen digits -/

namespace Digits

/-- `k` digits, the first one of them not zero. -/
structure Normal (d : Digits) : Prop where
  pos : 1 ≤ d.k
  lower : 10 ^ (d.k - 1) ≤ d.s
  upper : d.s < 10 ^ d.k

variable {q : ℚ} {k : Nat} {up : Bool} {d : Digits}

theorem ten_zpow_pos (n : ℤ) : (0 : ℚ) < 10 ^ n := zpow_pos (by norm_num) n

/-- The exponent of the first digit. -/
def digitsBefore (q : ℚ) : ℤ := Int.log 10 q + 1

theorem zpow_le_self (hq : 0 < q) : (10 : ℚ) ^ (digitsBefore q - 1) ≤ q := by
  have h : (10 : ℚ) ^ Int.log 10 q ≤ q := by exact_mod_cast Int.zpow_log_le_self (b := 10) (by decide) hq
  rwa [digitsBefore, add_sub_cancel_right]

theorem self_lt_zpow (q : ℚ) : q < (10 : ℚ) ^ digitsBefore q := by
  exact_mod_cast Int.lt_zpow_succ_log_self (b := 10) (by decide) q

/-- The digits of `q` down to the `k`-th. -/
def floorDigits (q : ℚ) (k : Nat) : Nat := ⌊q / 10 ^ (digitsBefore q - k)⌋.toNat

theorem floorDigits_cast (hq : 0 < q) : ((floorDigits q k : ℕ) : ℤ) = ⌊q / 10 ^ (digitsBefore q - k)⌋ := by
  refine Int.toNat_of_nonneg (Int.floor_nonneg.mpr ?_)
  exact (div_pos hq (ten_zpow_pos _)).le

theorem floorDigits_bounds (hq : 0 < q) (hk : 1 ≤ k) : 10 ^ (k - 1) ≤ floorDigits q k ∧ floorDigits q k < 10 ^ k := by
  have hu := ten_zpow_pos (digitsBefore q - k)
  have hcast := floorDigits_cast (k := k) hq
  constructor
  · have h : ((10 ^ (k - 1) : ℕ) : ℤ) ≤ ⌊q / 10 ^ (digitsBefore q - k)⌋ := by
      refine Int.le_floor.mpr ?_
      rw [le_div_iff₀ hu]
      push_cast
      rw [← zpow_natCast, ← zpow_add₀ (by norm_num)]
      refine le_trans (le_of_eq ?_) (zpow_le_self hq)
      congr 1
      omega
    rw [← hcast] at h
    exact_mod_cast h
  · have h : ⌊q / 10 ^ (digitsBefore q - k)⌋ < ((10 ^ k : ℕ) : ℤ) := by
      refine Int.floor_lt.mpr ?_
      rw [div_lt_iff₀ hu]
      push_cast
      rw [← zpow_natCast, ← zpow_add₀ (by norm_num)]
      refine lt_of_lt_of_eq (self_lt_zpow q) ?_
      congr 1
      omega
    rw [← hcast] at h
    exact_mod_cast h

theorem near_eq (q : ℚ) (k : Nat) (up : Bool) : near q k up =
    if floorDigits q k + up.toNat = 10 ^ k then ⟨10 ^ (k - 1), k, digitsBefore q + 1⟩
    else ⟨floorDigits q k + up.toNat, k, digitsBefore q⟩ := rfl

theorem near_normal (hq : 0 < q) (hk : 1 ≤ k) : (near q k up).Normal := by
  obtain ⟨hlo, hhi⟩ := floorDigits_bounds hq hk
  have hup := up.toNat_le
  rw [near_eq]
  split_ifs with h
  · exact ⟨hk, le_rfl, Nat.pow_lt_pow_right (by decide) (Nat.sub_lt hk one_pos)⟩
  · exact ⟨hk, Nat.le_add_right_of_le hlo, lt_of_le_of_ne (by dsimp only; omega) h⟩

theorem near_value (q : ℚ) (hk : 1 ≤ k) (up : Bool) :
    (near q k up).value = (floorDigits q k + up.toNat : ℕ) * 10 ^ (digitsBefore q - k) := by
  rw [near_eq]
  split_ifs with h
  · -- a carry into one digit more
    rw [h, value]
    push_cast
    rw [← zpow_natCast, ← zpow_natCast, ← zpow_add₀ (by norm_num), ← zpow_add₀ (by norm_num)]
    congr 1
    omega
  · rfl

theorem near_bounds (hq : 0 < q) (hk : 1 ≤ k) : (near q k false).value ≤ q ∧
    q < (near q k true).value ∧ (near q k true).value - (near q k false).value = 10 ^ (digitsBefore q - k) := by
  have hu := ten_zpow_pos (digitsBefore q - k)
  have hcast : ((floorDigits q k : ℕ) : ℚ) = ⌊q / 10 ^ (digitsBefore q - k)⌋ := by
    rw [← floorDigits_cast hq]
    rfl
  rw [near_value q hk, near_value q hk]
  push_cast [Bool.toNat_false, Bool.toNat_true]
  rw [hcast, add_zero]
  refine ⟨?_, ?_, by ring⟩
  · rw [← le_div_iff₀ hu]
    exact Int.floor_le _
  · rw [← div_lt_iff₀ hu]
    exact Int.lt_floor_add_one _

theorem mem_of_ofLength (h : ofLength q k = some d) :
    (d = near q k false ∨ d = near q k true) ∧ ofRat d.value = ofRat q := by
  have hmem : d ∈ [near q k false, near q k true].filter fun d => ofRat d.value = ofRat q := by
    unfold ofLength at h
    split at h
    · rename_i a b heq
      rw [heq]
      obtain rfl := Option.some.inj h
      split_ifs
      · exact List.mem_cons_of_mem _ List.mem_cons_self
      · exact List.mem_cons_self
    · rename_i a heq
      rw [heq]
      obtain rfl := Option.some.inj h
      exact List.mem_cons_self
    · cases h
  obtain ⟨hmem, hround⟩ := List.mem_filter.mp hmem
  refine ⟨?_, of_decide_eq_true hround⟩
  rcases List.mem_cons.mp hmem with h | h
  · exact .inl h
  · exact .inr (List.mem_singleton.mp h)

theorem ofLength_isSome (h : ofRat (near q k up).value = ofRat q) : (ofLength q k).isSome = true := by
  have hmem : near q k up ∈ [near q k false, near q k true].filter fun d => ofRat d.value = ofRat q := by
    refine List.mem_filter.mpr ⟨?_, decide_eq_true h⟩
    cases up
    · exact List.mem_cons_self
    · exact List.mem_cons_of_mem _ List.mem_cons_self
  unfold ofLength
  split
  · rfl
  · rfl
  · rename_i hpair hone
    generalize hl : ([near q k false, near q k true].filter fun d => ofRat d.value = ofRat q) = l at *
    have hlen : l.length ≤ 2 := by
      rw [← hl]
      exact List.length_filter_le _ _
    match l, hmem with
    | [a], _ => exact absurd rfl (hone a)
    | [a, b], _ => exact absurd rfl (hpair a b)
    | _ :: _ :: _ :: _, _ => simp at hlen

/-- Digits that read back, found as the fewest. -/
theorem of_shortest (hq : 0 < q) (h : shortest q = some d) : d.Normal ∧ ofRat d.value = ofRat q := by
  obtain ⟨k, hk, hlen⟩ := List.exists_of_findSome?_eq_some h
  obtain ⟨j, -, rfl⟩ := List.mem_map.mp hk
  obtain ⟨hd, hround⟩ := mem_of_ofLength hlen
  refine ⟨?_, hround⟩
  rcases hd with rfl | rfl
  · exact near_normal hq (Nat.le_add_left 1 j)
  · exact near_normal hq (Nat.le_add_left 1 j)

/-- **Seventeen digits are enough** for a double. -/
theorem shortest_isSome (hd : IsDouble q) (hq : 0 < q) : (shortest q).isSome = true := by
  obtain ⟨hlo, hhi, hgap⟩ := near_bounds (k := 17) hq (by decide)
  -- the digits are less than `10 ^ -16` of `q` apart
  have hunit : (10 : ℚ) ^ (digitsBefore q - (17 : ℕ)) ≤ q * 10 ^ (-16 : ℤ) := by
    have hsplit : digitsBefore q - (17 : ℕ) = digitsBefore q - 1 + -16 := by push_cast; omega
    rw [hsplit, zpow_add₀ (by norm_num)]
    exact mul_le_mul_of_nonneg_right (zpow_le_self hq) (ten_zpow_pos _).le
  have hlt : q * (10 : ℚ) ^ (-16 : ℤ) / 2 < q * 2 ^ (-54 : ℤ) := by
    rw [mul_div_assoc]
    exact mul_lt_mul_of_pos_left (by norm_num) hq
  have hhalf : (10 : ℚ) ^ (digitsBefore q - (17 : ℕ)) / 2 < q * 2 ^ (-54 : ℤ) :=
    lt_of_le_of_lt (div_le_div_of_nonneg_right hunit (by norm_num)) hlt
  have hround {up : Bool} (hclose : |(near q 17 up).value - q| < q * 2 ^ (-54 : ℤ)) : (ofLength q 17).isSome = true := by
    refine @ofLength_isSome q 17 up ?_
    rw [ofRat_eq_pack, ofRat_eq_pack, nearest_of_close hd hq hclose, hd.nearest_eq]
  have hsome : (ofLength q 17).isSome = true := by
    rcases le_total (q - (near q 17 false).value) (10 ^ (digitsBefore q - (17 : ℕ)) / 2) with h | h
    · refine @hround false ?_
      rw [abs_sub_comm, abs_of_nonneg (by linarith)]
      exact lt_of_le_of_lt h hhalf
    · refine @hround true ?_
      rw [abs_of_nonneg (by linarith)]
      rw [← hgap] at h hhalf
      refine lt_of_le_of_lt ?_ hhalf
      linarith only [h]
  rw [shortest, List.findSome?_isSome_iff]
  exact ⟨17, by decide, hsome⟩

end Digits

/-! ## Reading a number -/

variable {s t t' r whole fraction : JsString} {e : ℤ} {d : Digits} {n : Nat}

theorem ofDigits_append (s t : JsString) : ofDigits (s ++ t) = ofDigits s * 10 ^ t.length + ofDigits t := by
  induction t using List.reverseRecOn with
  | nil => simp [ofDigits]
  | append_singleton t u ih =>
    have hlast (s : JsString) : ofDigits (s ++ [u]) = 10 * ofDigits s + (u.toNat - 48) := by
      rw [ofDigits, List.foldl_append]
      rfl
    rw [← List.append_assoc, hlast, ih, hlast, List.length_append, List.length_singleton, pow_succ]
    ring

theorem ofDigits_zeros (n : Nat) : ofDigits (List.replicate n (unit '0')) = 0 := by
  induction n with
  | zero => rfl
  | succ n ih =>
    have hzero : ofDigits [unit '0'] = 0 := by decide
    rw [List.replicate_succ', ofDigits_append, ih, hzero, zero_mul]

theorem length_natStr {k : Nat} (hk : 1 ≤ k) (hlo : 10 ^ (k - 1) ≤ n) (hhi : n < 10 ^ k) : (natStr n).length = k := by
  rw [natStr, List.length_map]
  refine Nat.le_antisymm ((Nat.length_toDigits_le_iff (by decide) hk).mpr hhi) ?_
  by_contra hlt
  rcases Nat.eq_or_lt_of_le hk with rfl | hk
  · have := Nat.length_toDigits_pos (b := 10) (n := n)
    omega
  · have := (Nat.length_toDigits_le_iff (b := 10) (n := n) (by decide) (Nat.sub_pos_of_lt hk)).mp (by omega)
    omega

theorem isDigit_zeros (n : Nat) : ∀ u ∈ List.replicate n (unit '0'), IsDigit u := by
  intro u hu
  rw [List.eq_of_mem_replicate hu]
  unfold IsDigit
  decide

/-- A minus sign, or none. -/
def signText (negative : Bool) : JsString := if negative then [unit '-'] else []

theorem readSign_signText (negative : Bool) {u : UInt16} (hu : IsDigit u) :
    readSign (signText negative ++ u :: s) = (negative, u :: s) := by
  cases negative with
  | true => exact (by rw [signText, if_pos rfl, readSign, List.singleton_append, skip_cons])
  | false =>
    have hne : u ≠ unit '-' := hu.ne (by unfold IsDigit; decide)
    rw [signText, if_neg (by decide), List.nil_append, readSign, skip_ne]
    rintro t h
    exact hne (List.cons.inj h).1

/-- A number from its parts. -/
theorem readNumber_parts (negative : Bool) (hdigits : ∀ u ∈ whole, IsDigit u) (hne : whole ≠ [])
    (hlead : whole.head? = some (unit '0') → whole = [unit '0']) (ht : ∀ u s, t = u :: s → ¬ IsDigit u)
    (hfraction : readFraction t = some (fraction, t')) (hexponent : readExponent t' = some (e, r)) {q : ℚ}
    (hq : (ofDigits (whole ++ fraction) : ℚ) * 10 ^ (e - fraction.length) = q) :
    readNumber (signText negative ++ (whole ++ t)) = some (num (ofRat (if negative then -q else q)), r) := by
  obtain ⟨u, s, rfl⟩ := List.exists_cons_of_ne_nil hne
  have hsign : readSign (signText negative ++ (u :: s ++ t)) = (negative, u :: s ++ t) :=
    readSign_signText negative (hdigits u List.mem_cons_self)
  have hlead' : (u :: s = [] || (u :: s).head? = some (unit '0') && u :: s ≠ [unit '0']) = false := by
    rw [decide_eq_false hne, Bool.false_or, Bool.and_eq_false_iff]
    by_cases h : (u :: s).head? = some (unit '0')
    · exact .inr (by rw [decide_eq_false_iff_not, not_not]; exact hlead h)
    · exact .inl (decide_eq_false h)
  rw [readNumber, hsign]
  simp only [spanDigits_append hdigits ht, hlead', hfraction, hexponent, Option.bind_eq_bind, Option.bind_some,
    Bool.false_eq_true, if_false, pure, hq]

theorem readFraction_none (h : ∀ s, t ≠ unit '.' :: s) : readFraction t = some ([], t) := by
  rw [readFraction, skip_ne h]

theorem readFraction_some (hdigits : ∀ u ∈ fraction, IsDigit u) (hne : fraction ≠ [])
    (ht : ∀ u s, t = u :: s → ¬ IsDigit u) : readFraction (unit '.' :: (fraction ++ t)) = some (fraction, t) := by
  rw [readFraction, skip_cons]
  dsimp only
  rw [spanDigits_append hdigits ht, if_neg hne]

theorem readExponent_none (h : Stops r) : readExponent r = some (0, r) := by
  rw [readExponent, skip_ne fun t ht => (h _ t ht).2.2.1 rfl, skip_ne fun t ht => (h _ t ht).2.2.2 rfl]
  rfl

/-- The exponent of `Digits.text`. -/
def exponentText (e : ℤ) : JsString := js (if 0 ≤ e then "e+" else "e-") ++ natStr e.natAbs

theorem exponentText_cons (e : ℤ) : ∃ s, exponentText e = unit 'e' :: s := by
  unfold exponentText
  split_ifs
  · exact ⟨unit '+' :: natStr e.natAbs, rfl⟩
  · exact ⟨unit '-' :: natStr e.natAbs, rfl⟩

theorem readExponent_text (e : ℤ) (hr : Stops r) : readExponent (exponentText e ++ r) = some (e, r) := by
  have hspan : spanDigits (natStr e.natAbs ++ r) = (natStr e.natAbs, r) :=
    spanDigits_append (isDigit_natStr _) fun u s h => (hr u s h).1
  have hplus : skip '+' (unit '-' :: (natStr e.natAbs ++ r)) = none :=
    skip_ne fun s h => absurd (List.cons.inj h).1 (by decide)
  unfold exponentText
  split_ifs with he
  · have htext : js "e+" ++ natStr e.natAbs ++ r = unit 'e' :: unit '+' :: (natStr e.natAbs ++ r) := rfl
    rw [htext, readExponent, skip_cons]
    simp only [HOrElse.hOrElse, OrElse.orElse, Option.orElse, skip_cons, hspan, natStr_ne_nil, ofDigits_natStr, if_false,
      Bool.false_eq_true, Int.natCast_natAbs, abs_of_nonneg he]
  · have htext : js "e-" ++ natStr e.natAbs ++ r = unit 'e' :: unit '-' :: (natStr e.natAbs ++ r) := rfl
    rw [htext, readExponent, skip_cons]
    simp only [HOrElse.hOrElse, OrElse.orElse, Option.orElse, readSign, hplus, skip_cons, hspan, natStr_ne_nil,
      ofDigits_natStr, if_false, if_true, Int.natCast_natAbs, abs_of_neg (not_le.mp he), neg_neg]

/-! ## The four ways to write digits -/

theorem natStr_cons (h : 0 < n) : ∃ u s, natStr n = u :: s ∧ u ≠ unit '0' := by
  rcases natStr_head n with hzero | ⟨u, s, hs, -, hu⟩
  · have hn := ofDigits_natStr n
    rw [hzero] at hn
    have hzero : ofDigits [unit '0'] = 0 := by decide
    omega
  · exact ⟨u, s, hs, hu⟩

/-- Digits with a first one that is not zero have no leading zero. -/
theorem no_leading_zero {u : UInt16} (hu : u ≠ unit '0') (hs : whole = u :: s) :
    whole.head? = some (unit '0') → whole = [unit '0'] := by
  rintro h
  rw [hs] at h
  exact absurd (Option.some.inj h) hu

theorem Digits.value_eq (d : Digits) : d.value = (d.s : ℚ) * 10 ^ (d.n - d.k) := rfl

/-- **The text of digits reads back**, with a sign or without. -/
theorem readNumber_text (hd : d.Normal) (hr : Stops r) (negative : Bool) :
    readNumber (signText negative ++ (d.text ++ r)) =
      some (num (ofRat (if negative then -d.value else d.value)), r) := by
  have hpos : 0 < d.s := lt_of_lt_of_le (Nat.pow_pos (by decide)) hd.lower
  have hlen := length_natStr hd.pos hd.lower hd.upper
  have hdigits := isDigit_natStr d.s
  obtain ⟨u, s, hs, hu⟩ := natStr_cons hpos
  have hnotDigit : ∀ u s, r = u :: s → ¬ IsDigit u := fun u s h => (hr u s h).1
  have hnoFraction : readFraction r = some ([], r) := readFraction_none fun s h => (hr _ s h).2.1 rfl
  have hnoExponent := readExponent_none hr
  have hpoint {s : JsString} : ∀ u t, unit '.' :: s = u :: t → ¬ IsDigit u := by
    rintro u t h
    rw [← (List.cons.inj h).1]
    unfold IsDigit
    decide
  have htaken (j : Nat) (hj : 1 ≤ j) : ∃ s', (natStr d.s).take j = u :: s' := by
    obtain ⟨i, rfl⟩ := Nat.exists_eq_add_of_le' hj
    exact ⟨s.take i, by rw [hs, List.take_succ_cons]⟩
  rw [Digits.text]
  dsimp only
  by_cases hwhole : (d.k : ℤ) ≤ d.n ∧ d.n ≤ 21
  · -- digits and zeros
    rw [if_pos hwhole]
    have hstart : natStr d.s ++ List.replicate (d.n - d.k).toNat (unit '0') =
        u :: (s ++ List.replicate (d.n - d.k).toNat (unit '0')) := by
      rw [hs, List.cons_append]
    refine readNumber_parts negative ?_ ?_ (no_leading_zero hu hstart) hnotDigit hnoFraction hnoExponent ?_
    · rintro w hw
      exact (List.mem_append.mp hw).elim (hdigits w) (isDigit_zeros _ w)
    · rw [hs]
      exact List.cons_ne_nil _ _
    · rw [List.append_nil, ofDigits_append, ofDigits_zeros, ofDigits_natStr, List.length_replicate, d.value_eq]
      push_cast
      rw [add_zero, List.length_nil, Nat.cast_zero, sub_zero, zpow_zero, mul_one, ← zpow_natCast,
        Int.toNat_of_nonneg (by omega)]
  rw [if_neg hwhole]
  by_cases hfraction : 0 < d.n ∧ d.n ≤ 21
  · -- a point between the digits
    rw [if_pos hfraction]
    have hn : d.n.toNat < d.k := by omega
    obtain ⟨s', hs'⟩ := htaken d.n.toNat (by omega)
    rw [List.append_assoc, List.cons_append]
    refine readNumber_parts negative (fun w hw => hdigits w (List.mem_of_mem_take hw)) ?_ (no_leading_zero hu hs')
      hpoint (readFraction_some (fun w hw => hdigits w (List.mem_of_mem_drop hw)) ?_ hnotDigit) hnoExponent ?_
    · rw [hs']
      exact List.cons_ne_nil _ _
    · rw [ne_eq, List.drop_eq_nil_iff, hlen]
      omega
    · rw [List.take_append_drop, ofDigits_natStr, List.length_drop, hlen, d.value_eq]
      congr 2
      omega
  rw [if_neg hfraction]
  by_cases hsmall : -6 < d.n ∧ d.n ≤ 0
  · -- a point before the digits
    rw [if_pos hsmall]
    have htext : js "0." ++ List.replicate (-d.n).toNat (unit '0') ++ natStr d.s ++ r =
        [unit '0'] ++ (unit '.' :: (List.replicate (-d.n).toNat (unit '0') ++ natStr d.s ++ r)) := by
      rw [List.append_assoc, List.append_assoc, List.append_assoc]
      rfl
    rw [htext]
    refine readNumber_parts negative ?_ (List.cons_ne_nil _ _) (fun _ => rfl) hpoint
      (readFraction_some ?_ ?_ hnotDigit) hnoExponent ?_
    · rintro w hw
      rw [List.mem_singleton.mp hw]
      unfold IsDigit
      decide
    · rintro w hw
      exact (List.mem_append.mp hw).elim (isDigit_zeros _ w) (hdigits w)
    · rw [hs]
      exact List.append_ne_nil_of_right_ne_nil _ (List.cons_ne_nil _ _)
    · have hzero : ofDigits [unit '0'] = 0 := by decide
      rw [ofDigits_append, ofDigits_append, ofDigits_zeros, ofDigits_natStr, hzero, zero_mul, zero_mul, zero_add,
        zero_add, List.length_append, List.length_replicate, hlen, d.value_eq]
      congr 2
      omega
  rw [if_neg hsmall]
  by_cases hone : d.k = 1
  · -- one digit and an exponent
    rw [if_pos hone]
    obtain ⟨s', hs'⟩ := exponentText_cons (d.n - 1)
    have hstart : exponentText (d.n - 1) ++ r = unit 'e' :: (s' ++ r) := by rw [hs', List.cons_append]
    change readNumber (signText negative ++ (natStr d.s ++ exponentText (d.n - 1) ++ r)) = _
    rw [List.append_assoc]
    refine readNumber_parts negative hdigits ?_ (no_leading_zero hu hs) ?_ (readFraction_none ?_)
      (readExponent_text (d.n - 1) hr) ?_
    · rw [hs]
      exact List.cons_ne_nil _ _
    · rintro w t h
      rw [← (List.cons.inj (hstart.symm.trans h)).1]
      unfold IsDigit
      decide
    · rintro t h
      exact absurd (List.cons.inj (hstart.symm.trans h)).1 (by decide)
    · rw [List.append_nil, ofDigits_natStr, d.value_eq, List.length_nil, hone]
      congr 2
      omega
  · -- a point behind the first digit, and an exponent
    rw [if_neg hone]
    have hk : 1 < d.k := lt_of_le_of_ne hd.pos (Ne.symm hone)
    obtain ⟨s', hs'⟩ := exponentText_cons (d.n - 1)
    have hstart : exponentText (d.n - 1) ++ r = unit 'e' :: (s' ++ r) := by rw [hs', List.cons_append]
    obtain ⟨t', ht'⟩ := htaken 1 le_rfl
    have htext : (natStr d.s).take 1 ++ unit '.' :: (natStr d.s).drop 1 ++ exponentText (d.n - 1) ++ r =
        (natStr d.s).take 1 ++ (unit '.' :: ((natStr d.s).drop 1 ++ (exponentText (d.n - 1) ++ r))) := by
      simp only [List.append_assoc, List.cons_append]
    change readNumber (signText negative ++
      ((natStr d.s).take 1 ++ unit '.' :: (natStr d.s).drop 1 ++ exponentText (d.n - 1) ++ r)) = _
    rw [htext]
    refine readNumber_parts negative (fun w hw => hdigits w (List.mem_of_mem_take hw)) ?_ (no_leading_zero hu ht')
      hpoint (readFraction_some (fun w hw => hdigits w (List.mem_of_mem_drop hw)) ?_ ?_)
      (readExponent_text (d.n - 1) hr) ?_
    · rw [ht']
      exact List.cons_ne_nil _ _
    · rw [ne_eq, List.drop_eq_nil_iff, hlen]
      omega
    · rintro w t h
      rw [← (List.cons.inj (hstart.symm.trans h)).1]
      unfold IsDigit
      decide
    · rw [List.take_append_drop, ofDigits_natStr, List.length_drop, hlen, d.value_eq]
      congr 2
      omega

/-! ## The text of a number -/

/-- The text of a rational that is a double. -/
theorem readNumber_ratStr {q : ℚ} (hd : IsDouble q) (hq : q ≠ 0) (hr : Stops r) :
    readNumber (ratStr q ++ r) = some (num (ofRat q), r) := by
  have habs : 0 < |q| := abs_pos.mpr hq
  have hdouble : IsDouble |q| := by
    rcases abs_choice q with h | h <;> rw [h]
    · exact hd
    · exact hd.neg
  obtain ⟨d, hshort⟩ := Option.isSome_iff_exists.mp (Digits.shortest_isSome hdouble habs)
  obtain ⟨hnormal, hround⟩ := Digits.of_shortest habs hshort
  rw [ratStr, hshort]
  dsimp only [Option.map_some, Option.getD_some]
  split_ifs with hneg
  · have h := readNumber_text hnormal hr true
    rw [signText, if_pos rfl, if_pos rfl, ofRat_neg, hround, ← ofRat_neg, abs_of_neg hneg, neg_neg] at h
    exact h
  · have h := readNumber_text hnormal hr false
    rw [signText, if_neg (by decide), if_neg (by decide), hround, abs_of_nonneg (not_lt.mp hneg)] at h
    exact h

/-- **The text of a double reads back.** -/
theorem readNumber_numStr {x : Number} {q : ℚ} (hx : x.Held) (hq : x.value? = some q) (hr : Stops r) :
    readNumber (numStr x ++ r) = some (num x, r) := by
  obtain ⟨hd, hround⟩ := hx q hq
  have hne : ofRat q ≠ .int 0 → q ≠ 0 := by
    rintro h rfl
    exact h rfl
  cases x with
  | int n =>
    rw [numStr]
    split_ifs with hn
    · exact readNumber_intStr hn hr
    · obtain rfl := Option.some.inj hq
      rw [readNumber_ratStr hd (hne (by rw [hround]; rintro h; cases h; exact hn (by decide))) hr, hround]
  | frac p =>
    obtain rfl := Option.some.inj hq
    rw [numStr, readNumber_ratStr hd (hne (by rw [hround]; rintro h; cases h)) hr, hround]
  | inf negative => cases hq

/-- How the text of a finite number starts. -/
theorem numStr_cons {x : Number} {q : ℚ} (hx : x.Held) (hq : x.value? = some q) :
    ∃ u t, numStr x = u :: t ∧ (IsDigit u ∨ u = unit '-') := by
  have hread := readNumber_numStr hx hq .nil
  rw [List.append_nil] at hread
  cases h : numStr x with
  | nil =>
    rw [h] at hread
    cases hread
  | cons u t =>
    refine ⟨u, t, rfl, ?_⟩
    by_contra hnot
    obtain ⟨hdigit, hminus⟩ := not_or.mp hnot
    have hsign : readSign (u :: t) = (false, u :: t) := by
      rw [readSign, skip_ne]
      rintro s hs
      exact hminus (List.cons.inj hs).1
    have hspan : spanDigits (u :: t) = ([], u :: t) := by
      refine spanDigits_append (s := []) (by rintro w hw; cases hw) ?_
      rintro w s hs
      rw [← (List.cons.inj hs).1]
      exact hdigit
    rw [h, readNumber, hsign] at hread
    simp [hspan] at hread

/-- **Different doubles have different texts.** -/
theorem numStr_inj {x y : Number} {p q : ℚ} (hx : x.Held) (hy : y.Held) (hp : x.value? = some p)
    (hq : y.value? = some q) (h : numStr x = numStr y) : x = y := by
  have hreadx := readNumber_numStr hx hp .nil
  rw [h, readNumber_numStr hy hq .nil] at hreadx
  obtain ⟨hnum, -⟩ := Prod.mk.inj (Option.some.inj hreadx)
  cases hnum
  rfl

/-! ## The units of a text -/

theorem Printable.append (hs : Printable s) (ht : Printable t) : Printable (s ++ t) :=
  List.forall_mem_append.mpr ⟨hs, ht⟩

theorem Printable.cons {u : UInt16} (hu : 0x20 ≤ u ∧ u ≤ 0x7e) (hs : Printable s) : Printable (u :: s) :=
  List.forall_mem_cons.mpr ⟨hu, hs⟩

theorem Printable.ascii (hs : Printable s) : Ascii s :=
  fun u hu => UInt16.lt_of_le_of_lt (hs u hu).2 (by decide)

theorem Printable.newline_notMem (hs : Printable s) : 10 ∉ s :=
  fun hu => absurd (hs 10 hu).1 (by decide)

theorem printable_natStr (n : Nat) : Printable (natStr n) :=
  fun u hu => isDigit_printable (isDigit_natStr n u hu)

theorem printable_zeros (n : Nat) : Printable (List.replicate n (unit '0')) :=
  fun u hu => isDigit_printable (isDigit_zeros n u hu)

theorem printable_exponentText (e : ℤ) : Printable (exponentText e) := by
  refine Printable.append ?_ (printable_natStr _)
  split_ifs <;> decide

theorem printable_text (d : Digits) : Printable d.text := by
  have hdigits := printable_natStr d.s
  have htake (n : Nat) : Printable ((natStr d.s).take n) := fun u hu => hdigits u (List.mem_of_mem_take hu)
  have hdrop (n : Nat) : Printable ((natStr d.s).drop n) := fun u hu => hdigits u (List.mem_of_mem_drop hu)
  rw [Digits.text]
  dsimp only
  by_cases hwhole : (d.k : ℤ) ≤ d.n ∧ d.n ≤ 21
  · rw [if_pos hwhole]
    exact hdigits.append (printable_zeros _)
  rw [if_neg hwhole]
  by_cases hfraction : 0 < d.n ∧ d.n ≤ 21
  · rw [if_pos hfraction]
    exact (htake _).append (Printable.cons (by decide) (hdrop _))
  rw [if_neg hfraction]
  by_cases hsmall : -6 < d.n ∧ d.n ≤ 0
  · rw [if_pos hsmall]
    exact Printable.append (Printable.append (by decide) (printable_zeros _)) hdigits
  rw [if_neg hsmall]
  by_cases hone : d.k = 1
  · rw [if_pos hone]
    exact hdigits.append (printable_exponentText (d.n - 1))
  · rw [if_neg hone]
    exact Printable.append ((htake 1).append (Printable.cons (by decide) (hdrop 1))) (printable_exponentText (d.n - 1))

theorem printable_ratStr (q : ℚ) : Printable (ratStr q) := by
  have htext : Printable (((Digits.shortest |q|).map Digits.text).getD []) := by
    cases Digits.shortest |q| with
    | none => exact fun u hu => absurd hu List.not_mem_nil
    | some d => exact printable_text d
  rw [ratStr]
  split_ifs
  · exact Printable.cons (by decide) htext
  · exact htext

/-- The text of a number is printable. -/
theorem printable_numStr (x : Number) : Printable (numStr x) := by
  cases x with
  | int n =>
    rw [numStr]
    split_ifs
    · exact intStr_printable n
    · exact printable_ratStr n
  | frac q => exact printable_ratStr q
  | inf negative => cases negative <;> decide

end Js
