import Mathlib.Data.List.TakeWhile
import Mathlib.Data.Nat.Digits.Lemmas

/-!
# Numerals of another radix

A list of digits, the most significant one first, stands for a number and for how many zeros are in front of it.
`Nat.digits` has neither the order nor the zeros.

- `mulAdd`: a number in little-endian digits times `a`, plus a carry, digit by digit.
- `foldl_mulAdd`: the digits of a numeral, fed into `mulAdd` one after the other.
- `convert`: the numeral of another radix with as many zeros in front.
- **`convert_convert`**: nothing is lost on the way there and back.
-/

namespace Radix

variable {a b n d : Nat} {ds : List Nat}

/-! ## One more digit -/

/-- Little-endian digits of radix `b`, times `a`, plus `carry`. -/
def mulAdd (a b : Nat) : List Nat → Nat → List Nat
  | [], carry => Nat.digits b carry
  | x :: bs, carry => (x * a + carry) % b :: mulAdd a b bs ((x * a + carry) / b)

/-- The loop over the digits multiplies the number. -/
theorem mulAdd_digits (ha : 0 < a) (hb : 1 < b) (n carry : Nat) :
    mulAdd a b (Nat.digits b n) carry = Nat.digits b (n * a + carry) := by
  induction n using Nat.strong_induction_on generalizing carry with
  | _ n ih =>
    rcases Nat.eq_zero_or_pos n with rfl | hpos
    · rw [Nat.digits_zero, mulAdd, Nat.zero_mul, Nat.zero_add]
    · have hsplit : n * a + carry = b * (n / b * a) + (n % b * a + carry) := by
        conv_lhs => rw [← Nat.div_add_mod n b]
        rw [Nat.add_mul, Nat.mul_assoc, Nat.add_assoc]
      have hmod : (n * a + carry) % b = (n % b * a + carry) % b := by rw [hsplit, Nat.mul_add_mod]
      have hdiv : (n * a + carry) / b = n / b * a + (n % b * a + carry) / b := by
        rw [hsplit, Nat.mul_add_div (Nat.zero_lt_of_lt hb)]
      have hprod : 0 < n * a := Nat.mul_pos hpos ha
      rw [Nat.digits_def' hb hpos, mulAdd, ih _ (Nat.div_lt_self hpos hb),
        Nat.digits_def' hb (by omega : 0 < n * a + carry), hmod, hdiv]

/-! ## Numerals -/

/-- The number of a numeral. -/
def number (a : Nat) (ds : List Nat) : Nat := ds.foldl (fun n d => n * a + d) 0

/-- How many zeros are in front. -/
def zeros (ds : List Nat) : Nat := (ds.takeWhile (· = 0)).length

/-- The numeral of radix `b` with as many zeros in front. -/
def convert (a b : Nat) (ds : List Nat) : List Nat :=
  List.replicate (zeros ds) 0 ++ (Nat.digits b (number a ds)).reverse

/-- The digits of a numeral, one after the other. -/
theorem foldl_mulAdd (ha : 0 < a) (hb : 1 < b) (ds : List Nat) :
    ds.foldl (mulAdd a b) [] = Nat.digits b (number a ds) := by
  have hrun (n : Nat) : ds.foldl (mulAdd a b) (Nat.digits b n) = Nat.digits b (ds.foldl (fun n d => n * a + d) n) := by
    induction ds generalizing n with
    | nil => rfl
    | cons d ds ih => rw [List.foldl_cons, List.foldl_cons, mulAdd_digits ha hb, ih]
  have h := hrun 0
  rwa [Nat.digits_zero] at h

theorem number_eq (ds : List Nat) : number a ds = Nat.ofDigits a ds.reverse := by
  rw [Nat.ofDigits_eq_foldr, List.foldr_reverse, number]
  congr 1
  funext n d
  rw [Nat.cast_id, Nat.mul_comm, Nat.add_comm]

theorem number_zeros (k : Nat) (ds : List Nat) : number a (List.replicate k 0 ++ ds) = number a ds := by
  induction k with
  | zero => rfl
  | succ k ih =>
    rw [← ih, List.replicate_succ, List.cons_append, number, List.foldl_cons, Nat.zero_mul]
    rfl

/-- A numeral is its zeros, and digits the first of which is none. -/
theorem eq_zeros_append (ds : List Nat) : ds = List.replicate (zeros ds) 0 ++ ds.dropWhile (· = 0) := by
  have hzero : ds.takeWhile (· = 0) = List.replicate (zeros ds) 0 := by
    refine List.eq_replicate_of_mem fun d hd => ?_
    have hd := List.mem_takeWhile_imp hd
    exact of_decide_eq_true hd
  rw [← hzero]
  exact List.takeWhile_append_dropWhile.symm

theorem zeros_replicate_append (k : Nat) (h : zeros ds = 0) : zeros (List.replicate k 0 ++ ds) = k := by
  induction k with
  | zero => exact h
  | succ k ih =>
    rw [List.replicate_succ, List.cons_append, zeros, List.takeWhile_cons_of_pos (by decide), List.length_cons]
    exact congrArg Nat.succ ih

theorem zeros_eq_zero (h : ∀ hne : ds ≠ [], ds.head hne ≠ 0) : zeros ds = 0 := by
  cases ds with
  | nil => rfl
  | cons d ds =>
    have hd : ¬ d = 0 := h (List.cons_ne_nil d ds)
    rw [zeros, List.takeWhile_cons_of_neg (by simpa using hd), List.length_nil]

/-- The digits of a number have no zero in front. -/
theorem zeros_digits (b n : Nat) : zeros (Nat.digits b n).reverse = 0 := by
  refine zeros_eq_zero fun hne => ?_
  rw [List.head_reverse]
  refine Nat.getLast_digit_ne_zero b ?_
  rintro rfl
  exact hne (by rw [Nat.digits_zero, List.reverse_nil])

theorem zeros_convert (a b : Nat) (ds : List Nat) : zeros (convert a b ds) = zeros ds :=
  zeros_replicate_append _ (zeros_digits b _)

theorem number_convert (a b : Nat) (ds : List Nat) : number b (convert a b ds) = number a ds := by
  rw [convert, number_zeros, number_eq, List.reverse_reverse, Nat.ofDigits_digits]

theorem convert_lt (hb : 1 < b) : ∀ d ∈ convert a b ds, d < b := by
  intro d hd
  rcases List.mem_append.mp hd with hd | hd
  · rw [List.eq_of_mem_replicate hd]
    exact Nat.zero_lt_of_lt hb
  · exact Nat.digits_lt_base hb (List.mem_reverse.mp hd)

/-- A numeral is the one of its number, with its zeros. -/
theorem convert_self (ha : 1 < a) (h : ∀ d ∈ ds, d < a) :
    List.replicate (zeros ds) 0 ++ (Nat.digits a (number a ds)).reverse = ds := by
  have hsplit := eq_zeros_append ds
  have hnumber : number a ds = Nat.ofDigits a (ds.dropWhile (· = 0)).reverse := by
    conv_lhs => rw [hsplit, number_zeros, number_eq]
  have hdigits : Nat.digits a (number a ds) = (ds.dropWhile (· = 0)).reverse := by
    rw [hnumber]
    refine Nat.digits_ofDigits a ha _ (fun d hd => h d ?_) fun hne => ?_
    · exact List.dropWhile_sublist _ |>.subset (List.mem_reverse.mp hd)
    · rw [List.getLast_reverse]
      have hhead := List.head_dropWhile_not (p := fun d : Nat => decide (d = 0)) (by simpa using hne)
      simpa using hhead
  rw [hdigits, List.reverse_reverse]
  exact hsplit.symm

/-- **There and back.** -/
theorem convert_convert (ha : 1 < a) (h : ∀ d ∈ ds, d < a) (b : Nat) : convert b a (convert a b ds) = ds := by
  rw [convert, zeros_convert, number_convert]
  exact convert_self ha h

end Radix
