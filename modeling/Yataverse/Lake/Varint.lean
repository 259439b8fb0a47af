import Yataverse.Lake.Cid

/-!
# Variable-length numbers in doubles

The Kotoba ports add up a variable-length number in doubles, where the Python tools have integers.

- `doubleVarint`: the loop of the ports.
- `readVarint_suffix`: at least one byte is read, and the rest is left.
- **`doubleVarint_eq`**: what the Python loop reads, the other one reads too, to the same byte; the number is the same
  where a double can count to it.
-/

namespace Lake

open Js

/-- `varint`, `read-varint`, in doubles. No byte is read from the shift `limit` on. -/
def doubleVarint (truncated oversized : String) (limit : Nat) : Number → Nat → Bytes → Except String (Number × Bytes)
  | value, shift, bs =>
    if limit ≤ shift then .error oversized
    else
      match bs with
      | [] => .error truncated
      | b :: bs =>
        let value := value.add ((b.toNat &&& 0x7f) * 2 ^ shift : Nat)
        if b < 0x80 then .ok (value, bs) else doubleVarint truncated oversized limit value (shift + 7) bs

variable {truncated oversized truncated' oversized' : String} {n value shift limit v : Nat} {bs rest : Bytes} {x : Number}

/-- The texts of the errors do not matter to what is read. -/
theorem readVarint_texts (h : readVarint truncated oversized n value shift bs = .ok (v, rest)) :
    readVarint truncated' oversized' n value shift bs = .ok (v, rest) := by
  induction n generalizing value shift bs with
  | zero => cases h
  | succ n ih =>
    cases bs with
    | nil => cases h
    | cons b bs =>
      rw [readVarint] at h ⊢
      by_cases hb : b < 0x80
      · rw [if_pos hb] at h ⊢
        exact h
      · rw [if_neg hb] at h ⊢
        exact ih h

/-- At least one byte is read. -/
theorem readVarint_suffix (h : readVarint truncated oversized n value shift bs = .ok (v, rest)) :
    ∃ part, part ≠ [] ∧ bs = part ++ rest := by
  induction n generalizing value shift bs with
  | zero => cases h
  | succ n ih =>
    cases bs with
    | nil => cases h
    | cons b bs =>
      rw [readVarint] at h
      by_cases hb : b < 0x80
      · rw [if_pos hb] at h
        obtain ⟨-, rfl⟩ := Prod.mk.inj (Except.ok.inj h)
        exact ⟨[b], List.cons_ne_nil _ _, rfl⟩
      · rw [if_neg hb] at h
        obtain ⟨part, -, rfl⟩ := ih h
        exact ⟨b :: part, List.cons_ne_nil _ _, rfl⟩

/-- The next seven bits are above those that were read. -/
theorem or_shift (hvalue : value < 2 ^ shift) (low : Nat) : value ||| low <<< shift = value + low * 2 ^ shift := by
  rw [Nat.shiftLeft_eq, Nat.mul_comm, Nat.or_comm, ← Nat.two_pow_add_eq_or_of_lt hvalue, Nat.add_comm]

theorem and_mask (b : Nat) : b &&& 0x7f < 128 := Nat.lt_succ_of_le Nat.and_le_right

theorem add_lt_shift (hvalue : value < 2 ^ shift) {low : Nat} (hlow : low < 128) :
    value + low * 2 ^ shift < 2 ^ (shift + 7) := by
  have hmul : (low + 1) * 2 ^ shift ≤ 128 * 2 ^ shift := Nat.mul_le_mul_right _ hlow
  rw [Nat.pow_add, Nat.mul_comm (2 ^ shift)]
  rw [Nat.add_mul, Nat.one_mul] at hmul
  omega

/-- What was read before is part of the number. -/
theorem le_of_readVarint (h : readVarint truncated oversized n value shift bs = .ok (v, rest)) : value ≤ v := by
  induction n generalizing value shift bs with
  | zero => cases h
  | succ n ih =>
    cases bs with
    | nil => cases h
    | cons b bs =>
      rw [readVarint] at h
      have hle : value ≤ value ||| (b.toNat &&& 0x7f) <<< shift := Nat.left_le_or
      by_cases hb : b < 0x80
      · rw [if_pos hb] at h
        obtain ⟨rfl, -⟩ := Prod.mk.inj (Except.ok.inj h)
        exact hle
      · rw [if_neg hb] at h
        exact hle.trans (ih h)

/-- **A number of at most ten bytes is read in doubles, too.** -/
theorem doubleVarint_eq (h : readVarint truncated oversized n value shift bs = .ok (v, rest)) (hvalue : value < 2 ^ shift)
    (hten : shift + 7 * n = 70) (hlimit : 63 < limit) :
    ∃ y, doubleVarint truncated' oversized' limit x shift bs = .ok (y, rest) ∧
      (x = .int value → v ≤ 2 ^ 53 → y = .int v) := by
  induction n generalizing value shift bs x with
  | zero => cases h
  | succ n ih =>
    cases bs with
    | nil => cases h
    | cons b bs =>
      have hor := or_shift hvalue (b.toNat &&& 0x7f)
      have hadd {w : Nat} (hw : value + (b.toNat &&& 0x7f) * 2 ^ shift ≤ w) (hle : w ≤ 2 ^ 53) (hx : x = .int value) :
          x.add ((b.toNat &&& 0x7f) * 2 ^ shift : Nat) = .int (value + (b.toNat &&& 0x7f) * 2 ^ shift : Nat) := by
        rw [hx, Number.add, Number.ofInt_exact (by omega), Nat.cast_add]
      rw [readVarint, hor] at h
      rw [doubleVarint, if_neg (by omega)]
      by_cases hb : b < 0x80
      · rw [if_pos hb] at h
        obtain ⟨rfl, rfl⟩ := Prod.mk.inj (Except.ok.inj h)
        exact ⟨_, if_pos hb, fun hx hle => hadd (Nat.le_refl _) hle hx⟩
      · rw [if_neg hb] at h
        have hmore := le_of_readVarint h
        obtain ⟨y, hy, heq⟩ := @ih _ _ _ (x.add ((b.toNat &&& 0x7f) * 2 ^ shift : Nat)) h
          (add_lt_shift hvalue (and_mask b.toNat)) (by omega)
        exact ⟨y, (if_neg hb).trans hy, fun hx hle => heq (hadd hmore hle hx) hle⟩

end Lake
