import Mathlib.Data.List.Basic
import Mathlib.Data.Nat.Bitwise
import Mathlib.Tactic.Ring

/-!
# Bits in groups

Bytes and the digits of a radix that is a power of two are the same bits, in groups of another size. The bits of a
group are written with the most significant one first.

- `value`, `bits`: a group as a number, and back.
- `groups`: the groups of one size; what is too short for one is dropped.
- `groups_flatten`, `flatten_groups`: groups are cut where they were joined.
- `push`, `pop`, `drop_value`: a number as a queue of bits.
-/

namespace Bits

variable {α : Type*} {k w n v i : Nat} {xs ys x rest : List α} {xss : List (List α)} {as bs : List Bool}

/-! ## Numbers -/

/-- The number that bits write. -/
def value (bs : List Bool) : Nat := bs.foldl (fun n b => 2 * n + b.toNat) 0

/-- The low `w` bits of a number. -/
def bits (w n : Nat) : List Bool := (List.range w).reverse.map n.testBit

theorem foldl_eq (bs : List Bool) : bs.foldl (fun n b => 2 * n + b.toNat) n = n * 2 ^ bs.length + value bs := by
  induction bs generalizing n with
  | nil => simp [value]
  | cons b bs ih =>
    rw [value, List.foldl_cons, List.foldl_cons, ih, ih, List.length_cons, pow_succ]
    ring

theorem value_append : value (as ++ bs) = value as * 2 ^ bs.length + value bs := by
  rw [value, List.foldl_append, foldl_eq]
  rfl

theorem value_cons (b : Bool) : value (b :: bs) = b.toNat * 2 ^ bs.length + value bs := by
  have h : value ([b] ++ bs) = value [b] * 2 ^ bs.length + value bs := value_append
  rwa [show value [b] = b.toNat by simp [value]] at h

theorem value_lt (bs : List Bool) : value bs < 2 ^ bs.length := by
  induction bs with
  | nil => exact Nat.one_pos
  | cons b bs ih =>
    have hb : b.toNat ≤ 1 := Bool.toNat_le b
    have hmul : b.toNat * 2 ^ bs.length ≤ 1 * 2 ^ bs.length := Nat.mul_le_mul_right _ hb
    rw [value_cons, List.length_cons, pow_succ]
    omega

@[simp] theorem length_bits : (bits w n).length = w := by simp [bits]

theorem bits_succ : bits (w + 1) n = n.testBit w :: bits w n := by
  rw [bits, List.range_succ, List.reverse_append]
  rfl

/-- The low bits as a number. -/
theorem value_bits : value (bits w n) = n % 2 ^ w := by
  induction w with
  | zero => rw [pow_zero, Nat.mod_one]; rfl
  | succ w ih =>
    rw [bits_succ, value_cons, ih, length_bits, Nat.mod_pow_succ, Nat.testBit_eq_decide_div_mod_eq]
    rcases Nat.mod_two_eq_zero_or_one (n / 2 ^ w) with h | h
    · rw [h]
      simp
    · rw [h]
      simp [Nat.add_comm]

/-- Groups of one size are told apart by their numbers. -/
theorem value_injective (hlen : as.length = bs.length) (h : value as = value bs) : as = bs := by
  induction as generalizing bs with
  | nil => exact (List.length_eq_zero_iff.mp hlen.symm).symm
  | cons a as ih =>
    cases bs with
    | nil => cases hlen
    | cons b bs =>
      have hlen' : as.length = bs.length := Nat.succ.inj hlen
      rw [value_cons, value_cons, hlen'] at h
      have ha := value_lt as
      have hb := value_lt bs
      rw [hlen'] at ha
      have hhead : a = b := by
        cases a <;> cases b <;> simp at h ⊢ <;> omega
      subst hhead
      rw [ih hlen' (Nat.add_left_cancel h)]

theorem bits_value (h : bs.length = w) : bits w (value bs) = bs := by
  subst h
  exact value_injective length_bits (value_bits.trans (Nat.mod_eq_of_lt (value_lt bs)))

/-! ## Groups -/

/-- The groups of `k` from the front; the rest is dropped. -/
def groups (k : Nat) (xs : List α) : List (List α) :=
  if _h : 0 < k ∧ k ≤ xs.length then xs.take k :: groups k (xs.drop k) else []
termination_by xs.length
decreasing_by
  rw [List.length_drop]
  omega

theorem groups_of_lt (h : xs.length < k) : groups k xs = [] := by
  rw [groups, dif_neg fun hk => absurd hk.2 (Nat.not_le.mpr h)]

theorem groups_append (hk : 0 < k) (hx : x.length = k) : groups k (x ++ xs) = x :: groups k xs := by
  rw [groups, dif_pos ⟨hk, by rw [List.length_append]; omega⟩, List.take_left' hx, List.drop_left' hx]

/-- Groups that are joined, with less than a group behind them, are cut where they were joined. -/
theorem groups_flatten (hk : 0 < k) (h : ∀ x ∈ xss, x.length = k) (hrest : rest.length < k) :
    groups k (xss.flatten ++ rest) = xss := by
  induction xss with
  | nil => exact groups_of_lt hrest
  | cons x xss ih =>
    obtain ⟨hx, h⟩ := List.forall_mem_cons.mp h
    rw [List.flatten_cons, List.append_assoc, groups_append hk hx, ih h]

/-- Everything is groups, and less than a group behind them. -/
theorem exists_groups (hk : 0 < k) (xs : List α) : ∃ rest, xs = (groups k xs).flatten ++ rest ∧ rest.length < k ∧
    ∀ x ∈ groups k xs, x.length = k := by
  fun_induction groups k xs with
  | case1 xs h ih =>
    obtain ⟨rest, heq, hrest, hall⟩ := ih
    refine ⟨rest, ?_, hrest, List.forall_mem_cons.mpr ⟨List.length_take_of_le h.2, hall⟩⟩
    rw [List.flatten_cons, List.append_assoc, ← heq, List.take_append_drop]
  | case2 xs h =>
    have hlt : xs.length < k := by
      rcases not_and_or.mp h with h | h
      · exact absurd hk h
      · exact Nat.lt_of_not_le h
    exact ⟨xs, rfl, hlt, fun x hx => absurd hx List.not_mem_nil⟩

theorem length_flatten (h : ∀ x ∈ xss, x.length = k) : xss.flatten.length = k * xss.length := by
  induction xss with
  | nil => rfl
  | cons x xss ih =>
    obtain ⟨hx, h⟩ := List.forall_mem_cons.mp h
    rw [List.flatten_cons, List.length_append, ih h, hx, List.length_cons, Nat.mul_succ, Nat.add_comm]

theorem length_groups (hk : 0 < k) : (groups k xs).length = xs.length / k := by
  obtain ⟨rest, heq, hrest, hall⟩ := exists_groups hk xs
  have hlen := congrArg List.length heq
  rw [List.length_append, length_flatten hall] at hlen
  rw [hlen, Nat.mul_add_div hk, Nat.div_eq_of_lt hrest, Nat.add_zero]

/-- The groups, joined, are the front of the list. -/
theorem flatten_groups (hk : 0 < k) : (groups k xs).flatten = xs.take (k * (xs.length / k)) := by
  obtain ⟨rest, heq, hrest, hall⟩ := exists_groups hk xs
  have hlen : (groups k xs).flatten.length = k * (xs.length / k) := by rw [length_flatten hall, length_groups hk]
  have htake : xs.take (k * (xs.length / k)) = ((groups k xs).flatten ++ rest).take (k * (xs.length / k)) :=
    congrArg (List.take _) heq
  rw [htake, List.take_left' hlen]

/-! ## A number as a queue of bits -/

/-- `w` more bits behind those that are in the queue. What is above them does not matter. -/
theorem push {m : Nat} (hle : bs.length ≤ m) (hv : v % 2 ^ bs.length = value bs) (hi : i < 2 ^ w) :
    (v % 2 ^ m * 2 ^ w + i) % 2 ^ (bs.length + w) = value (bs ++ bits w i) := by
  have hmod : v % 2 ^ m % 2 ^ bs.length = value bs := by rw [Nat.mod_mod_of_dvd _ (Nat.pow_dvd_pow 2 hle), hv]
  rw [value_append, length_bits, value_bits, Nat.mod_eq_of_lt hi, ← hmod]
  generalize v % 2 ^ m = u
  have hlt : u % 2 ^ bs.length * 2 ^ w + i < 2 ^ (bs.length + w) := by
    have hu : u % 2 ^ bs.length < 2 ^ bs.length := Nat.mod_lt _ (Nat.two_pow_pos _)
    calc u % 2 ^ bs.length * 2 ^ w + i < u % 2 ^ bs.length * 2 ^ w + 2 ^ w := Nat.add_lt_add_left hi _
      _ = (u % 2 ^ bs.length + 1) * 2 ^ w := (Nat.succ_mul _ _).symm
      _ ≤ 2 ^ bs.length * 2 ^ w := Nat.mul_le_mul_right _ hu
      _ = 2 ^ (bs.length + w) := (pow_add 2 _ _).symm
  have hsplit : u * 2 ^ w + i = 2 ^ (bs.length + w) * (u / 2 ^ bs.length) + (u % 2 ^ bs.length * 2 ^ w + i) := by
    conv_lhs => rw [← Nat.div_add_mod u (2 ^ bs.length)]
    rw [pow_add]
    ring
  rw [hsplit, Nat.mul_add_mod, Nat.mod_eq_of_lt hlt]

/-- The bits in front. -/
theorem pop (hle : k ≤ bs.length) (hv : v % 2 ^ bs.length = value bs) :
    v / 2 ^ (bs.length - k) % 2 ^ k = value (bs.take k) := by
  have hsplit : value bs = value (bs.take k) * 2 ^ (bs.length - k) + value (bs.drop k) := by
    rw [← List.length_drop, ← value_append, List.take_append_drop]
  have hlow : value (bs.drop k) < 2 ^ (bs.length - k) := by
    rw [← List.length_drop]
    exact value_lt _
  have hpow : 2 ^ bs.length = 2 ^ (bs.length - k) * 2 ^ k := by rw [← pow_add, Nat.sub_add_cancel hle]
  rw [← Nat.mod_mul_right_div_self, ← hpow, hv, hsplit, Nat.mul_comm, Nat.mul_add_div (Nat.two_pow_pos _),
    Nat.div_eq_of_lt hlow, Nat.add_zero]

/-- The bits behind them. -/
theorem drop_value (hv : v % 2 ^ bs.length = value bs) : v % 2 ^ (bs.drop k).length = value (bs.drop k) := by
  have hsplit : value bs = value (bs.take k) * 2 ^ (bs.drop k).length + value (bs.drop k) := by
    rw [← value_append, List.take_append_drop]
  have hdvd : 2 ^ (bs.drop k).length ∣ 2 ^ bs.length := by
    rw [List.length_drop]
    exact Nat.pow_dvd_pow 2 (Nat.sub_le _ _)
  rw [← Nat.mod_mod_of_dvd v hdvd, hv, hsplit, Nat.mul_comm, Nat.mul_add_mod, Nat.mod_eq_of_lt (value_lt _)]

end Bits
