import Yataverse.Js.ByteLines
import Yataverse.Js.Order
import Yataverse.Js.Parse

/-!
# Decoding what was encoded

- `readBytes_utf8Point`: the bytes of a code point are read as its units.
- **`WellFormed.ofUtf8_utf8`**: a string without unpaired surrogates is decoded from its bytes.
- `WellFormed.stringify_append`: `JSON.stringify` leaves no surrogate unpaired.
-/

namespace Js

variable {bs : Bytes} {n : Nat} {u v : UInt16} {s t : JsString}

/-! ## Code points -/

/-- A code point that is no surrogate. -/
def Scalar (n : Nat) : Prop := n < 0xd800 ∨ 0xe000 ≤ n ∧ n < 0x110000

theorem byte_toNat (h : n < 256) : (byte n).toNat = n := by
  rw [byte, UInt8.toNat_ofNat']
  exact Nat.mod_eq_of_lt h

/-- A byte that continues a code point. -/
theorem readByte_some {missing bits lo hi b : Nat} (hlo : lo ≤ b) (hhi : b ≤ hi) :
    readByte (some ⟨missing, bits, lo, hi⟩) b =
      if missing = 1 then (none, unitsOf (bits * 0x40 + (b - 0x80)))
      else (some ⟨missing - 1, bits * 0x40 + (b - 0x80), 0x80, 0xbf⟩, []) := by
  rw [readByte, if_pos]
  rw [Bool.and_eq_true, decide_eq_true_iff, decide_eq_true_iff]
  exact ⟨hlo, hhi⟩

theorem readFirst_two {b : Nat} (hlo : 0xc2 ≤ b) (hhi : b ≤ 0xdf) :
    readFirst b = (some ⟨1, b - 0xc0, 0x80, 0xbf⟩, []) := by
  unfold readFirst
  rw [if_neg (by omega), if_pos (by rw [Bool.and_eq_true, decide_eq_true_iff, decide_eq_true_iff]; omega)]

/-- The first of three bytes, and what the second may be. -/
theorem readFirst_three {b c : Nat} (hlo : 0xe0 ≤ b) (hhi : b ≤ 0xef) (hc : 0x80 ≤ c) (hc' : c ≤ 0xbf)
    (hshort : b = 0xe0 → 0xa0 ≤ c) (hsurrogate : b = 0xed → c ≤ 0x9f) :
    ∃ lo hi, readFirst b = (some ⟨2, b - 0xe0, lo, hi⟩, []) ∧ lo ≤ c ∧ c ≤ hi := by
  unfold readFirst
  split_ifs with h1 h2 h3 h4 h5
  · omega
  · rw [Bool.and_eq_true, decide_eq_true_iff, decide_eq_true_iff] at h2
    omega
  · subst h3
    exact ⟨_, _, rfl, hshort rfl, hc'⟩
  · subst h4
    exact ⟨_, _, rfl, hc, hsurrogate rfl⟩
  · exact ⟨_, _, rfl, hc, hc'⟩
  all_goals
    rw [Bool.and_eq_true, decide_eq_true_iff, decide_eq_true_iff] at h5
    omega

/-- The first of four bytes, and what the second may be. -/
theorem readFirst_four {b c : Nat} (hlo : 0xf0 ≤ b) (hhi : b ≤ 0xf4) (hc : 0x80 ≤ c) (hc' : c ≤ 0xbf)
    (hshort : b = 0xf0 → 0x90 ≤ c) (hlarge : b = 0xf4 → c ≤ 0x8f) :
    ∃ lo hi, readFirst b = (some ⟨3, b - 0xf0, lo, hi⟩, []) ∧ lo ≤ c ∧ c ≤ hi := by
  unfold readFirst
  split_ifs with h1 h2 h3 h4 h5 h6 h7 h8
  · omega
  · rw [Bool.and_eq_true, decide_eq_true_iff, decide_eq_true_iff] at h2
    omega
  · omega
  · omega
  · rw [Bool.and_eq_true, decide_eq_true_iff, decide_eq_true_iff] at h5
    omega
  · subst h6
    exact ⟨_, _, rfl, hshort rfl, hc'⟩
  · subst h7
    exact ⟨_, _, rfl, hc, hlarge rfl⟩
  · exact ⟨_, _, rfl, hc, hc'⟩
  · rw [Bool.and_eq_true, decide_eq_true_iff, decide_eq_true_iff] at h8
    omega

/-- **The bytes of a code point** are read as its units. -/
theorem readBytes_utf8Point (h : Scalar n) : readBytes none (utf8Point n ++ bs) = unitsOf n ++ readBytes none bs := by
  have hmax : n < 0x110000 := h.elim (fun h => by omega) (fun h => h.2)
  unfold utf8Point
  split_ifs with h1 h2 h3
  · have hfirst : readByte none n = (none, unitsOf n) := by
      rw [readByte, readFirst, if_pos h1, unitsOf, if_pos (by omega)]
    rw [List.singleton_append, readBytes_cons, byte_toNat (by omega), hfirst]
  · rw [List.cons_append, List.singleton_append, readBytes_cons, byte_toNat (by omega), readByte,
      readFirst_two (by omega) (by omega), List.nil_append, readBytes_cons, byte_toNat (by omega),
      readByte_some (by omega) (by omega), if_pos rfl]
    have hbits : (0xc0 + n / 0x40 - 0xc0) * 0x40 + (0x80 + n % 0x40 - 0x80) = n := by omega
    rw [hbits]
  · obtain ⟨lo, hi, hfirst, hlo, hhi⟩ := readFirst_three (b := 0xe0 + n / 0x1000) (c := 0x80 + n / 0x40 % 0x40)
      (by omega) (by omega) (by omega) (by omega) (by omega) (by unfold Scalar at h; omega)
    rw [List.cons_append, List.cons_append, List.singleton_append, readBytes_cons, byte_toNat (by omega), readByte,
      hfirst, List.nil_append, readBytes_cons, byte_toNat (by omega), readByte_some hlo hhi, if_neg (by decide),
      List.nil_append, readBytes_cons, byte_toNat (by omega), readByte_some (by omega) (by omega), if_pos rfl]
    have hbits : ((0xe0 + n / 0x1000 - 0xe0) * 0x40 + (0x80 + n / 0x40 % 0x40 - 0x80)) * 0x40 +
        (0x80 + n % 0x40 - 0x80) = n := by omega
    rw [hbits]
  · obtain ⟨lo, hi, hfirst, hlo, hhi⟩ := readFirst_four (b := 0xf0 + n / 0x40000) (c := 0x80 + n / 0x1000 % 0x40)
      (by omega) (by omega) (by omega) (by omega) (by omega) (by omega)
    rw [List.cons_append, List.cons_append, List.cons_append, List.singleton_append, readBytes_cons,
      byte_toNat (by omega), readByte, hfirst, List.nil_append, readBytes_cons, byte_toNat (by omega),
      readByte_some hlo hhi, if_neg (by decide), List.nil_append, readBytes_cons, byte_toNat (by omega),
      readByte_some (by omega) (by omega), if_neg (by decide), List.nil_append, readBytes_cons, byte_toNat (by omega),
      readByte_some (by omega) (by omega), if_pos rfl]
    have hbits : (((0xf0 + n / 0x40000 - 0xf0) * 0x40 + (0x80 + n / 0x1000 % 0x40 - 0x80)) * 0x40 +
        (0x80 + n / 0x40 % 0x40 - 0x80)) * 0x40 + (0x80 + n % 0x40 - 0x80) = n := by omega
    rw [hbits]

/-! ## Strings -/

theorem scalar_of_lone (h : (isHigh u || isLow u) = false) : lonePoint u = u.toNat ∧ Scalar u.toNat := by
  have hu : u.toNat < 65536 := u.toNat_lt
  have h₁ : (0xd800 : UInt16).toNat = 0xd800 := rfl
  have h₂ : (0xdbff : UInt16).toNat = 0xdbff := rfl
  have h₃ : (0xdc00 : UInt16).toNat = 0xdc00 := rfl
  have h₄ : (0xdfff : UInt16).toNat = 0xdfff := rfl
  refine ⟨by rw [lonePoint, h]; rfl, ?_⟩
  simp only [isHigh, isLow, Bool.or_eq_false_iff, Bool.and_eq_false_iff, decide_eq_false_iff_not,
    UInt16.le_iff_toNat_le] at h
  unfold Scalar
  omega

theorem unitsOf_unit (u : UInt16) : unitsOf u.toNat = [u] := by
  have hu : u.toNat < 65536 := u.toNat_lt
  rw [unitsOf, if_pos hu, Nat.toUInt16_eq, UInt16.ofNat_toNat]

/-- The code point of a surrogate pair. -/
theorem unitsOf_pair (hu : isHigh u = true) (hv : isLow v = true) :
    Scalar (0x10000 + (u.toNat - 0xd800) * 0x400 + (v.toNat - 0xdc00)) ∧
      unitsOf (0x10000 + (u.toNat - 0xd800) * 0x400 + (v.toNat - 0xdc00)) = [u, v] := by
  have h₁ : (0xd800 : UInt16).toNat = 0xd800 := rfl
  have h₂ : (0xdbff : UInt16).toNat = 0xdbff := rfl
  have h₃ : (0xdc00 : UInt16).toNat = 0xdc00 := rfl
  have h₄ : (0xdfff : UInt16).toNat = 0xdfff := rfl
  simp only [isHigh, isLow, Bool.and_eq_true, decide_eq_true_eq, UInt16.le_iff_toNat_le] at hu hv
  refine ⟨by unfold Scalar; omega, ?_⟩
  have hquot : 0xd800 + (0x10000 + (u.toNat - 0xd800) * 0x400 + (v.toNat - 0xdc00) - 0x10000) / 0x400 = u.toNat := by
    omega
  have hrem : 0xdc00 + (0x10000 + (u.toNat - 0xd800) * 0x400 + (v.toNat - 0xdc00) - 0x10000) % 0x400 = v.toNat := by
    omega
  rw [unitsOf, if_neg (by omega), hquot, hrem, Nat.toUInt16_eq, UInt16.ofNat_toNat, Nat.toUInt16_eq,
    UInt16.ofNat_toNat]

/-- **What is encoded is decoded**, where no surrogate is unpaired. -/
theorem WellFormed.ofUtf8_utf8 : ∀ {s : JsString}, WellFormed s → ofUtf8 (utf8 s) = s
  | [], _ => rfl
  | [u], h => by
    obtain ⟨hpoint, hscalar⟩ := scalar_of_lone h
    have hread := @readBytes_utf8Point [] _ hscalar
    rw [ofUtf8, utf8, points, List.flatMap_singleton, hpoint]
    rw [List.append_nil] at hread
    rw [hread, unitsOf_unit]
    rfl
  | u :: v :: rest, h => by
    rw [WellFormed] at h
    by_cases hpair : (isHigh u && isLow v) = true
    · rw [if_pos hpair] at h
      obtain ⟨hu, hv⟩ := Bool.and_eq_true_iff.mp hpair
      obtain ⟨hscalar, hunits⟩ := unitsOf_pair hu hv
      have ih : readBytes none ((points rest).flatMap utf8Point) = rest := WellFormed.ofUtf8_utf8 h
      rw [ofUtf8, utf8, points, if_pos hpair, List.flatMap_cons, readBytes_utf8Point hscalar, hunits, ih]
      rfl
    · rw [if_neg hpair] at h
      obtain ⟨hpoint, hscalar⟩ := scalar_of_lone h.1
      have ih : readBytes none ((points (v :: rest)).flatMap utf8Point) = v :: rest := WellFormed.ofUtf8_utf8 h.2
      rw [ofUtf8, utf8, points, if_neg hpair, List.flatMap_cons, hpoint, readBytes_utf8Point hscalar, unitsOf_unit, ih]
      rfl

/-! ## Quoted strings -/

theorem WellFormed.cons (hu : (isHigh u || isLow u) = false) (ht : WellFormed t) : WellFormed (u :: t) := by
  cases t with
  | nil => exact hu
  | cons v t =>
    have hpair : ¬ (isHigh u && isLow v) = true := by
      rw [Bool.or_eq_false_iff] at hu
      rw [hu.1]
      exact Bool.false_ne_true
    rw [WellFormed, if_neg hpair]
    exact ⟨hu, ht⟩

/-- Units that are no surrogates stand anywhere. -/
theorem WellFormed.append (hs : ∀ u ∈ s, (isHigh u || isLow u) = false) (ht : WellFormed t) : WellFormed (s ++ t) := by
  induction s with
  | nil => exact ht
  | cons u s ih =>
    obtain ⟨hu, hs⟩ := List.forall_mem_cons.mp hs
    exact (ih hs).cons hu

theorem not_surrogate_of_ascii (h : Ascii s) : ∀ u ∈ s, (isHigh u || isLow u) = false := by
  intro u hu
  have hlt := h u hu
  have h₁ : (0xd800 : UInt16).toNat = 0xd800 := rfl
  have h₃ : (0xdc00 : UInt16).toNat = 0xdc00 := rfl
  have h₅ : (0x80 : UInt16).toNat = 0x80 := rfl
  rw [UInt16.lt_iff_toNat_lt] at hlt
  simp only [isHigh, isLow, Bool.or_eq_false_iff, Bool.and_eq_false_iff, decide_eq_false_iff_not,
    UInt16.le_iff_toNat_le]
  omega

theorem quoteUnit_not_surrogate (u : UInt16) : ∀ w ∈ quoteUnit u, (isHigh w || isLow w) = false := by
  unfold quoteUnit
  split_ifs with h₁ h₂ h₃ h₄ h₅ h₆ h₇ h₈
  all_goals first
    | exact not_surrogate_of_ascii (by decide)
    | skip
  · refine not_surrogate_of_ascii ?_
    have hhex : ∀ n < 16, hexDigit n < 0x80 := by decide
    have hu : u.toNat < 65536 := u.toNat_lt
    simp only [unicodeEscape, hex4, Ascii, List.forall_mem_cons, List.not_mem_nil, false_imp_iff, implies_true, and_true]
    exact ⟨by decide, by decide, hhex _ (by omega), hhex _ (by omega), hhex _ (by omega), hhex _ (by omega)⟩
  · rintro w hw
    rw [List.mem_singleton.mp hw]
    rw [Bool.or_eq_true, Bool.or_eq_true, not_or, not_or] at h₈
    rw [Bool.or_eq_false_iff]
    exact ⟨Bool.eq_false_of_not_eq_true h₈.1.2, Bool.eq_false_of_not_eq_true h₈.2⟩

theorem WellFormed.quoteUnits_append : ∀ (s : JsString) {t : JsString}, WellFormed t → WellFormed (quoteUnits s ++ t)
  | [], _, ht => ht
  | [u], _, ht => WellFormed.append (quoteUnit_not_surrogate u) ht
  | u :: v :: rest, t, ht => by
    rw [quoteUnits]
    split_ifs with hpair
    · rw [List.cons_append, List.cons_append, WellFormed, if_pos hpair]
      exact WellFormed.quoteUnits_append rest ht
    · rw [List.append_assoc]
      exact WellFormed.append (quoteUnit_not_surrogate u) (WellFormed.quoteUnits_append (v :: rest) ht)

/-- **`JSON.stringify` leaves no surrogate unpaired.** -/
theorem WellFormed.stringify_append (s : JsString) (ht : WellFormed t) : WellFormed (stringify s ++ t) := by
  have hquote : (isHigh (unit '"') || isLow (unit '"')) = false := by decide
  rw [stringify, List.cons_append, List.cons_append, List.append_assoc]
  refine WellFormed.cons hquote (WellFormed.quoteUnits_append s ?_)
  exact WellFormed.cons hquote ht

end Js
