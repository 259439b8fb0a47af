import Yataverse.Bits.Groups
import Yataverse.GraphHead.Identity
import Yataverse.Lake.Cid

/-!
# base32 and back

A base32 text has the bits of the bytes in groups of five. What is behind the last byte is dropped by a reader, and
filled up with zeros by the writer.

- `octets_eq`, `partition5_eq`: both cut bits into groups.
- `b32Decode_encode`: a text that was written reads back.
- **`b32Encode_decode`**: a text is what would be written of its bytes, exactly when its spare bits are fewer than a
  digit and zero.
-/

namespace Lake

open Js GraphHead Bits

variable {s : JsString} {u : UInt16} {buf : Bytes} {g : List Bool} {xs : List Bool}

/-! ## Digits and bytes -/

theorem ofBits_eq : ofBits g = value g := rfl

theorem byteBits_eq (b : UInt8) : byteBits b = bits 8 b.toNat := rfl

theorem fiveBits_eq (u : UInt16) : fiveBits u = bits 5 (b32.idxOf u) := rfl

theorem length_fiveBits (u : UInt16) : (fiveBits u).length = 5 := rfl

/-- The digit of five bits. -/
def digit (g : List Bool) : UInt16 := b32.getD (ofBits g) 0

theorem fiveBits_digit (hg : g.length = 5) : fiveBits (digit g) = g := by
  have hall : ∀ n < 32, b32.idxOf (b32.getD n 0) = n := by decide +kernel
  have hlt : value g < 32 := by
    have := value_lt g
    rwa [hg] at this
  rw [fiveBits_eq, digit, ofBits_eq, hall _ hlt]
  exact bits_value hg

theorem digit_fiveBits (hu : isB32 u = true) : digit (fiveBits u) = u := by
  have hall : ∀ n < 123, isB32 (UInt16.ofNat n) = true → digit (fiveBits (UInt16.ofNat n)) = UInt16.ofNat n := by
    decide +kernel
  have hback : UInt16.ofNat u.toNat = u := UInt16.ofNat_toNat
  have := hall u.toNat (Nat.lt_succ_of_le (isB32_range hu).2)
  rw [hback] at this
  exact this hu

theorem byteBits_byte (hg : g.length = 8) : byteBits (byte (value g)) = g := by
  have hlt := value_lt g
  rw [hg] at hlt
  rw [byteBits_eq, byte, UInt8.toNat_ofNat', Nat.mod_eq_of_lt hlt]
  exact bits_value hg

theorem byte_byteBits (b : UInt8) : byte (value (byteBits b)) = b := by
  rw [byteBits_eq, value_bits, Nat.mod_eq_of_lt b.toNat_lt, byte]
  exact UInt8.ofNat_toNat

/-! ## Groups -/

theorem octets_eq (xs : List Bool) : octets xs = (groups 8 xs).map fun g => byte (value g) := by
  induction xs using octets.induct with
  | case1 a b c d e f g h rest ih =>
    have hcut : groups 8 ([a, b, c, d, e, f, g, h] ++ rest) = [a, b, c, d, e, f, g, h] :: groups 8 rest :=
      groups_append (by decide) rfl
    rw [octets, ih]
    exact (congrArg (List.map fun g => byte (value g)) hcut).symm
  | case2 xs h =>
    have hlt : xs.length < 8 := by
      by_contra hle
      rcases xs with _ | ⟨a, _ | ⟨b, _ | ⟨c, _ | ⟨d, _ | ⟨e, _ | ⟨f, _ | ⟨g, _ | ⟨i, rest⟩⟩⟩⟩⟩⟩⟩⟩
      case cons.cons.cons.cons.cons.cons.cons.cons => exact h _ _ _ _ _ _ _ _ _ rfl
      all_goals exact hle (by simp)
    rw [groups_of_lt hlt, octets.eq_def]
    split
    · exact (h _ _ _ _ _ _ _ _ _ rfl).elim
    · rfl

theorem partition5_eq (xs : List Bool) : partition5 xs = groups 5 xs := by
  induction xs using partition5.induct with
  | case1 a b c d e r ih =>
    have hcut : groups 5 ([a, b, c, d, e] ++ r) = [a, b, c, d, e] :: groups 5 r := groups_append (by decide) rfl
    rw [partition5, ih]
    exact hcut.symm
  | case2 xs h =>
    have hlt : xs.length < 5 := by
      by_contra hle
      rcases xs with _ | ⟨a, _ | ⟨b, _ | ⟨c, _ | ⟨d, _ | ⟨e, r⟩⟩⟩⟩⟩
      case cons.cons.cons.cons.cons => exact h _ _ _ _ _ _ rfl
      all_goals exact hle (by simp)
    rw [groups_of_lt hlt, partition5.eq_def]
    split
    · exact (h _ _ _ _ _ _ rfl).elim
    · rfl

/-- Bits behind those of whole bytes are dropped. -/
theorem octets_append (hrest : xs.length < 8) : octets (buf.flatMap byteBits ++ xs) = buf := by
  rw [octets_eq, List.flatMap_def, groups_flatten (by decide) _ hrest, List.map_map]
  · exact (List.map_congr_left fun b _ => byte_byteBits b).trans (List.map_id _)
  · intro g hg
    obtain ⟨b, -, rfl⟩ := List.mem_map.mp hg
    exact byteBits_length b

/-- The bits of the digits that are written of groups of five. -/
theorem flatMap_fiveBits (hlen : xs.length % 5 = 0) : ((partition5 xs).map digit).flatMap fiveBits = xs := by
  obtain ⟨rest, heq, hrest, hall⟩ := exists_groups (k := 5) (by decide) xs
  have hback : (groups 5 xs).map (fun g => fiveBits (digit g)) = groups 5 xs :=
    (List.map_congr_left fun g hg => fiveBits_digit (hall g hg)).trans (List.map_id _)
  have hnil : rest = [] := by
    have := congrArg List.length heq
    rw [List.length_append, length_flatten hall] at this
    exact List.length_eq_zero_iff.mp (by omega)
  subst hnil
  rw [partition5_eq, List.flatMap_map, List.flatMap_def, hback, ← List.append_nil (groups 5 xs).flatten]
  exact heq.symm

/-! ## Texts -/

/-- The bits of a text that was written. -/
theorem bits_b32Encode (buf : Bytes) : (b32Encode buf).flatMap fiveBits = padded (buf.flatMap byteBits) :=
  flatMap_fiveBits (padded_length _).2.2

/-- **What was written reads back.** -/
theorem b32Decode_encode (buf : Bytes) : b32Decode (b32Encode buf) = buf := by
  rw [b32Decode, bits_b32Encode, padded]
  refine octets_append ?_
  rw [List.length_replicate]
  omega

/-- The bits of a text behind the last byte. -/
def spare (s : JsString) : List Bool := (s.flatMap fiveBits).drop (8 * (5 * s.length / 8))

theorem length_bits (s : JsString) : (s.flatMap fiveBits).length = 5 * s.length := by
  induction s with
  | nil => rfl
  | cons u s ih =>
    rw [List.flatMap_cons, List.length_append, ih, length_fiveBits, List.length_cons]
    omega

/-- The bits of the bytes of a text. -/
theorem bits_b32Decode (s : JsString) : (b32Decode s).flatMap byteBits = (s.flatMap fiveBits).take (8 * (5 * s.length / 8)) := by
  obtain ⟨-, -, -, hall⟩ := exists_groups (k := 8) (by decide) (s.flatMap fiveBits)
  have hback : (groups 8 (s.flatMap fiveBits)).map (fun g => byteBits (byte (value g))) = groups 8 (s.flatMap fiveBits) :=
    (List.map_congr_left fun g hg => byteBits_byte (hall g hg)).trans (List.map_id _)
  rw [b32Decode, octets_eq, List.flatMap_map, List.flatMap_def, hback, flatten_groups (by decide), length_bits]

/-- A text is what would be written of its bytes, exactly when its spare bits are fewer than a digit and zero. -/
theorem b32Encode_decode (hs : ∀ u ∈ s, isB32 u = true) :
    b32Encode (b32Decode s) = s ↔ (spare s).length < 5 ∧ ∀ b ∈ spare s, b = false := by
  have hsplit : (b32Decode s).flatMap byteBits ++ spare s = s.flatMap fiveBits := by
    rw [bits_b32Decode]
    exact List.take_append_drop ..
  constructor
  · intro h
    have hbits := congrArg (List.flatMap fiveBits) h
    rw [bits_b32Encode, ← hsplit, padded] at hbits
    rw [← List.append_cancel_left hbits]
    exact ⟨by rw [List.length_replicate]; omega, fun b hb => List.eq_of_mem_replicate hb⟩
  · rintro ⟨hlen, hzero⟩
    have htotal := congrArg List.length hsplit
    rw [List.length_append, length_bits] at htotal
    have hpadded : padded ((b32Decode s).flatMap byteBits) = s.flatMap fiveBits := by
      rw [← hsplit, padded, List.eq_replicate_of_mem hzero]
      congr 2
      omega
    rw [b32Encode, hpadded, partition5_eq, List.flatMap_def, ← List.append_nil (s.map fiveBits).flatten,
      groups_flatten (by decide) _ (by decide), List.map_map]
    · exact (List.map_congr_left fun u hu => digit_fiveBits (hs u hu)).trans (List.map_id _)
    · intro g hg
      obtain ⟨u, -, rfl⟩ := List.mem_map.mp hg
      exact length_fiveBits u

end Lake
