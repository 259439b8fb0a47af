import Yataverse.GraphHead.Canonical
import Yataverse.Fallible.Rules

/-!
# The CIDs of the lake

The tools of the lake take a CID as text and need the SHA-256 digest in it. Each has its own
reader; what they have in common is here.

- `cidV0`, `cidV1`: the two patterns, `cidRe` either of them.
- `b32Decode`, `readVarint`: base32 and variable-length numbers.
- `hexdigest`, `sha256Re`: a digest in hexadecimal.
-/

namespace Lake

open Js GraphHead

/-! ## Patterns -/

/-- `[1-9A-HJ-NP-Za-km-z]`: the base58 alphabet. -/
def isB58 (u : UInt16) : Bool := b58.contains u

/-- `CID_V0`, `cid-v0`: `Qm[1-9A-HJ-NP-Za-km-z]{44}`. -/
def cidV0 (s : JsString) : Bool := s.take 2 == js "Qm" && s.length == 46 && (s.drop 2).all isB58

/-- `CID_V1`, `cid-v1`: `b[a-z2-7]{20,200}`. -/
def cidV1 (s : JsString) : Bool :=
  s.head? == some (unit 'b') && 21 ≤ s.length && s.length ≤ 201 && (s.drop 1).all isB32

/-- `CID`, `cid-re`. -/
def cidRe (s : JsString) : Bool := cidV0 s || cidV1 s

/-- `[0-9a-f]`. -/
def isHex (u : UInt16) : Bool := inRange '0' '9' u || inRange 'a' 'f' u

/-- `SHA256`, `sha256-re`: `[0-9a-f]{64}`. -/
def sha256Re (s : JsString) : Bool := s.length == 64 && s.all isHex

/-! ## base32 -/

/-- Bits in groups of eight; the rest is dropped. -/
def octets : List Bool → Bytes
  | a :: b :: c :: d :: e :: f :: g :: h :: rest => byte (ofBits [a, b, c, d, e, f, g, h]) :: octets rest
  | _ => []

/-- The five bits of a base32 digit. -/
def fiveBits (u : UInt16) : List Bool := [4, 3, 2, 1, 0].map (b32.idxOf u).testBit

/-- `b32-decode`. -/
def b32Decode (s : JsString) : Bytes := octets (s.flatMap fiveBits)

/-- `base64.b32decode` of the upper-case text filled up with `=`: some lengths are not
those of a base32 text. -/
def pyB32Decode (s : JsString) : Option Bytes :=
  if s.length % 8 = 1 ∨ s.length % 8 = 3 ∨ s.length % 8 = 6 then none else some (b32Decode s)

/-! ## Variable-length numbers -/

/-- `_varint`, `varint`, `read_varint`: at most `n` more bytes, with the value of those
before. The result is the number and the bytes behind it. -/
def readVarint (truncated oversized : String) : Nat → Nat → Nat → Bytes → Except String (Nat × Bytes)
  | 0, _, _, _ => .error oversized
  | _ + 1, _, _, [] => .error truncated
  | n + 1, value, shift, b :: bs =>
    let value := value ||| (b.toNat &&& 0x7f) <<< shift
    if b < 0x80 then .ok (value, bs) else readVarint truncated oversized n value (shift + 7) bs

/-! ## Hexadecimal -/

/-- `hexdigest()`. -/
def hexdigest (bs : Bytes) : JsString := bs.flatMap fun b => [hexDigit (b.toNat / 16), hexDigit (b.toNat % 16)]

theorem isHex_hexDigit {n : Nat} (h : n < 16) : isHex (hexDigit n) = true := by
  have hall : ∀ n < 16, isHex (hexDigit n) = true := by decide
  exact hall n h

theorem hexdigest_length (bs : Bytes) : (hexdigest bs).length = 2 * bs.length := by
  induction bs with
  | nil => rfl
  | cons b bs ih =>
    have : hexdigest (b :: bs) = [hexDigit (b.toNat / 16), hexDigit (b.toNat % 16)] ++ hexdigest bs := rfl
    rw [this, List.length_append, ih, List.length_cons]
    simp only [List.length_cons, List.length_nil]
    omega

/-- A digest in hexadecimal. -/
theorem sha256Re_hexdigest {bs : Bytes} (h : bs.length = 32) : sha256Re (hexdigest bs) = true := by
  have hall : (hexdigest bs).all isHex = true := by
    simp only [hexdigest, List.all_eq_true, List.mem_flatMap]
    rintro u ⟨b, -, hu⟩
    have hb : b.toNat < 256 := b.toNat_lt
    obtain rfl | hu := List.mem_cons.mp hu
    · exact isHex_hexDigit (by omega)
    · obtain rfl := List.mem_singleton.mp hu
      exact isHex_hexDigit (by omega)
  rw [sha256Re, hexdigest_length, h, hall]
  rfl

/-- No CID contains a dot. -/
theorem dot_not_mem {s : JsString} (h : cidRe s = true) : unit '.' ∉ s := by
  have hb58 : isB58 (unit '.') = false := by decide
  have hb32 : isB32 (unit '.') = false := by decide
  intro hd
  obtain h | h := Bool.or_eq_true_iff.mp h
  · simp only [cidV0, Bool.and_eq_true, beq_iff_eq, List.all_eq_true] at h
    rw [← List.take_append_drop 2 s, h.1.1] at hd
    obtain hd | hd := List.mem_append.mp hd
    · revert hd
      decide
    · rw [h.2 _ hd] at hb58
      cases hb58
  · simp only [cidV1, Bool.and_eq_true, beq_iff_eq, List.all_eq_true] at h
    obtain ⟨⟨⟨hhead, -⟩, -⟩, hall⟩ := h
    cases s with
    | nil => cases hhead
    | cons u s =>
      obtain rfl := Option.some.inj hhead
      obtain hd | hd := List.mem_cons.mp hd
      · revert hd
        decide
      · rw [hall _ hd] at hb32
        cases hb32

end Lake
