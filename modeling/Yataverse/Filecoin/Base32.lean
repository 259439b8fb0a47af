import Yataverse.BlockIngest.Address
import Yataverse.Filecoin.Archive

/-!
# The base32 of four tools

The archive writes base32 from a buffer of bits, `graph_head` from a string of them. `block_ingest` reads it with a
buffer, the raw store from a string.

- `base32_queue`, `base32_eq`: the writer with a buffer writes what the other one writes.
- `hexInts_hexdigest`, `hexdigest_hexInts`: a digest in hexadecimal and back.
- **`base32_agree`**: every text reads back everywhere, so that the archive's CID is the raw CID of the bytes.
-/

namespace Filecoin

open Js GraphHead Bits

/-- The check of `car-cid`. -/
def checkedCarCid (sha256 : JsString) : Except String JsString :=
  if sha256Hex sha256 then .ok (carCid sha256) else .error "filecoin-archive: invalid sha256"

/-- `b32-decode` of `raw_block_store` -/
def rawB32Decode (text : JsString) : Except String Bytes :=
  if text.any fun u => !b32.contains u then .error "invalid CID base32"
  else .ok (Lake.octets (text.flatMap Lake.fiveBits))

variable {bytes buf digest : Bytes} {buffer bits : Nat} {q xs : List Bool} {s sha256 : JsString} {u : UInt16}

/-! ## The buffer -/

theorem padded_append (h : q.length % 5 = 0) (xs : List Bool) : padded (q ++ xs) = q ++ padded xs := by
  rw [padded, padded, List.append_assoc, List.length_append]
  congr 3
  omega

/-- The text of the bits in the buffer and of those behind them. -/
def textOf (bits : List Bool) : JsString := (partition5 (padded bits)).map Lake.digit

/-- A digit that is written, and the bits behind it. -/
theorem textOf_take_drop (h : 5 ≤ q.length) (xs : List Bool) :
    textOf (q ++ xs) = Lake.digit (q.take 5) :: textOf (q.drop 5 ++ xs) := by
  have hsplit : q ++ xs = q.take 5 ++ (q.drop 5 ++ xs) := by rw [← List.append_assoc, List.take_append_drop]
  have htake : (q.take 5).length = 5 := List.length_take_of_le h
  rw [hsplit, textOf, padded_append (by rw [htake]), Lake.partition5_eq, groups_append (by decide) htake, List.map_cons,
    ← Lake.partition5_eq]
  rfl

/-- The digit in front of the buffer. -/
theorem shift_value (h : 5 ≤ q.length) : value q >>> (q.length - 5) = value (q.take 5) := by
  have hpop := pop (k := 5) h (Nat.mod_eq_of_lt (value_lt q))
  have hlt : value q / 2 ^ (q.length - 5) < 2 ^ 5 := by
    refine Nat.div_lt_of_lt_mul ?_
    rw [← pow_add, Nat.sub_add_cancel h]
    exact value_lt q
  rw [Nat.shiftRight_eq_div_pow, ← hpop, Nat.mod_eq_of_lt hlt]

/-- The bits behind it. -/
theorem mask_value (q : List Bool) : value q &&& (1 <<< (q.length - 5) - 1) = value (q.drop 5) := by
  rw [Nat.one_shiftLeft, Nat.and_two_pow_sub_one_eq_mod, ← List.length_drop]
  exact drop_value (Nat.mod_eq_of_lt (value_lt q))

/-- A byte behind the buffer. -/
theorem push_value (q : List Bool) (b : UInt8) : value q <<< 8 ||| b.toNat = value (q ++ byteBits b) := by
  have hbits : (byteBits b).length = 8 := byteBits_length b
  rw [← Nat.shiftLeft_add_eq_or_of_lt b.toNat_lt, Nat.shiftLeft_eq, value_append, hbits, Lake.byteBits_eq, value_bits,
    Nat.mod_eq_of_lt b.toNat_lt]

/-- The last digit, filled up with zeros. -/
theorem textOf_short (hpos : 0 < q.length) (hlt : q.length < 5) :
    textOf q = [base32Alphabet.getD (value q <<< (5 - q.length)) 0] := by
  have hlen : (q ++ List.replicate (5 - q.length) false).length = 5 := by
    rw [List.length_append, List.length_replicate]
    omega
  have hpadded : padded q = q ++ List.replicate (5 - q.length) false := by
    rw [padded, Nat.mod_eq_of_lt hlt, Nat.mod_eq_of_lt (by omega)]
  have hzeros (k : Nat) : value (List.replicate k false) = 0 := by
    induction k with
    | zero => rfl
    | succ k ih => rw [List.replicate_succ, value_cons, ih, Bool.toNat_false, Nat.zero_mul]
  have hvalue : value (q ++ List.replicate (5 - q.length) false) = value q <<< (5 - q.length) := by
    rw [value_append, hzeros, List.length_replicate, Nat.add_zero, Nat.shiftLeft_eq]
  have hgroup : groups 5 (q ++ List.replicate (5 - q.length) false ++ []) = [q ++ List.replicate (5 - q.length) false] := by
    rw [groups_append (by decide) hlen, groups_of_lt (by decide)]
  rw [List.append_nil] at hgroup
  rw [textOf, hpadded, Lake.partition5_eq, hgroup, ← hvalue]
  rfl

/-- The writer with the bits `q` in its buffer. -/
theorem base32_queue (hlen : q.length = bits) (hvalue : value q = buffer) :
    base32 bytes buffer bits = textOf (q ++ bytes.flatMap byteBits) := by
  fun_induction base32 bytes buffer bits generalizing q with
  | case1 bytes buffer bits hfull shift =>
    rename_i ih
    subst hlen hvalue
    rw [textOf_take_drop hfull, ih List.length_drop (mask_value q).symm, shift_value hfull]
    rfl
  | case2 buffer bits hless b bytes ih =>
    subst hlen hvalue
    have hlen : (q ++ byteBits b).length = q.length + 8 := List.length_append
    rw [ih hlen (push_value q b).symm, List.flatMap_cons, List.append_assoc]
  | case3 buffer bits hless hpos =>
    subst hlen hvalue
    rw [List.flatMap_nil, List.append_nil, textOf_short hpos (Nat.lt_of_not_le hless)]
  | case4 buffer bits hless hzero =>
    subst hlen
    rw [List.eq_nil_of_length_eq_zero (Nat.eq_zero_of_not_pos hzero)]
    rfl

/-- **The writer with a buffer writes what the other one writes.** -/
theorem base32_eq (buf : Bytes) : base32 buf 0 0 = b32Encode buf := @base32_queue buf 0 0 [] rfl rfl

/-! ## Hexadecimal -/

theorem hexInts_hexdigest (digest : Bytes) : hexInts (Lake.hexdigest digest) = digest := by
  induction digest with
  | nil => rfl
  | cons b digest ih =>
    have hb : b.toNat < 256 := b.toNat_lt
    have hbyte : byte (b.toNat / 16 * 16 + b.toNat % 16) = b := by
      rw [Nat.div_add_mod']
      exact UInt8.ofNat_toNat
    have hcons : Lake.hexdigest (b :: digest) =
        hexDigit (b.toNat / 16) :: hexDigit (b.toNat % 16) :: Lake.hexdigest digest := rfl
    rw [hcons, hexInts, ih, Json.hexValue_hexDigit (by omega), Json.hexValue_hexDigit (by omega)]
    exact congrArg (· :: digest) hbyte

/-- A digit of `sha256-pattern` is that of its value. -/
theorem hexDigit_hexValue (h : (inRange '0' '9' u || inRange 'a' 'f' u) = true) :
    (Json.hexValue u).getD 0 < 16 ∧ hexDigit ((Json.hexValue u).getD 0) = u := by
  have hall : ∀ n < 103, (inRange '0' '9' (UInt16.ofNat n) || inRange 'a' 'f' (UInt16.ofNat n)) = true →
      (Json.hexValue (UInt16.ofNat n)).getD 0 < 16 ∧ hexDigit ((Json.hexValue (UInt16.ofNat n)).getD 0) = UInt16.ofNat n := by
    decide +kernel
  have hlt : u.toNat < 103 := by
    have h9 : (unit '9').toNat = 57 := by decide
    have hf : (unit 'f').toNat = 102 := by decide
    simp only [inRange, Bool.or_eq_true, Bool.and_eq_true, decide_eq_true_eq, UInt16.le_iff_toNat_le] at h
    omega
  have hback : UInt16.ofNat u.toNat = u := UInt16.ofNat_toNat
  have hu := hall u.toNat hlt
  rw [hback] at hu
  exact hu h

theorem hexdigest_hexInts (heven : s.length % 2 = 0)
    (h : ∀ u ∈ s, (inRange '0' '9' u || inRange 'a' 'f' u) = true) : Lake.hexdigest (hexInts s) = s := by
  fun_induction hexInts s with
  | case1 a b rest ih =>
    obtain ⟨ha, h⟩ := List.forall_mem_cons.mp h
    obtain ⟨hb, hrest⟩ := List.forall_mem_cons.mp h
    obtain ⟨hlta, hbacka⟩ := hexDigit_hexValue ha
    obtain ⟨hltb, hbackb⟩ := hexDigit_hexValue hb
    generalize (Json.hexValue a).getD 0 = m at *
    generalize (Json.hexValue b).getD 0 = n at *
    have hbyte : (byte (m * 16 + n)).toNat = m * 16 + n := UInt8.toNat_ofNat_of_lt' (by omega : m * 16 + n < 256)
    have hcons : Lake.hexdigest (byte (m * 16 + n) :: hexInts rest) =
        hexDigit ((byte (m * 16 + n)).toNat / 16) :: hexDigit ((byte (m * 16 + n)).toNat % 16) ::
          Lake.hexdigest (hexInts rest) := rfl
    have hhigh : (m * 16 + n) / 16 = m := by omega
    have hlow : (m * 16 + n) % 16 = n := by omega
    have hlen : rest.length % 2 = 0 := by
      rw [List.length_cons, List.length_cons] at heven
      omega
    rw [hcons, hbyte, hhigh, hlow, hbacka, hbackb, ih hlen hrest]
  | case2 s hshort =>
    cases s with
    | nil => rfl
    | cons a s =>
      cases s with
      | nil => cases heven
      | cons b rest => exact (hshort a b rest rfl).elim

theorem sha256Hex_eq_true : sha256Hex sha256 = true ↔
    sha256.length = 64 ∧ ∀ u ∈ sha256, (inRange '0' '9' u || inRange 'a' 'f' u) = true := by
  rw [sha256Hex, Bool.and_eq_true, beq_iff_eq, List.all_eq_true]

/-- **A SHA-256 in hexadecimal** is that of 32 bytes. -/
theorem exists_digest (h : sha256Hex sha256 = true) : ∃ digest : Bytes, digest.length = 32 ∧
    hexInts sha256 = digest ∧ Lake.hexdigest digest = sha256 := by
  obtain ⟨hlen, hall⟩ := sha256Hex_eq_true.mp h
  have hback := hexdigest_hexInts (by rw [hlen]) hall
  refine ⟨_, ?_, rfl, hback⟩
  have hdigits := Lake.hexdigest_length (hexInts sha256)
  rw [hback, hlen] at hdigits
  omega

/-! ## Four tools -/

theorem rawB32Decode_eq (hs : ∀ u ∈ s, u ∈ b32) : rawB32Decode s = .ok (Lake.b32Decode s) := by
  have hany : (s.any fun u => !b32.contains u) = false := by
    rw [List.any_eq_false]
    intro u hu
    simp [hs u hu]
  rw [rawB32Decode, hany, if_neg Bool.false_ne_true]
  rfl

theorem isB32_of_mem (hu : u ∈ b32) : isB32 u = true := by
  have hall : ∀ u ∈ b32, isB32 u = true := List.all_eq_true.mp (by decide +kernel)
  exact hall u hu

theorem mem_of_isB32 (hu : isB32 u = true) : u ∈ b32 := by
  have hlt := BlockIngest.idxOf_lt hu
  exact List.idxOf_lt_length_iff.mp hlt

/-- **The base32 of four tools agrees.** Both writers write the same text, which both readers read back, and on any other
text of digits they agree too. Of a SHA-256, the archive's CID is the raw CID of all bytes that have it, and `block_ingest`
reads the codec and the digest out of it. -/
theorem base32_agree :
    (∀ buf, base32 buf 0 0 = b32Encode buf) ∧
      (∀ buf, BlockIngest.b32Decode (b32Encode buf) 0 0 = buf ∧ rawB32Decode (b32Encode buf) = .ok buf) ∧
      (∀ s, (∀ u ∈ s, u ∈ b32) → rawB32Decode s = .ok (BlockIngest.b32Decode s 0 0)) ∧
      ∀ sha256, sha256Hex sha256 = true → ∃ digest, Lake.hexdigest digest = sha256 ∧
        checkedCarCid sha256 = .ok (carCid sha256) ∧
        BlockIngest.parseCid (carCid sha256) = some ⟨.raw, digest⟩ ∧
        ∀ (nc : NodeCrypto) buf, Lake.hexdigest (nc.sha256 buf) = sha256 → carCid sha256 = rawCid nc buf := by
  refine ⟨base32_eq, fun buf => ?_, fun s hs => ?_, fun sha256 h => ?_⟩
  · have hdigits := isB32_b32Encode buf
    rw [BlockIngest.b32Decode_eq hdigits, rawB32Decode_eq fun u hu => mem_of_isB32 (hdigits u hu), Lake.b32Decode_encode]
    exact ⟨rfl, rfl⟩
  · rw [rawB32Decode_eq hs, BlockIngest.b32Decode_eq fun u hu => isB32_of_mem (hs u hu)]
  · obtain ⟨digest, hlen, hints, hhex⟩ := exists_digest h
    have hcid : carCid sha256 = unit 'b' :: b32Encode ([0x01, 0x55, 0x12, 0x20] ++ digest) := by
      rw [carCid, hints, base32_eq]
    refine ⟨digest, hhex, if_pos h, ?_, fun nc buf hbuf => ?_⟩
    · rw [hcid]
      exact @BlockIngest.parseCid_cidOf ⟨fun _ => digest, fun _ _ _ => false⟩ .raw [] hlen
    · have hdigest : nc.sha256 buf = digest := by rw [← hexInts_hexdigest (nc.sha256 buf), hbuf, hints]
      rw [hcid, rawCid, hdigest]

end Filecoin
