import Yataverse.BlockIngest.Cid
import Yataverse.Lake.Base32

/-!
# The addresses of a block

A CID string is 58 digits behind a `b`: 36 bytes and two bits. The decoder drops these bits.

- `b32Decode_eq`: the decoder, with its queue of bits, reads what the other ones read.
- `parseCid_eq_some`, `parseCid_cidOf`: which strings are accepted, and that `cid-of` gives one.
- **`eq_cidOf_iff`**: a string that a block hashes to is its address exactly when its spare bits are zero.
-/

namespace BlockIngest

open Js GraphHead Bits

variable {nc : NodeCrypto} {s : JsString} {codec : Codec} {buf : Bytes} {p : ParsedCid} {q : List Bool} {v : Nat}

/-! ## The decoder -/

theorem idxOf_lt {u : UInt16} (hu : isB32 u = true) : b32.idxOf u < 2 ^ 5 := by
  have hmem : u ∈ b32 := by
    rw [← Lake.digit_fiveBits hu, Lake.digit, List.getD_eq_getElem?_getD]
    have hlt : ofBits (Lake.fiveBits u) < b32.length := value_lt (Lake.fiveBits u)
    rw [List.getElem?_eq_getElem hlt]
    exact List.getElem_mem hlt
  exact List.idxOf_lt_length_of_mem hmem

/-- A byte that is written, and the bits behind it. -/
theorem octets_take_drop (hle : 8 ≤ q.length) (more : List Bool) :
    Lake.octets (q ++ more) = byte (value (q.take 8)) :: Lake.octets (q.drop 8 ++ more) := by
  have hsplit : q ++ more = q.take 8 ++ (q.drop 8 ++ more) := by rw [← List.append_assoc, List.take_append_drop]
  rw [hsplit, Lake.octets_eq, groups_append (by decide) (List.length_take_of_le hle), List.map_cons, ← Lake.octets_eq]

/-- The decoder with the bits `q` in its queue. -/
theorem b32Decode_queue (hs : ∀ u ∈ s, isB32 u = true) (hq : q.length < 8) (hv : v % 2 ^ q.length = value q) :
    b32Decode s q.length v = Lake.octets (q ++ s.flatMap Lake.fiveBits) := by
  induction s generalizing q v with
  | nil =>
    rw [b32Decode, List.flatMap_nil, List.append_nil, Lake.octets_eq, groups_of_lt hq]
    rfl
  | cons c more ih =>
    obtain ⟨hc, hmore⟩ := List.forall_mem_cons.mp hs
    have hlen : (q ++ Lake.fiveBits c).length = q.length + 5 := List.length_append
    have hpush : (v % 256 * 32 + b32.idxOf c) % 2 ^ (q ++ Lake.fiveBits c).length = value (q ++ Lake.fiveBits c) := by
      rw [hlen]
      exact push (m := 8) hq.le hv (idxOf_lt hc)
    rw [b32Decode, List.flatMap_cons, ← List.append_assoc, ← hlen]
    generalize v % 256 * 32 + b32.idxOf c = v' at hpush ⊢
    generalize q ++ Lake.fiveBits c = q' at hlen hpush ⊢
    split_ifs with hfull
    · have hpop := pop hfull hpush
      rw [octets_take_drop hfull, show 256 = 2 ^ 8 from rfl, hpop, ← List.length_drop]
      rw [ih hmore (by rw [List.length_drop]; omega) (drop_value hpush)]
    · exact ih hmore (Nat.lt_of_not_le hfull) hpush

/-- `b32-decode` reads the bits of the digits in groups of eight. -/
theorem b32Decode_eq (hs : ∀ u ∈ s, isB32 u = true) : b32Decode s 0 0 = Lake.b32Decode s :=
  @b32Decode_queue s [] 0 hs (by decide) rfl

/-! ## Accepted strings -/

theorem codecOf_eq_some {b : UInt8} : codecOf b = some codec ↔ b = codec.code := by
  rw [codecOf]
  cases codec <;> split_ifs with h₁ h₂ <;> simp_all [Codec.code]

theorem rawCidRe_eq_true : rawCidRe s = true ↔
    ∃ t, s = unit 'b' :: t ∧ t.length = 58 ∧ ∀ u ∈ t, isB32 u = true := by
  have hb : isB32 (unit 'b') = true := by decide
  simp only [rawCidRe, Bool.and_eq_true, decide_eq_true_eq, List.all_eq_true]
  constructor
  · rintro ⟨⟨hhead, hlen⟩, hall⟩
    obtain ⟨t, rfl⟩ := List.head?_eq_some_iff.mp hhead
    exact ⟨t, rfl, Nat.succ.inj hlen, fun u hu => hall u (List.mem_cons_of_mem _ hu)⟩
  · rintro ⟨t, rfl, hlen, hall⟩
    exact ⟨⟨rfl, congrArg Nat.succ hlen⟩, List.forall_mem_cons.mpr ⟨hb, hall⟩⟩

/-- **An accepted string**: 58 digits behind a `b`, of the header of a CID and a digest. -/
theorem parseCid_eq_some : parseCid s = some p ↔ ∃ t, s = unit 'b' :: t ∧ t.length = 58 ∧ (∀ u ∈ t, isB32 u = true) ∧
    Lake.b32Decode t = [0x01, p.codec.code, 0x12, 0x20] ++ p.digest ∧ p.digest.length = 32 := by
  rw [parseCid]
  constructor
  · intro h
    split_ifs at h with hre
    obtain ⟨t, rfl, hlen, hall⟩ := rawCidRe_eq_true.mp hre
    rw [show (unit 'b' :: t).drop 1 = t from rfl, b32Decode_eq hall] at h
    split at h
    · rename_i v c m l digest hbytes
      split at h
      · rename_i codec hcodec
        split_ifs at h with hheader
        obtain rfl := Option.some.inj h
        obtain ⟨hdigest, rfl, rfl, rfl⟩ := hheader
        obtain rfl := codecOf_eq_some.mp hcodec
        exact ⟨t, rfl, hlen, hall, hbytes, hdigest⟩
      · cases h
    · cases h
  · rintro ⟨t, rfl, hlen, hall, hbytes, hdigest⟩
    rw [if_pos (rawCidRe_eq_true.mpr ⟨t, rfl, hlen, hall⟩), show (unit 'b' :: t).drop 1 = t from rfl,
      b32Decode_eq hall, hbytes]
    dsimp only [List.cons_append, List.nil_append]
    rw [codecOf_eq_some.mpr rfl]
    dsimp only
    rw [if_pos ⟨hdigest, rfl, rfl, rfl⟩]

/-- **`cid-of` gives an accepted string**, which names the codec and the digest. -/
theorem parseCid_cidOf (hsha : (nc.sha256 buf).length = 32) : parseCid (cidOf nc codec buf) = some ⟨codec, nc.sha256 buf⟩ := by
  refine parseCid_eq_some.mpr ⟨_, rfl, ?_, isB32_b32Encode _, Lake.b32Decode_encode _, hsha⟩
  have hbits := congrArg List.length (Lake.bits_b32Encode ([0x01, codec.code, 0x12, 0x20] ++ nc.sha256 buf))
  have hpad := padded_length (([0x01, codec.code, 0x12, 0x20] ++ nc.sha256 buf).flatMap byteBits)
  rw [flatMap_byteBits_length, List.length_append, hsha, List.length_cons, List.length_cons, List.length_cons,
    List.length_singleton] at hpad
  rw [Lake.length_bits] at hbits
  omega

/-! ## One address -/

/-- The bits of a string behind its last byte are zero. -/
def Exact (s : JsString) : Prop := ∀ b ∈ Lake.spare (s.drop 1), b = false

instance : Decidable (Exact s) := inferInstanceAs (Decidable (∀ b ∈ Lake.spare (s.drop 1), b = false))

/-- **One address**: among the strings of a codec that bytes hash to, the one that `cid-of` gives is the one whose
spare bits are zero. -/
theorem eq_cidOf_iff (nc : NodeCrypto) (codec : Codec) (buf : Bytes) (s : JsString)
    (hcodec : (parseCid s).map ParsedCid.codec = some codec) (hbuf : hashesTo nc s buf = true) :
    s = cidOf nc codec buf ↔ Exact s := by
  rw [hashesTo] at hbuf
  cases hp : parseCid s with
  | none =>
    rw [hp] at hcodec
    cases hcodec
  | some p =>
    rw [hp] at hcodec hbuf
    obtain rfl := Option.some.inj hcodec
    obtain ⟨t, rfl, hlen, hall, hbytes, -⟩ := parseCid_eq_some.mp hp
    have hsha : p.digest = nc.sha256 buf := of_decide_eq_true hbuf
    have hspare : (Lake.spare t).length < 5 := by
      rw [Lake.spare, List.length_drop, Lake.length_bits, hlen]
      decide
    rw [cidOf, ← hsha, ← hbytes, List.cons_inj_right, eq_comm, Lake.b32Encode_decode hall]
    exact and_iff_right hspare

namespace Sample

/-- A hash of zeros. -/
def zeros : NodeCrypto := ⟨fun _ => List.replicate 32 0, fun _ _ _ => false⟩

/-- A string of the codec `raw` for it, with the last digit left open. -/
def address (last : Char) : JsString := js "bafkrei" ++ List.replicate 51 (unit 'a') ++ [unit last]

end Sample

theorem eq_cidOf_iff_sample : Sample.address 'a' = cidOf Sample.zeros .raw [] ↔ Exact (Sample.address 'a') :=
  eq_cidOf_iff Sample.zeros .raw [] (Sample.address 'a') (by decide +kernel) (by decide +kernel)

/-- Another string of the same codec names the same bytes. -/
theorem two_addresses : (parseCid (Sample.address 'b')).map ParsedCid.codec = some .raw ∧
    hashesTo Sample.zeros (Sample.address 'b') [] = true ∧ Sample.address 'b' ≠ cidOf Sample.zeros .raw [] := by
  decide +kernel

end BlockIngest
