import Yataverse.CarExport.Export
import Mathlib.Data.Nat.Bitwise

/-!
# The packer reads the frames of the exporter

The exporter and the packer have their own code for variable-length numbers and for CIDs.
The packer reads back what the exporter writes, frame by frame, except for a CID that spells
its version with more than one byte: the exporter reads the whole number, the packer looks
at the first byte alone.

- `reads_varint`: a number that the exporter has written.
- `reads_readVarint`: a number in a CID, that the exporter has read from the text.
- `Parsed`: the parts of a CID that the exporter knows.
- `frame_reads`, `frame_long`: one frame, with the version in one byte and in more.
-/

namespace CarExport

open Js GraphHead Copying Copying.Tee Fallible Lake

variable {done part : Bytes} {n k value shift length x : Nat} {e e' : String}

/-! ## Variable-length numbers -/

theorem varint_eq (value : Nat) : varint value = Carv2.uvarint value := by
  induction value using Nat.strong_induction_on with
  | _ value ih =>
    unfold varint Carv2.uvarint
    split
    · rfl
    · rename_i h
      rw [ih (value >>> 7) (by rw [Nat.shiftRight_eq_div_pow]; omega)]
      rfl

theorem or_shift (k s : Nat) : (k % 128) <<< s ||| (k / 128) <<< (s + 7) = k <<< s := by
  apply Nat.eq_of_testBit_eq
  intro i
  rw [Nat.testBit_or, Nat.testBit_shiftLeft, Nat.testBit_shiftLeft, Nat.testBit_shiftLeft,
    show 128 = 2 ^ 7 from rfl, Nat.testBit_mod_two_pow, Nat.testBit_div_two_pow]
  by_cases hs : s ≤ i
  · by_cases h7 : s + 7 ≤ i
    · have : i - (s + 7) + 7 = i - s := by omega
      simp [hs, h7, this, show ¬ i - s < 7 by omega]
    · simp [hs, h7, show i - s < 7 by omega]
  · simp [hs, show ¬ s + 7 ≤ i by omega]

theorem toNat_low {k : Nat} (h : k < 128) : (UInt8.ofNat k).toNat = k := by
  rw [UInt8.toNat_ofNat']
  omega

theorem toNat_more (k : Nat) : (UInt8.ofNat (k &&& 0x7f ||| 0x80)).toNat = k % 128 + 128 := by
  have hand : k &&& 0x7f = k % 128 := Nat.and_two_pow_sub_one_eq_mod k 7
  have hlt : k % 128 < 2 ^ 7 := Nat.mod_lt _ (by decide)
  have hor : k % 128 ||| 0x80 = k % 128 + 128 := by
    rw [Nat.or_comm, Nat.add_comm]
    exact (Nat.two_pow_add_eq_or_of_lt hlt 1).symm
  rw [UInt8.toNat_ofNat', hand, hor]
  omega

theorem and_low (k : Nat) : k &&& 0x7f = k % 128 := Nat.and_two_pow_sub_one_eq_mod k 7

theorem uvarint_low (h : k < 128) : Carv2.uvarint k = [UInt8.ofNat k] := by
  unfold Carv2.uvarint
  exact if_pos h

theorem uvarint_more (h : ¬ k < 128) :
    Carv2.uvarint k = UInt8.ofNat (k &&& 0x7f ||| 0x80) :: Carv2.uvarint (k >>> 7) := by
  rw [Carv2.uvarint]
  exact if_neg h

theorem reads_last (h : k < 128) :
    Reads (Carv2.readVarint e e' (n + 1) value shift length) done [UInt8.ofNat k]
      (value ||| k <<< shift, length + 1) := by
  have hlt : UInt8.ofNat k < 0x80 := by
    rw [UInt8.lt_iff_toNat_lt, toNat_low h]
    exact h
  unfold Carv2.readVarint
  refine Reads.bind_last reads_next ?_
  dsimp only
  rw [if_pos hlt, toNat_low h, and_low, Nat.mod_eq_of_lt h]
  exact reads_pure

/-- The reader of the packer reads what its writer writes, in up to ten bytes. -/
theorem reads_uvarint (h : k < 2 ^ (7 * (n + 1))) :
    Reads (Carv2.readVarint e e' (n + 1) value shift length) done (Carv2.uvarint k)
      (value ||| k <<< shift, length + (Carv2.uvarint k).length) := by
  induction n generalizing k value shift length done with
  | zero =>
    have hk : k < 128 := by simpa using h
    rw [uvarint_low hk]
    exact reads_last hk
  | succ n ih =>
    by_cases hk : k < 128
    · rw [uvarint_low hk]
      exact reads_last hk
    · rw [uvarint_more hk]
      have hdiv : k >>> 7 = k / 128 := Nat.shiftRight_eq_div_pow k 7
      have hrest : k >>> 7 < 2 ^ (7 * (n + 1)) := by
        rw [Nat.mul_succ, Nat.pow_add] at h
        rw [hdiv, Nat.div_lt_iff_lt_mul (by decide)]
        exact h
      have hmore : ¬ UInt8.ofNat (k &&& 0x7f ||| 0x80) < 0x80 := by
        rw [UInt8.lt_iff_toNat_lt, toNat_more]
        show ¬ k % 128 + 128 < 128
        omega
      have hvalue : (value ||| ((k % 128 + 128) &&& 0x7f) <<< shift) ||| (k >>> 7) <<< (shift + 7) =
          value ||| k <<< shift := by
        rw [Nat.or_assoc, and_low, Nat.add_mod_right, Nat.mod_mod, hdiv, or_shift]
      have hnext : Reads (Carv2.readVarint e e' (n + 1) (value ||| ((k % 128 + 128) &&& 0x7f) <<< shift)
          (shift + 7) (length + 1)) (done ++ [UInt8.ofNat (k &&& 0x7f ||| 0x80)]) _ _ := ih hrest
      rw [hvalue, Nat.add_assoc, Nat.add_comm 1] at hnext
      unfold Carv2.readVarint
      refine Reads.bind (reads_next (x := UInt8.ofNat (k &&& 0x7f ||| 0x80))) ?_
      dsimp only
      rw [if_neg hmore, toNat_more]
      exact hnext

/-- **A number that the exporter has written.** -/
theorem reads_varint {limit : Nat} (h : k < 2 ^ 63) (hlimit : k ≤ limit) :
    Reads (Carv2.readUvarint limit) done (varint k) (k, (varint k).length) := by
  have hfits : k < 2 ^ (7 * (9 + 1)) := Nat.lt_of_lt_of_le h (Nat.pow_le_pow_right (by decide) (by decide))
  have hread : Reads (Carv2.readVarint "truncated varint" "invalid varint" 10 0 0 0) done _ _ :=
    reads_uvarint hfits
  rw [Nat.zero_or, Nat.shiftLeft_zero, Nat.zero_add, ← varint_eq] at hread
  exact hread.bind_last (Reads.bind_nil (reads_require hlimit) reads_pure)

/-- A number in a CID: the exporter reads it from the text, and the packer the same bytes
from the CAR. -/
theorem reads_readVarint {t o : String} {data rest : Bytes}
    (h : Lake.readVarint t o n value shift data = .ok (x, rest)) :
    ∃ part, data = part ++ rest ∧ 1 ≤ part.length ∧ part.length ≤ n ∧ ∀ done length,
      Reads (Carv2.readVarint e e' n value shift length) done part (x, length + part.length) := by
  induction n generalizing value shift data with
  | zero => cases h
  | succ n ih =>
    cases data with
    | nil => cases h
    | cons b data =>
      unfold Lake.readVarint at h
      dsimp only at h
      split at h
      · rename_i hb
        obtain ⟨rfl, rfl⟩ := Prod.mk.inj (Except.ok.inj h)
        refine ⟨[b], rfl, Nat.le_refl 1, Nat.succ_pos n, fun done length => ?_⟩
        unfold Carv2.readVarint
        refine Reads.bind_last reads_next ?_
        dsimp only
        rw [if_pos hb]
        exact reads_pure
      · rename_i hb
        obtain ⟨part, rfl, hpos, hlen, hread⟩ := ih h
        refine ⟨b :: part, rfl, Nat.succ_pos _, Nat.succ_le_succ hlen, fun done length => ?_⟩
        have hthis := hread (done ++ [b]) (length + 1)
        rw [Nat.add_assoc, Nat.add_comm 1] at hthis
        unfold Carv2.readVarint
        refine Reads.bind (reads_next (x := b)) ?_
        dsimp only
        rw [if_neg hb]
        exact hthis

/-! ## CIDs -/

/-- The packer reads this part of a CID as `x`. -/
def Num (part : Bytes) (x : Nat) : Prop :=
  ∀ done limit, x ≤ limit → Reads (Carv2.readUvarint limit) done part (x, part.length)

theorem readVarint_num {data rest : Bytes} (h : readVarint data = .ok (x, rest)) :
    ∃ part, data = part ++ rest ∧ part.length ≤ 10 ∧ Num part x := by
  obtain ⟨part, hdata, -, hlen, hread⟩ := reads_readVarint h
  refine ⟨part, hdata, hlen, fun done limit hlimit => ?_⟩
  have := hread done 0
  rw [Nat.zero_add] at this
  exact this.bind_last (Reads.bind_nil (reads_require hlimit) reads_pure)

/-- The parts of a CID behind its version, as the exporter has read them. -/
structure Parsed (rest digest : Bytes) : Prop where
  size : digest.length = 32
  parts : ∃ c m l codec, rest = (c ++ (m ++ l)) ++ digest ∧ c.length ≤ 10 ∧ m.length ≤ 10 ∧
    l.length ≤ 10 ∧ codec ∈ codecs ∧ Num c codec ∧ Num m 0x12 ∧ Num l 32

/-- A CID that the exporter accepts: its version is 1. -/
theorem cidBytes_eq_ok {cid : JsString} {data digest : Bytes} (h : cidBytes cid = .ok (data, digest)) :
    cidRe cid = true ∧ decoded cid = .ok data ∧
      ∃ rest, readVarint data = .ok (1, rest) ∧ Parsed rest digest := by
  simp only [cidBytes, bind_eq_ok, require_eq_ok, exists_const] at h
  obtain ⟨hre, data', hdec, ⟨version, rest⟩, hversion, ⟨codec, r₁⟩, hcodec, ⟨code, r₂⟩, hcode, ⟨len, r₃⟩,
    hlen, ⟨rfl, hmem, rfl, rfl, hsize⟩, hout⟩ := h
  obtain ⟨rfl, rfl⟩ := Prod.mk.inj (Except.ok.inj hout)
  obtain ⟨c, rfl, hc, hnumc⟩ := readVarint_num hcodec
  obtain ⟨m, rfl, hm, hnumm⟩ := readVarint_num hcode
  obtain ⟨l, rfl, hl, hnuml⟩ := readVarint_num hlen
  refine ⟨hre, hdec, _, hversion, hsize, c, m, l, codec, ?_, hc, hm, hl, hmem, hnumc, hnumm, hnuml⟩
  simp only [List.append_assoc]

/-- A CID in binary has at most 72 bytes. -/
theorem cidBytes_length {cid : JsString} {data digest : Bytes} (h : cidBytes cid = .ok (data, digest)) :
    data.length ≤ 72 := by
  obtain ⟨-, -, rest, hversion, hsize, c, m, l, -, rfl, hc, hm, hl, -⟩ := cidBytes_eq_ok h
  obtain ⟨v, rfl, hv, -⟩ := readVarint_num hversion
  simp only [List.length_append]
  omega

/-! ## Frames -/

section Frame

variable {sha256 : Bytes → Bytes} {total : Nat} {data rest digest block : Bytes}

/-- A frame of the exporter. -/
def frameOf (data block : Bytes) : Bytes := varint (data.length + block.length) ++ (data ++ block)

theorem multihash_reads {c m l : Bytes} {codec : Nat} (hcodec : codec ∈ codecs) (hc : Num c codec)
    (hm : Num m 0x12) (hl : Num l 32) :
    Reads (Carv2.multihash 1) done (c ++ (m ++ l)) ⟨0x12, 32, 1 + c.length + m.length + l.length⟩ := by
  have hle : codec ≤ Carv2.noLimit := by
    have : codec ≤ 0x129 := by
      simp only [codecs, List.mem_cons, List.not_mem_nil, or_false] at hcodec
      omega
    exact Nat.le_trans this (by decide)
  unfold Carv2.multihash
  rw [if_neg (by decide)]
  unfold Carv2.cidV1
  refine Reads.bind_nil (reads_require rfl) ?_
  refine Reads.bind_nil (a := (1, 1)) reads_pure ?_
  refine Reads.bind_nil (reads_require rfl) ?_
  refine Reads.bind (hc _ _ hle) ?_
  refine Reads.bind (hm _ _ (by decide)) ?_
  exact Reads.bind_last (hl _ _ (by decide)) reads_pure

/-- **A frame, where the version is one byte.** -/
theorem frame_reads (hparsed : Parsed rest digest) (hdata : data = 1 :: rest) (hblock : sha256 block = digest)
    (hsize : data.length + block.length < 2 ^ 63)
    (htotal : done.length + (frameOf data block).length ≤ total) :
    Reads (Carv2.frame sha256 total) done (frameOf data block) ⟨0x12, digest, done.length⟩ := by
  obtain ⟨hdigest, c, m, l, codec, rfl, hc, hm, hl, hcodec, hnumc, hnumm, hnuml⟩ := hparsed
  have hlen : data.length = 1 + (c.length + (m.length + l.length)) + 32 := by
    rw [hdata]
    simp only [List.length_cons, List.length_append, hdigest]
    omega
  have hframe : frameOf data block = varint (data.length + block.length) ++
      ([1] ++ ((c ++ (m ++ l)) ++ (digest ++ block))) := by
    rw [frameOf, hdata]
    simp only [List.append_assoc, List.cons_append, List.nil_append]
  have hflen : (frameOf data block).length =
      (varint (data.length + block.length)).length + (data.length + block.length) := by
    rw [frameOf, List.length_append, List.length_append]
  rw [hframe]
  unfold Carv2.frame
  refine Reads.bind_nil reads_count ?_
  refine Reads.bind (reads_varint hsize (by omega)) ?_
  refine Reads.bind_nil reads_count ?_
  refine Reads.bind_nil (reads_require ⟨by omega, ?_⟩) ?_
  · rw [List.length_append]
    omega
  refine Reads.bind (reads_next (x := 1)) ?_
  refine Reads.bind (multihash_reads hcodec hnumc hnumm hnuml) ?_
  refine Reads.bind_nil (reads_require ⟨rfl, rfl⟩) ?_
  refine Reads.bind (a := digest) ?_ ?_
  · show Reads (Carv2.readExact 32) _ _ _
    rw [← hdigest]
    exact reads_take
  refine Reads.bind_nil (reads_require ?_) ?_
  · show 1 + c.length + m.length + l.length + 32 ≤ data.length + block.length
    omega
  have hpayload : data.length + block.length - (1 + c.length + m.length + l.length + 32) = block.length := by
    omega
  refine Reads.bind_last (a := block) ?_ ?_
  · show Reads (Carv2.copyExact (_ - _)) _ _ _
    rw [hpayload]
    exact reads_take
  refine Reads.bind_nil (reads_require hblock) ?_
  exact reads_pure

/-- **A frame, where the version is longer**: it is refused. -/
theorem frame_long {b : UInt8} {behind : Bytes} {row : Carv2.Row} {s : Tape UInt8} (hdata : data = b :: rest)
    (hb : ¬ b < 0x80) (hsize : data.length + block.length < 2 ^ 63)
    (htotal : done.length + (frameOf data block).length ≤ total) :
    Carv2.frame sha256 total ⟨frameOf data block ++ behind, done⟩ ≠ .ok (row, s) := by
  have hflen : (frameOf data block).length =
      (varint (data.length + block.length)).length + (data.length + block.length) := by
    rw [frameOf, List.length_append, List.length_append]
  have hread : Reads (Carv2.readUvarint total) done (varint (data.length + block.length)) _ :=
    reads_varint hsize (by omega)
  intro h
  rw [frameOf, List.append_assoc] at h
  obtain ⟨_, s₀, hcount, h⟩ := run_bind_eq_ok.mp h
  obtain ⟨-, rfl⟩ := Prod.mk.inj (Except.ok.inj hcount)
  obtain ⟨_, s₁, hnum, h⟩ := run_bind_eq_ok.mp h
  obtain ⟨rfl, rfl⟩ := Prod.mk.inj (Except.ok.inj ((hread _).symm.trans hnum))
  obtain ⟨_, s₂, hcount, h⟩ := run_bind_eq_ok.mp h
  obtain ⟨-, rfl⟩ := Prod.mk.inj (Except.ok.inj hcount)
  obtain ⟨_, s₃, hrequire, h⟩ := run_bind_eq_ok.mp h
  obtain ⟨-, rfl⟩ := run_require_eq_ok.mp hrequire
  obtain ⟨first, s₄, hnext, h⟩ := run_bind_eq_ok.mp h
  rw [hdata] at hnext
  obtain ⟨rfl, rfl⟩ := Prod.mk.inj (Except.ok.inj hnext)
  obtain ⟨cid, s₅, hcid, h⟩ := run_bind_eq_ok.mp h
  have hzero : b.toNat ≠ Carv2.sha2_256 := by
    intro hb'
    rw [UInt8.lt_iff_toNat_lt, hb'] at hb
    exact hb (by decide)
  have hone : b ≠ 1 := by
    rintro rfl
    exact hb (by decide)
  unfold Carv2.multihash at hcid
  rw [if_neg hzero] at hcid
  obtain ⟨_, s₆, hversion, -⟩ := run_bind_eq_ok.mp hcid
  exact hone (run_require_eq_ok.mp hversion).1

end Frame

end CarExport
