import Yataverse.CarExport.Export
import Yataverse.Lake.Base58
import Yataverse.Lake.Varint

/-!
# The Kotoba port of `cid_bytes`

The port reads base58 digit by digit into a vector of bytes, base32 as a string of bits and variable-length numbers in
doubles. Python has one integer for each.

- `Kotoba.cidBytes`: the port.
- `b58Decode_eq`: the vector of bytes is the integer's.
- **`Kotoba.cidBytes_eq`**: what `cid_bytes` accepts, the port accepts, with the same bytes.
-/

namespace CarExport

open Js GraphHead Fallible Lake

namespace Kotoba

/-- `read-varint` -/
def readVarint (data : Bytes) : Except String (Number × Bytes) :=
  doubleVarint "invalid CID varint" "invalid CID varint" 64 (.int 0) 0 data

/-- The bytes that a CID's text stands for. -/
def decoded (cid : JsString) : Except String Bytes :=
  if (js "Qm").isPrefixOf cid then
    match b58Decode cid with
    | some multihash => .ok ([0x01, 0x70] ++ multihash)
    | none => .error "The \"list[1]\" argument must be an instance of Buffer or Uint8Array."
  else .ok (b32Decode (cid.drop 1))

/-- `cid-bytes` -/
def cidBytes (cid : JsString) : Except String (Bytes × Bytes) := do
  require (cidRe cid = true) "invalid inventory CID"
  let data ← decoded cid
  let (version, rest) ← readVarint data
  let (codec, rest) ← readVarint rest
  let (hcode, rest) ← readVarint rest
  let (hlen, rest) ← readVarint rest
  require (version = .int 1 ∧ codec ∈ [.int 0x55, .int 0x70, .int 0x71, .int 0x129] ∧ hcode = .int 0x12 ∧
    hlen = .int 32 ∧ rest.length = 32) "unsupported inventory CID"
  return (data, rest)

end Kotoba

variable {cid : JsString} {data rest digest : Bytes} {v : Nat}

/-! ## base58 -/

/-- The number that a base58 text writes. -/
def number58 (cid : JsString) : Nat := cid.foldl (fun number u => number * 58 + b58.idxOf u) 0

theorem decoded_qm (h : cid.take 2 = js "Qm") : decoded cid = .ok (0x01 :: 0x70 :: toBytes (number58 cid)) := if_pos h

/-- A CIDv0 is 46 digits, the first of them no zero. -/
theorem digits_of_cidV0 (h : cidV0 cid = true) : (∀ u ∈ cid, isB58 u = true) ∧ cid.length = 46 ∧
    ∃ s, cid = unit 'Q' :: s := by
  simp only [cidV0, Bool.and_eq_true, beq_iff_eq, List.all_eq_true] at h
  obtain ⟨⟨hqm, hlen⟩, hall⟩ := h
  have hsplit := List.take_append_drop 2 cid
  rw [hqm] at hsplit
  refine ⟨?_, hlen, unit 'm' :: cid.drop 2, hsplit.symm⟩
  intro u hu
  rw [← hsplit] at hu
  rcases List.mem_append.mp hu with hu | hu
  · have hboth : ∀ u ∈ js "Qm", isB58 u = true := List.all_eq_true.mp (by decide +kernel)
    exact hboth u hu
  · exact hall u hu

/-- **The bytes of a CIDv0** are those of its number. -/
theorem b58Decode_eq (h : cidV0 cid = true) : b58Decode cid = some (toBytes (number58 cid)) := by
  obtain ⟨hall, -, s, rfl⟩ := digits_of_cidV0 h
  have hzero : Radix.zeros ((unit 'Q' :: s).map b58.idxOf) = 0 := by
    refine Radix.zeros_eq_zero fun _ => ?_
    have hne : b58.idxOf (unit 'Q') ≠ 0 := by decide +kernel
    exact hne
  have hnumber : Radix.number 58 ((unit 'Q' :: s).map b58.idxOf) = number58 (unit 'Q' :: s) := List.foldl_map
  rw [Lake.b58Decode_eq fun u hu => List.contains_iff_mem.mp (hall u hu), Radix.convert, hzero, hnumber]
  rfl

theorem number58_lt {s : JsString} (hs : ∀ u ∈ s, isB58 u = true) (n : Nat) :
    s.foldl (fun number u => number * 58 + b58.idxOf u) n < (n + 1) * 58 ^ s.length := by
  induction s generalizing n with
  | nil =>
    rw [List.foldl_nil, List.length_nil, Nat.pow_zero, Nat.mul_one]
    exact Nat.lt_succ_self n
  | cons u s ih =>
    obtain ⟨hu, hmore⟩ := List.forall_mem_cons.mp hs
    have hlt : b58.idxOf u < 58 := List.idxOf_lt_length_of_mem (List.contains_iff_mem.mp hu)
    rw [List.foldl_cons, List.length_cons, Nat.pow_succ']
    refine (ih hmore _).trans_le ?_
    rw [← Nat.mul_assoc]
    exact Nat.mul_le_mul_right _ (by omega)

/-- A CIDv0 has at most 34 bytes. -/
theorem length_cidV0 (h : cidV0 cid = true) : (toBytes (number58 cid)).length ≤ 34 := by
  obtain ⟨hall, hlen, -⟩ := digits_of_cidV0 h
  have hlt : number58 cid < 256 ^ 34 := by
    have hnum := number58_lt hall 0
    rw [hlen, Nat.zero_add, Nat.one_mul] at hnum
    exact hnum.trans (by norm_num)
  rw [toBytes, List.length_map, List.length_reverse]
  exact (Nat.digits_length_le_iff (by decide) _).mpr hlt

/-! ## The port -/

theorem readVarint_double (h : readVarint data = .ok (v, rest)) (hv : v ≤ 2 ^ 53) :
    Kotoba.readVarint data = .ok (.int v, rest) := by
  obtain ⟨y, hy, heq⟩ := doubleVarint_eq h (by decide) (by decide) (by decide : 63 < 64)
  rw [Kotoba.readVarint, hy, heq rfl hv]

/-- Which of the two patterns a CID matches. -/
theorem cidV0_of_qm (hre : cidRe cid = true) (hqm : cid.take 2 = js "Qm") : cidV0 cid = true := by
  rcases Bool.or_eq_true_iff.mp hre with h | h
  · exact h
  · simp only [cidV1, Bool.and_eq_true, beq_iff_eq] at h
    cases cid with
    | nil => cases hqm
    | cons u s =>
      obtain rfl := Option.some.inj h.1.1.1
      exact absurd (List.cons.inj hqm).1 (by decide)

theorem isPrefixOf_qm : (js "Qm").isPrefixOf cid = true ↔ cid.take 2 = js "Qm" := by
  rw [List.isPrefixOf_iff_prefix, List.prefix_iff_eq_take, eq_comm]
  rfl

theorem decoded_ported (hre : cidRe cid = true) (h : decoded cid = .ok data) : Kotoba.decoded cid = .ok data := by
  have hpre : (js "Qm").isPrefixOf cid = true ↔ cid.take 2 = js "Qm" := isPrefixOf_qm
  unfold Kotoba.decoded
  by_cases hqm : cid.take 2 = js "Qm"
  · rw [decoded_qm hqm] at h
    rw [if_pos (hpre.mpr hqm), b58Decode_eq (cidV0_of_qm hre hqm)]
    exact h
  · rw [decoded, if_neg hqm] at h
    rw [if_neg (mt hpre.mp hqm)]
    unfold pyB32Decode at h
    by_cases hlen : (cid.drop 1).length % 8 = 1 ∨ (cid.drop 1).length % 8 = 3 ∨ (cid.drop 1).length % 8 = 6
    · rw [if_pos hlen] at h
      cases h
    · rw [if_neg hlen] at h
      exact h

/-- How `cid_bytes` has read an accepted CID. -/
structure AcceptedCid (cid : JsString) (data digest : Bytes) (n : Nat) (r₀ r₁ r₂ : Bytes) : Prop where
  pattern : cidRe cid = true
  decoded : decoded cid = .ok data
  version : readVarint data = .ok (1, r₀)
  codec : readVarint r₀ = .ok (n, r₁)
  code : readVarint r₁ = .ok (0x12, r₂)
  length : readVarint r₂ = .ok (32, digest)
  known : n ∈ codecs
  size : digest.length = 32

theorem acceptedCid_of (h : cidBytes cid = .ok (data, digest)) :
    ∃ codec r₀ r₁ r₂, AcceptedCid cid data digest codec r₀ r₁ r₂ := by
  simp only [CarExport.cidBytes, bind_eq_ok, require_eq_ok, exists_const] at h
  obtain ⟨hre, data', hdec, ⟨version, r₀⟩, hversion, ⟨codec, r₁⟩, hcodec, ⟨code, r₂⟩, hcode, ⟨len, r₃⟩,
    hlen, ⟨rfl, hmem, rfl, rfl, hsize⟩, hout⟩ := h
  obtain ⟨rfl, rfl⟩ := Prod.mk.inj (Except.ok.inj hout)
  exact ⟨codec, r₀, r₁, r₂, hre, hdec, hversion, hcodec, hcode, hlen, hmem, hsize⟩

/-- **The port returns what `cid_bytes` returns.** -/
theorem Kotoba.cidBytes_eq (h : CarExport.cidBytes cid = .ok (data, digest)) :
    Kotoba.cidBytes cid = .ok (data, digest) := by
  obtain ⟨codec, r₀, r₁, r₂, hr⟩ := acceptedCid_of h
  have hcodecs : ∀ codec ∈ codecs, codec ≤ 2 ^ 53 ∧
      (Number.int codec) ∈ [Number.int 0x55, .int 0x70, .int 0x71, .int 0x129] := by decide
  obtain ⟨hle, hlisted⟩ := hcodecs codec hr.known
  simp only [Kotoba.cidBytes, bind_eq_ok, require_eq_ok, exists_const]
  exact ⟨hr.pattern, data, decoded_ported hr.pattern hr.decoded, _, readVarint_double hr.version (by decide), _,
    readVarint_double hr.codec hle, _, readVarint_double hr.code (by decide), _,
    readVarint_double hr.length (by decide), ⟨rfl, hlisted, rfl, rfl, hr.size⟩, rfl⟩

end CarExport
