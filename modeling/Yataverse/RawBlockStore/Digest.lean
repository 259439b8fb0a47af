import Yataverse.CarExport.Ported
import Yataverse.RawBlockStore.Store

/-!
# The digest of a CID, in both implementations

`digestOf` is what `_sha256_digest` and `sha256-digest` have in common. Here is each as it is written: Python with one
integer for a base58 text, Kotoba with a vector of bytes and with doubles.

- `Python.sha256Digest`, `Kotoba.sha256Digest`: the two functions.
- `Python.sha256Digest_eq`, `Kotoba.sha256Digest_eq`: `digestOf` is the first, and what it returns the second returns.
- **`digestOf_eq`**: the digest of a CID that the exporter accepts is the one in its binary form.
-/

namespace RawBlockStore

open Js GraphHead Fallible Lake

variable {cid : JsString} {data digest : Bytes} {impl : Impl}

/-! ## The functions -/

namespace Python

/-- The bytes of a base58 text; every leading `1` is a zero. -/
def b58Decode (cid : JsString) : Bytes :=
  List.replicate (cid.takeWhile (· = unit '1')).length 0 ++ CarExport.toBytes (CarExport.number58 cid)

/-- The multihash in a CID. -/
def encoded (cid : JsString) : Except String Bytes :=
  if cidV0 cid then .ok (b58Decode cid)
  else if cidV1 cid then
    match pyB32Decode (cid.drop 1) with
    | some raw => do
      let (version, rest) ← varint raw
      require (version = 1) "unsupported CID version"
      let (_, rest) ← varint rest
      return rest
    | none => .error "invalid CID base32"
  else .error "invalid CID syntax"

/-- `_sha256_digest` -/
def sha256Digest (cid : JsString) : Except String Bytes := do
  let encoded ← encoded cid
  let (code, rest) ← varint encoded
  let (length, rest) ← varint rest
  require (code = 0x12 ∧ length = 32 ∧ rest.length = 32) "raw store requires a sha2-256 CID"
  return rest

end Python

namespace Kotoba

/-- `varint` -/
def varint (buf : Bytes) : Except String (Number × Bytes) :=
  doubleVarint "truncated CID varint" "oversized CID varint" 70 (.int 0) 0 buf

/-- The multihash in a CID. -/
def encoded (cid : JsString) : Except String Bytes :=
  if cidV0 cid then
    match b58Decode cid with
    | some multihash => .ok multihash
    | none => .error "Cannot read properties of null"
  else if cidV1 cid then do
    let (version, rest) ← varint (b32Decode (cid.drop 1))
    require (version = .int 1) "unsupported CID version"
    let (_, rest) ← varint rest
    return rest
  else .error "invalid CID syntax"

/-- `sha256-digest` -/
def sha256Digest (cid : JsString) : Except String Bytes := do
  let encoded ← encoded cid
  let (code, rest) ← varint encoded
  let (length, rest) ← varint rest
  require (code = .int 0x12 ∧ length = .int 32 ∧ rest.length = 32) "raw store requires a sha2-256 CID"
  return rest

end Kotoba

/-! ## Python -/

theorem Python.b58Decode_eq (h : cidV0 cid = true) : GraphHead.b58Decode cid = some (Python.b58Decode cid) := by
  obtain ⟨-, -, s, rfl⟩ := CarExport.digits_of_cidV0 h
  have hlead : (unit 'Q' :: s).takeWhile (· = unit '1') = [] := by
    have hne : unit 'Q' ≠ unit '1' := by decide
    rw [List.takeWhile_cons, decide_eq_false hne]
    rfl
  rw [CarExport.b58Decode_eq h, Python.b58Decode, hlead]
  rfl

theorem Python.encoded_eq (cid : JsString) : multihash .python cid = Python.encoded cid := by
  unfold multihash Python.encoded
  by_cases hv0 : cidV0 cid = true
  · rw [if_pos hv0, if_pos hv0, Python.b58Decode_eq hv0]
    rfl
  · rw [if_neg hv0, if_neg hv0]
    by_cases hv1 : cidV1 cid = true
    · rw [if_pos hv1, if_pos hv1, Impl.b32Decode]
      cases pyB32Decode (cid.drop 1) with
      | some raw => rfl
      | none => rfl
    · rw [if_neg hv1, if_neg hv1]

/-- **`digestOf` is `_sha256_digest`.** -/
theorem Python.sha256Digest_eq (cid : JsString) : digestOf .python cid = Python.sha256Digest cid := by
  rw [digestOf, Python.sha256Digest, Python.encoded_eq]

/-! ## Kotoba -/

/-- What is read exactly is read in doubles, to the same byte. -/
theorem Kotoba.varint_eq {bs rest : Bytes} {v : Nat} (h : RawBlockStore.varint bs = .ok (v, rest)) :
    ∃ y, Kotoba.varint bs = .ok (y, rest) ∧ (v ≤ 2 ^ 53 → y = .int v) := by
  obtain ⟨y, hy, heq⟩ := doubleVarint_eq h (by decide) (by decide) (by decide : 63 < 70)
  exact ⟨y, hy, heq rfl⟩

theorem Kotoba.encoded_eq {encoded : Bytes} (h : multihash .kotoba cid = .ok encoded) :
    Kotoba.encoded cid = .ok encoded := by
  unfold multihash at h
  unfold Kotoba.encoded
  by_cases hv0 : cidV0 cid = true
  · rw [if_pos hv0, CarExport.b58Decode_eq hv0] at h
    rw [if_pos hv0, CarExport.b58Decode_eq hv0]
    exact h
  · rw [if_neg hv0] at h ⊢
    by_cases hv1 : cidV1 cid = true
    · rw [if_pos hv1] at h ⊢
      simp only [bind_eq_ok, require_eq_ok, exists_const] at h ⊢
      obtain ⟨raw, hraw, ⟨version, rest⟩, hversion, rfl, ⟨codec, rest'⟩, hcodec, hout⟩ := h
      obtain rfl := Except.ok.inj hraw
      obtain ⟨y, hy, heq⟩ := Kotoba.varint_eq hversion
      obtain ⟨z, hz, -⟩ := Kotoba.varint_eq hcodec
      exact ⟨_, hy, heq (by decide), _, hz, hout⟩
    · rw [if_neg hv1] at h
      cases h

/-- **What `digestOf` returns, `sha256-digest` returns.** -/
theorem Kotoba.sha256Digest_eq (h : digestOf .kotoba cid = .ok digest) : Kotoba.sha256Digest cid = .ok digest := by
  simp only [digestOf, bind_eq_ok, require_eq_ok, exists_const] at h
  obtain ⟨encoded, hencoded, ⟨code, rest⟩, hcode, ⟨len, rest'⟩, hlen, ⟨rfl, rfl, hsize⟩, hout⟩ := h
  obtain ⟨y, hy, heq⟩ := Kotoba.varint_eq hcode
  obtain ⟨z, hz, heq'⟩ := Kotoba.varint_eq hlen
  simp only [Kotoba.sha256Digest, bind_eq_ok, require_eq_ok, exists_const]
  exact ⟨_, Kotoba.encoded_eq hencoded, _, hy, _, hz, ⟨heq (by decide), heq' (by decide), hsize⟩, hout⟩

/-! ## The exporter -/

theorem varint_texts {bs rest : Bytes} {v : Nat} (h : CarExport.readVarint bs = .ok (v, rest)) :
    varint bs = .ok (v, rest) :=
  readVarint_texts h

/-- A CIDv1 that is no CIDv0. -/
theorem cidV1_of_not_qm (hre : cidRe cid = true) (hqm : cid.take 2 ≠ js "Qm") : cidV0 cid = false ∧ cidV1 cid = true := by
  have hv0 : cidV0 cid = false := by
    refine Bool.eq_false_iff.mpr fun h => hqm ?_
    simp only [cidV0, Bool.and_eq_true, beq_iff_eq] at h
    exact h.1.1
  exact ⟨hv0, (Bool.or_eq_true_iff.mp hre).resolve_left (Bool.eq_false_iff.mp hv0)⟩

/-- The base32 text of a CID, in both implementations. -/
theorem Impl.b32Decode_of_decoded (hqm : cid.take 2 ≠ js "Qm") (h : CarExport.decoded cid = .ok data) (impl : Impl) :
    impl.b32Decode (cid.drop 1) = .ok data := by
  rw [CarExport.decoded, if_neg hqm] at h
  cases hpy : pyB32Decode (cid.drop 1) with
  | none =>
    rw [hpy] at h
    cases h
  | some raw =>
    rw [hpy] at h
    obtain rfl := Except.ok.inj h
    cases impl with
    | python => rw [Impl.b32Decode, hpy]
    | kotoba =>
      unfold pyB32Decode at hpy
      split_ifs at hpy
      exact congrArg Except.ok (Option.some.inj hpy)

/-- **The digest of a CID that the exporter accepts.** -/
theorem digestOf_eq (h : CarExport.cidBytes cid = .ok (data, digest)) (impl : Impl) : digestOf impl cid = .ok digest := by
  obtain ⟨codec, r₀, r₁, r₂, hr⟩ := CarExport.acceptedCid_of h
  have hencoded : multihash impl cid = .ok r₁ := by
    unfold multihash
    by_cases hqm : cid.take 2 = js "Qm"
    · have hv0 := CarExport.cidV0_of_qm hr.pattern hqm
      have hdec := hr.decoded
      rw [CarExport.decoded_qm hqm] at hdec
      obtain rfl := Except.ok.inj hdec
      -- the version and the codec are the two bytes before the multihash
      obtain ⟨-, rfl⟩ := Prod.mk.inj (Except.ok.inj hr.version)
      obtain ⟨-, rfl⟩ := Prod.mk.inj (Except.ok.inj hr.codec)
      rw [if_pos hv0, CarExport.b58Decode_eq hv0]
      rfl
    · obtain ⟨hv0, hv1⟩ := cidV1_of_not_qm hr.pattern hqm
      rw [hv0, if_neg Bool.false_ne_true, if_pos hv1]
      simp only [bind_eq_ok, require_eq_ok, exists_const]
      exact ⟨_, Impl.b32Decode_of_decoded hqm hr.decoded impl, _, varint_texts hr.version, rfl, _, varint_texts hr.codec, rfl⟩
  simp only [digestOf, bind_eq_ok, require_eq_ok, exists_const]
  exact ⟨_, hencoded, _, varint_texts hr.code, _, varint_texts hr.length, ⟨rfl, rfl, hr.size⟩, rfl⟩

end RawBlockStore
