import Yataverse.RawBlockStore.Digest

/-!
# The readers of a CID agree

The drill reads the digest of a CID at a fixed place: behind a version, a codec, a hash code and a length of one byte
each. The other readers step over the four numbers.

- `digestOf`: the reader of the drill.
- **`digests_agree`**: all readers return the digest that the exporter finds; the drill does where the binary CID has
  36 bytes, and every CIDv0 has.
-/

namespace IndependentRead

open Js GraphHead Fallible Lake

/-- `digest-of` -/
def digestOf (cid : JsString) : Except String Bytes :=
  if (js "Qm").isPrefixOf cid then
    match b58Decode cid with
    | some raw => .ok (raw.drop 2)
    | none => .error "Cannot read properties of null (reading 'subarray')"
  else
    -- version, codec, then 0x12 0x20
    .ok (((b32Decode (cid.drop 1)).take (2 + 34)).drop (2 + 2))

variable {cid : JsString} {data digest : Bytes}

/-- The digest is the end of the binary CID, and the multihash has two bytes before it. -/
theorem digest_suffix (h : CarExport.cidBytes cid = .ok (data, digest)) :
    digest.length = 32 ∧ (∃ front, 4 ≤ front.length ∧ data = front ++ digest) := by
  obtain ⟨codec, r₀, r₁, r₂, hr⟩ := CarExport.acceptedCid_of h
  obtain ⟨a, ha, rfl⟩ := readVarint_suffix hr.version
  obtain ⟨b, hb, rfl⟩ := readVarint_suffix hr.codec
  obtain ⟨c, hc, rfl⟩ := readVarint_suffix hr.code
  obtain ⟨d, hd, rfl⟩ := readVarint_suffix hr.length
  refine ⟨hr.size, a ++ (b ++ (c ++ d)), ?_, by simp only [List.append_assoc]⟩
  have ha := List.length_pos_iff.mpr ha
  have hb := List.length_pos_iff.mpr hb
  have hc := List.length_pos_iff.mpr hc
  have hd := List.length_pos_iff.mpr hd
  rw [List.length_append, List.length_append, List.length_append]
  omega

/-- A binary CID of 36 bytes has its digest behind the first four. -/
theorem drop_four (h : CarExport.cidBytes cid = .ok (data, digest)) (hlen : data.length = 36) : data.drop 4 = digest := by
  obtain ⟨hsize, front, hfront, rfl⟩ := digest_suffix h
  rw [List.length_append] at hlen
  exact List.drop_left' (by omega)

/-- A CIDv0 has 36 bytes. -/
theorem length_of_qm (h : CarExport.cidBytes cid = .ok (data, digest)) (hqm : cid.take 2 = js "Qm") :
    data.length = 36 ∧ b58Decode cid = some (data.drop 2) := by
  obtain ⟨codec, r₀, r₁, r₂, hr⟩ := CarExport.acceptedCid_of h
  have hv0 := CarExport.cidV0_of_qm hr.pattern hqm
  have hbound := CarExport.length_cidV0 hv0
  obtain ⟨hsize, front, hfront, rfl⟩ := digest_suffix h
  have hdec := hr.decoded
  rw [CarExport.decoded_qm hqm] at hdec
  have hdata := Except.ok.inj hdec
  rw [CarExport.b58Decode_eq hv0, ← hdata]
  have hlen := congrArg List.length hdata
  rw [List.length_cons, List.length_cons, List.length_append] at hlen
  refine ⟨?_, rfl⟩
  rw [List.length_cons, List.length_cons]
  omega

/-- **All readers return the digest that the exporter finds.** -/
theorem digests_agree (h : CarExport.cidBytes cid = .ok (data, digest)) :
    digest.length = 32 ∧ CarExport.Kotoba.cidBytes cid = .ok (data, digest) ∧
      RawBlockStore.Python.sha256Digest cid = .ok digest ∧ RawBlockStore.Kotoba.sha256Digest cid = .ok digest ∧
        (cid.take 2 = js "Qm" ∨ data.length = 36 → digestOf cid = .ok digest) := by
  refine ⟨(digest_suffix h).1, CarExport.Kotoba.cidBytes_eq h, ?_, ?_, fun hshort => ?_⟩
  · rw [← RawBlockStore.Python.sha256Digest_eq]
    exact RawBlockStore.digestOf_eq h .python
  · exact RawBlockStore.Kotoba.sha256Digest_eq (RawBlockStore.digestOf_eq h .kotoba)
  · have hpre : (js "Qm").isPrefixOf cid = true ↔ cid.take 2 = js "Qm" := CarExport.isPrefixOf_qm
    unfold digestOf
    by_cases hqm : cid.take 2 = js "Qm"
    · obtain ⟨hlen, hraw⟩ := length_of_qm h hqm
      rw [if_pos (hpre.mpr hqm), hraw]
      exact congrArg Except.ok ((List.drop_drop ..).trans (drop_four h hlen))
    · have hlen := hshort.resolve_left hqm
      have hraw : b32Decode (cid.drop 1) = data := by
        obtain ⟨codec, r₀, r₁, r₂, hr⟩ := CarExport.acceptedCid_of h
        have hported := CarExport.decoded_ported hr.pattern hr.decoded
        rw [CarExport.Kotoba.decoded, if_neg (mt hpre.mp hqm)] at hported
        exact Except.ok.inj hported
      rw [if_neg (mt hpre.mp hqm), hraw, List.take_of_length_le hlen.le]
      exact congrArg Except.ok (drop_four h hlen)

namespace Sample

/-- A raw block: the letter `a`. -/
def rawCid : JsString := js "bafkreigks6arfsq3xxfpvqrrwonchxcnu6do76auprhhfomao6c273sixm"

def rawDigest : Bytes :=
  [0xca, 0x97, 0x81, 0x12, 0xca, 0x1b, 0xbd, 0xca, 0xfa, 0xc2, 0x31, 0xb3, 0x9a, 0x23, 0xdc, 0x4d,
    0xa7, 0x86, 0xef, 0xf8, 0x14, 0x7c, 0x4e, 0x72, 0xb9, 0x80, 0x77, 0x85, 0xaf, 0xee, 0x48, 0xbb]

/-- A block of DAG-JSON, whose codec takes two bytes. -/
def jsonCid : JsString := js "baguqeeraiqjw7i2vwntyuekgvulpp2det2kpwt6cd7tx5ayqybqpmhfk76fa"

def jsonDigest : Bytes :=
  [0x44, 0x13, 0x6f, 0xa3, 0x55, 0xb3, 0x67, 0x8a, 0x11, 0x46, 0xad, 0x16, 0xf7, 0xe8, 0x64, 0x9e,
    0x94, 0xfb, 0x4f, 0xc2, 0x1f, 0xe7, 0x7e, 0x83, 0x10, 0xc0, 0x60, 0xf6, 0x1c, 0xaa, 0xff, 0x8a]

theorem cidBytes_raw : CarExport.cidBytes rawCid = .ok ([0x01, 0x55, 0x12, 0x20] ++ rawDigest, rawDigest) := by
  decide +kernel

end Sample

theorem digests_agree_sample : Sample.rawDigest.length = 32 ∧
    CarExport.Kotoba.cidBytes Sample.rawCid = .ok ([0x01, 0x55, 0x12, 0x20] ++ Sample.rawDigest, Sample.rawDigest) ∧
      RawBlockStore.Python.sha256Digest Sample.rawCid = .ok Sample.rawDigest ∧
        RawBlockStore.Kotoba.sha256Digest Sample.rawCid = .ok Sample.rawDigest ∧
          (Sample.rawCid.take 2 = js "Qm" ∨ ([0x01, 0x55, 0x12, 0x20] ++ Sample.rawDigest).length = 36 →
            digestOf Sample.rawCid = .ok Sample.rawDigest) :=
  digests_agree Sample.cidBytes_raw

/-- **A codec of two bytes** puts the digest out of the place where the drill looks for it. -/
theorem digestOf_shifted :
    CarExport.cidBytes Sample.jsonCid = .ok ([0x01, 0xa9, 0x02, 0x12, 0x20] ++ Sample.jsonDigest, Sample.jsonDigest) ∧
      digestOf Sample.jsonCid = .ok (0x20 :: Sample.jsonDigest.take 31) ∧
        digestOf Sample.jsonCid ≠ .ok Sample.jsonDigest := by
  refine ⟨by decide +kernel, by decide +kernel, by decide +kernel⟩

end IndependentRead
