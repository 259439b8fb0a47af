import Yataverse.GraphHead.VerifyHead
import Yataverse.Lake.Cid
import Yataverse.Radix.Convert
import Mathlib.Data.List.GetD
import Mathlib.Data.List.Nodup

/-!
# base58btc and back

Two tools write base58 and two read it. The number of the bytes changes its radix, and a zero in front stays one.

- `LakeHead.b58Encode`, `P6Drill.b58Encode`, `LakeHead.b58Decode`: beside `GraphHead.b58Decode`.
- `LakeHead.didKeyPub`, `LakeHead.didOfPub`, `P6Drill.didOfPub`: a key as a did:key.
- `b58Encode_eq`, `b58Decode_eq`: both are `Radix.convert`.
- **`base58_bijection`**: every text of digits is that of its bytes, so that a key and a signature have one spelling.
-/

open Js GraphHead

namespace LakeHead

/-- Little-endian digits times 256, plus a byte. -/
def mulAdd256 : List Nat → Nat → List Nat := Radix.mulAdd 256 58

/-- `b58-encode` -/
def b58Encode (buf : Bytes) : JsString :=
  List.replicate (buf.takeWhile (· = 0)).length (unit '1') ++
    ((buf.map UInt8.toNat).foldl mulAdd256 []).reverse.map fun d => b58.getD d 0

/-- `b58-decode`, which is that of `graph_head` -/
def b58Decode (text : JsString) : Option Bytes := GraphHead.b58Decode text

/-- `did-key->pub` -/
def didKeyPub (did : JsString) : Option Bytes :=
  if (js "did:key:z").isPrefixOf did then
    match b58Decode (did.drop 9) with
    | some raw => if raw.length = 34 ∧ raw[0]? = some 0xed ∧ raw[1]? = some 0x01 then some (raw.drop 2) else none
    | none => none
  else none

/-- The `:did` of `writer-of-seed` -/
def didOfPub (pub : Bytes) : JsString := js "did:key:z" ++ b58Encode ([0xed, 0x01] ++ pub)

end LakeHead

namespace P6Drill

/-- `b58-encode`, which is that of `lake_head` -/
def b58Encode (buf : Bytes) : JsString := LakeHead.b58Encode buf

/-- `did-of-pub` -/
def didOfPub (pub : Bytes) : JsString := js "did:key:z" ++ b58Encode ([0xed, 0x01] ++ pub)

end P6Drill

namespace Lake

variable {s did : JsString} {u : UInt16} {buf pub : Bytes} {n : Nat}

/-! ## The loops -/

theorem mulAdd58_eq : mulAdd58 = Radix.mulAdd 58 256 := by
  funext bs carry
  induction bs generalizing carry with
  | nil => rfl
  | cons x bs ih => rw [mulAdd58, Radix.mulAdd, ih]

theorem foldl_mulAdd58 (idx : List Nat) : idx.foldl mulAdd58 [] = Nat.digits 256 (Radix.number 58 idx) := by
  rw [mulAdd58_eq]
  exact Radix.foldl_mulAdd (by decide) (by decide) idx

/-! ## Digits -/

/-- The digit of a number. -/
def digit58 (d : Nat) : UInt16 := b58.getD d 0

theorem digit58_idxOf (hu : u ∈ b58) : digit58 (b58.idxOf u) = u := by
  rw [digit58, List.getD_eq_getElem b58 0 (List.idxOf_lt_length_of_mem hu), List.getElem_idxOf]

theorem idxOf_digit58 (hn : n < 58) : b58.idxOf (digit58 n) = n := by
  have hdistinct : b58.Nodup := by decide +kernel
  rw [digit58, List.getD_eq_getElem b58 0 hn]
  exact hdistinct.idxOf_getElem n hn

theorem digit58_mem (hn : n < 58) : digit58 n ∈ b58 := by
  rw [digit58, List.getD_eq_getElem b58 0 hn]
  exact List.getElem_mem hn

theorem idxOf_b58_lt (hu : u ∈ b58) : b58.idxOf u < 58 := List.idxOf_lt_length_of_mem hu

theorem mapM_idxOf (hs : ∀ u ∈ s, u ∈ b58) : (s.mapM fun u => b58.idxOf? u) = some (s.map b58.idxOf) := by
  have hidx : ∀ u ∈ b58, b58.idxOf? u = some (b58.idxOf u) := by
    intro u hu
    obtain ⟨i, hi⟩ := Option.isSome_iff_exists.mp (List.isSome_idxOf?.mpr hu)
    rw [List.idxOf_eq_getD_idxOf?, hi, Option.getD_some]
  induction s with
  | nil => rfl
  | cons u s ih =>
    obtain ⟨hu, hmore⟩ := List.forall_mem_cons.mp hs
    rw [List.mapM_cons, hidx u hu, ih hmore]
    rfl

theorem mapM_idxOf_none (hu : u ∈ s) (hdigit : u ∉ b58) : (s.mapM fun u => b58.idxOf? u) = none := by
  induction s with
  | nil => cases hu
  | cons v s ih =>
    rw [List.mapM_cons]
    rcases List.mem_cons.mp hu with rfl | hu
    · rw [List.idxOf?_eq_none_iff.mpr hdigit]
      rfl
    · rw [ih hu]
      cases b58.idxOf? v <;> rfl

/-! ## Numerals -/

/-- The reader changes the radix from 58 to 256. -/
theorem b58Decode_eq (hs : ∀ u ∈ s, u ∈ b58) :
    b58Decode s = some ((Radix.convert 58 256 (s.map b58.idxOf)).map byte) := by
  rw [b58Decode, mapM_idxOf hs, Option.map_some, foldl_mulAdd58, Radix.convert, List.map_append, List.map_replicate]
  rfl

theorem b58Decode_eq_none (hu : u ∈ s) (hdigit : u ∉ b58) : b58Decode s = none := by
  rw [b58Decode, mapM_idxOf_none hu hdigit, Option.map_none]

theorem zeros_bytes (buf : Bytes) : (buf.takeWhile (· = 0)).length = Radix.zeros (buf.map UInt8.toNat) := by
  rw [Radix.zeros, List.takeWhile_map, List.length_map]
  congr 2
  funext b
  exact decide_eq_decide.mpr UInt8.toNat_inj.symm

/-- The writer changes it from 256 to 58. -/
theorem b58Encode_eq (buf : Bytes) :
    LakeHead.b58Encode buf = (Radix.convert 256 58 (buf.map UInt8.toNat)).map digit58 := by
  rw [LakeHead.b58Encode, LakeHead.mulAdd256, Radix.foldl_mulAdd (by decide) (by decide), zeros_bytes, Radix.convert,
    List.map_append, List.map_replicate]
  rfl

theorem map_byte_toNat {ds : List Nat} (h : ∀ d ∈ ds, d < 256) : (ds.map byte).map UInt8.toNat = ds := by
  rw [List.map_map]
  exact (List.map_congr_left fun d hd => UInt8.toNat_ofNat_of_lt' (h d hd)).trans (List.map_id _)

theorem map_toNat_byte (buf : Bytes) : (buf.map UInt8.toNat).map byte = buf := by
  rw [List.map_map]
  exact (List.map_congr_left fun b _ => UInt8.ofNat_toNat).trans (List.map_id _)

theorem b58Encode_digits (buf : Bytes) : ∀ u ∈ LakeHead.b58Encode buf, u ∈ b58 := by
  intro u hu
  rw [b58Encode_eq] at hu
  obtain ⟨d, hd, rfl⟩ := List.mem_map.mp hu
  exact digit58_mem (Radix.convert_lt (by decide) d hd)

/-- **Bytes that were written read back.** -/
theorem b58Decode_encode (buf : Bytes) : b58Decode (LakeHead.b58Encode buf) = some buf := by
  have hidx : (LakeHead.b58Encode buf).map b58.idxOf = Radix.convert 256 58 (buf.map UInt8.toNat) := by
    rw [b58Encode_eq, List.map_map]
    exact (List.map_congr_left fun d hd => idxOf_digit58 (Radix.convert_lt (by decide) d hd)).trans (List.map_id _)
  have hbytes : ∀ d ∈ buf.map UInt8.toNat, d < 256 := by
    intro d hd
    obtain ⟨b, -, rfl⟩ := List.mem_map.mp hd
    exact b.toNat_lt
  rw [b58Decode_eq (b58Encode_digits buf), hidx, Radix.convert_convert (by decide) hbytes, map_toNat_byte]

/-- **A text of digits is what would be written of its bytes.** -/
theorem b58Encode_decode (hs : ∀ u ∈ s, u ∈ b58) : ∃ buf, b58Decode s = some buf ∧ LakeHead.b58Encode buf = s := by
  refine ⟨_, b58Decode_eq hs, ?_⟩
  have hidx : ∀ d ∈ s.map b58.idxOf, d < 58 := by
    intro d hd
    obtain ⟨u, hu, rfl⟩ := List.mem_map.mp hd
    exact idxOf_b58_lt (hs u hu)
  rw [b58Encode_eq, map_byte_toNat (Radix.convert_lt (by decide)), Radix.convert_convert (by decide) hidx, List.map_map]
  exact (List.map_congr_left fun u hu => digit58_idxOf (hs u hu)).trans (List.map_id _)

/-- What is read was written so. -/
theorem b58Decode_eq_some : b58Decode s = some buf ↔ s = LakeHead.b58Encode buf := by
  constructor
  · intro h
    by_cases hs : ∀ u ∈ s, u ∈ b58
    · obtain ⟨buf', hbuf, hback⟩ := b58Encode_decode hs
      rw [h] at hbuf
      rw [← hback, Option.some.inj hbuf]
    · obtain ⟨u, hs⟩ := not_forall.mp hs
      obtain ⟨hu, hdigit⟩ := Classical.not_imp.mp hs
      rw [b58Decode_eq_none hu hdigit] at h
      cases h
  · rintro rfl
    exact b58Decode_encode buf

/-! ## Keys and signatures -/

theorem key_of_raw {raw : Bytes} : (raw.length = 34 ∧ raw[0]? = some 0xed ∧ raw[1]? = some 0x01) ∧ raw.drop 2 = pub ↔
    pub.length = 32 ∧ raw = [0xed, 0x01] ++ pub := by
  rcases raw with _ | ⟨a, _ | ⟨b, raw⟩⟩ <;> simp
  constructor
  · rintro ⟨⟨hlen, rfl, rfl⟩, rfl⟩
    exact ⟨hlen, rfl, rfl, rfl⟩
  · rintro ⟨hlen, rfl, rfl, rfl⟩
    exact ⟨⟨hlen, rfl, rfl⟩, rfl⟩

/-- **A key has one did:key.** -/
theorem didKeyPub_eq_some : LakeHead.didKeyPub did = some pub ↔ pub.length = 32 ∧ did = LakeHead.didOfPub pub := by
  rw [LakeHead.didKeyPub, LakeHead.didOfPub]
  constructor
  · intro h
    split_ifs at h with hprefix
    obtain ⟨text, rfl⟩ := List.isPrefixOf_iff_prefix.mp hprefix
    rw [show (js "did:key:z" ++ text).drop 9 = text from rfl, LakeHead.b58Decode] at h
    cases hraw : b58Decode text with
    | none =>
      rw [hraw] at h
      cases h
    | some raw =>
      rw [hraw] at h
      dsimp only at h
      split_ifs at h with hkey
      obtain ⟨hlen, rfl⟩ := key_of_raw.mp ⟨hkey, Option.some.inj h⟩
      exact ⟨hlen, by rw [b58Decode_eq_some.mp hraw]⟩
  · rintro ⟨hlen, rfl⟩
    have hprefix : (js "did:key:z").isPrefixOf (js "did:key:z" ++ LakeHead.b58Encode ([0xed, 0x01] ++ pub)) = true :=
      List.isPrefixOf_iff_prefix.mpr (List.prefix_append _ _)
    obtain ⟨hkey, hpub⟩ := key_of_raw.mpr ⟨hlen, rfl⟩
    have hdrop : (js "did:key:z" ++ LakeHead.b58Encode ([0xed, 0x01] ++ pub)).drop 9 =
        LakeHead.b58Encode ([0xed, 0x01] ++ pub) := rfl
    rw [if_pos hprefix, hdrop, LakeHead.b58Decode, b58Decode_encode]
    dsimp only
    rw [if_pos hkey, hpub]

/-- The key of `graph_head` is that of `lake_head`. -/
theorem ed25519PubOfDid_eq (did : JsString) : (ed25519PubOfDid did).toOption = LakeHead.didKeyPub did := by
  rw [ed25519PubOfDid, LakeHead.didKeyPub, LakeHead.b58Decode]
  by_cases hprefix : (js "did:key:z").isPrefixOf did = true
  · rw [if_neg (not_not.mpr hprefix), if_pos hprefix]
    cases b58Decode (did.drop 9) with
    | none => rfl
    | some raw =>
      dsimp only
      split_ifs <;> rfl
  · rw [if_pos hprefix, if_neg hprefix]
    rfl

/-- Who writes. -/
inductive Writer58 where
  | lakeHead
  | p6Drill

/-- Who reads. -/
inductive Reader58 where
  | lakeHead
  | graphHead

def Writer58.encode : Writer58 → Bytes → JsString
  | lakeHead => LakeHead.b58Encode
  | p6Drill => P6Drill.b58Encode

def Writer58.didOfPub : Writer58 → Bytes → JsString
  | lakeHead => LakeHead.didOfPub
  | p6Drill => P6Drill.didOfPub

def Reader58.decode : Reader58 → JsString → Option Bytes
  | lakeHead => LakeHead.b58Decode
  | graphHead => GraphHead.b58Decode

def Reader58.pubOfDid : Reader58 → JsString → Option Bytes
  | lakeHead => LakeHead.didKeyPub
  | graphHead => fun did => (ed25519PubOfDid did).toOption

/-- **base58btc is a bijection.** Bytes read back, and so do texts of digits; any other text is refused. Of a key there is
one did:key, and of a signature one multibase text. -/
theorem base58_bijection (w : Writer58) (r : Reader58) :
    (∀ buf, r.decode (w.encode buf) = some buf) ∧
      (∀ s, (∀ u ∈ s, u ∈ b58) → ∃ buf, r.decode s = some buf ∧ w.encode buf = s) ∧
      (∀ s, (∃ u ∈ s, u ∉ b58) → r.decode s = none) ∧
      (∀ did pub, r.pubOfDid did = some pub ↔ pub.length = 32 ∧ did = w.didOfPub pub) ∧
      ∀ signature text buf, multibase58 (.str signature) = some text →
        (r.decode text = some buf ↔ signature = unit 'z' :: w.encode buf) := by
  have hencode : w.encode = LakeHead.b58Encode := by cases w <;> rfl
  have hdid : w.didOfPub = LakeHead.didOfPub := by cases w <;> rfl
  have hdecode : r.decode = GraphHead.b58Decode := by cases r <;> rfl
  have hpub : r.pubOfDid = LakeHead.didKeyPub := by
    cases r with
    | lakeHead => rfl
    | graphHead => exact funext ed25519PubOfDid_eq
  rw [hencode, hdid, hdecode, hpub]
  refine ⟨b58Decode_encode, fun s hs => b58Encode_decode hs, ?_, fun did pub => didKeyPub_eq_some, ?_⟩
  · rintro s ⟨u, hu, hdigit⟩
    exact b58Decode_eq_none hu hdigit
  · intro signature text buf htext
    cases signature with
    | nil => cases htext
    | cons u signature =>
      rw [multibase58] at htext
      split_ifs at htext with hz
      obtain rfl := Option.some.inj htext
      rw [hz, List.cons_inj_right]
      exact b58Decode_eq_some

end Lake
