import Yataverse.Copying.LittleEndian
import Yataverse.Copying.Tee
import Yataverse.Fallible.Rules
import Mathlib.Data.List.Dedup
import Mathlib.Data.List.Sort

/-!
# Indexed CARv2 files

The reader and the writer of `carv2_zstd.py`. Hashing is a parameter: `sha256` is any
function from byte strings to byte strings.

- `copyCarv1Payload`: one CARv1 file is copied, and its blocks are checked and indexed.
- `encodeIndex`, `carv2Header`: what the packer adds to it.
- `validateCarv2`: what is checked of a CARv2 file.
-/

namespace Carv2

open Copying Fallible

abbrev Bytes := List UInt8

/-- What the tool fails with: its own error with its text, a number that does not fit a
field of `struct.pack`, or a division by zero. -/
inductive Error where
  | archive (message : String)
  | struct
  | zeroDivision
deriving DecidableEq

/-- `PRAGMA`. -/
def pragma : Bytes := [0x0a, 0xa1, 0x67, 0x76, 0x65, 0x72, 0x73, 0x69, 0x6f, 0x6e, 0x02]

def carv2DataOffset : Nat := 51

def carv2HeaderBytes : Nat := 40

def multihashIndexSorted : Nat := 0x0401

def sha2_256 : Nat := 0x12

def maxHeaderBytes : Nat := 16 * 1024 * 1024

/-! ## Variable-length numbers -/

/-- `uvarint`. -/
def uvarint (value : Nat) : Bytes :=
  if value < 0x80 then [UInt8.ofNat value]
  else UInt8.ofNat (value &&& 0x7f ||| 0x80) :: uvarint (value >>> 7)
termination_by value
decreasing_by
  rw [Nat.shiftRight_eq_div_pow]
  omega

/-- A reader of a CAR that writes what it reads. -/
abbrev Copy := Tee UInt8 Error

/-- The loop of `read_uvarint` and of `_read_varint_after_first`: at most `n` more bytes. -/
def readVarint (truncated invalid : String) : Nat → Nat → Nat → Nat → Copy (Nat × Nat)
  | 0, _, _, _ => Tee.fail (.archive invalid)
  | n + 1, value, shift, length => do
    let byte ← Tee.next (.archive truncated)
    let value := value ||| (byte.toNat &&& 0x7f) <<< shift
    if byte < 0x80 then return (value, length + 1)
    else readVarint truncated invalid n value (shift + 7) (length + 1)

/-- `read_uvarint`: the value, and the bytes it takes. -/
def readUvarint (limit : Nat) : Copy (Nat × Nat) := do
  let (value, length) ← readVarint "truncated varint" "invalid varint" 10 0 0 0
  Tee.require (value ≤ limit) (.archive "varint exceeds supported limit")
  return (value, length)

/-- The `limit` of `read_uvarint` where none is given. -/
def noLimit : Nat := 2 ^ 64 - 1

/-- `_read_varint_after_first`. -/
def readVarintAfterFirst (first : UInt8) : Copy (Nat × Nat) :=
  if first < 0x80 then return (first.toNat &&& 0x7f, 1)
  else readVarint "truncated CID varint" "invalid CID varint" 9 (first.toNat &&& 0x7f) 7 1

/-- `read_exact`, and the copy of what it reads. -/
def readExact (size : Nat) : Copy Bytes := Tee.take size (.archive "truncated CAR data")

/-- `copy_exact`: the bytes copied, which the digest is updated with. -/
def copyExact (size : Nat) : Copy Bytes := Tee.take size (.archive "truncated CAR block")

/-! ## CARv1 files -/

/-- A row of the index: `(mh_code, block_digest, frame_offset)`. -/
structure Row where
  code : Nat
  digest : Bytes
  offset : Nat
deriving DecidableEq

/-- The multihash at the start of a frame. -/
structure Multihash where
  mhCode : Nat
  digestSize : Nat
  cidSize : Nat

/-- A CID without a version: a multihash of SHA2-256. -/
def cidV0 : Copy Multihash := do
  let (digestSize, _) ← readUvarint 1024
  return ⟨sha2_256, digestSize, 1 + (uvarint digestSize).length⟩

/-- A CID of version 1. -/
def cidV1 (first : UInt8) : Copy Multihash := do
  Tee.require (first = 1) (.archive "unsupported CID version in CARv1 frame")
  let (versionValue, versionLen) ← readVarintAfterFirst first
  Tee.require (versionValue = 1) (.archive "unsupported CID version in CARv1 frame")
  let (_, codecLen) ← readUvarint noLimit
  let (mhCode, mhLen) ← readUvarint noLimit
  let (digestSize, digestLen) ← readUvarint 1024
  return ⟨mhCode, digestSize, versionLen + codecLen + mhLen + digestLen⟩

/-- The CID that starts with the byte `first`. -/
def multihash (first : UInt8) : Copy Multihash :=
  if first.toNat = sha2_256 then cidV0 else cidV1 first

section Payload

variable (sha256 : Bytes → Bytes)

/-- One frame: the body of the loop of `copy_carv1_payload`. -/
def frame (totalSize : Nat) : Copy Row := do
  let frameOffset ← Tee.count
  let (frameSize, _) ← readUvarint totalSize
  let written ← Tee.count
  Tee.require (1 ≤ frameSize ∧ written + frameSize ≤ totalSize)
    (.archive "CARv1 frame exceeds the declared data section")
  let first ← Tee.next (.archive "truncated CAR data")
  let cid ← multihash first
  Tee.require (cid.digestSize = 32 ∧ cid.mhCode = sha2_256)
    (.archive "only sha2-256 CID blocks are supported")
  let blockDigest ← readExact cid.digestSize
  let cidSize := cid.cidSize + cid.digestSize
  Tee.require (cidSize ≤ frameSize) (.archive "CID is longer than its CARv1 frame")
  let payload ← copyExact (frameSize - cidSize)
  Tee.require (sha256 payload = blockDigest)
    (.archive "CARv1 block bytes do not match the CID digest")
  return ⟨cid.mhCode, blockDigest, frameOffset⟩

/-- The loop: `n` more rows are within the configured limit. -/
def frames (totalSize : Nat) : Nat → List Row → Copy (List Row)
  | n, rows => do
    let written ← Tee.count
    if written < totalSize then
      let row ← frame sha256 totalSize
      match n with
      | 0 => Tee.fail (.archive "CARv1 block count exceeds the configured limit")
      | n + 1 => frames totalSize n (rows ++ [row])
    else return rows

/-- The header and the frames of a CARv1 file. -/
def payload (totalSize maxBlocks : Nat) : Copy (List Row) := do
  let (headerSize, _) ← readUvarint maxHeaderBytes
  Tee.require (1 ≤ headerSize ∧ headerSize ≤ maxHeaderBytes) (.archive "invalid CARv1 header size")
  let _ ← readExact headerSize
  frames sha256 totalSize maxBlocks []

/-- `copy_carv1_payload`: the rows, and the destination with the copy behind what it
held. -/
def copyCarv1Payload (source destination : Bytes) (totalSize maxBlocks startOffset : Nat)
    (requireEof : Bool) : Except Error (List Row × Bytes) := do
  let (rows, tape) ← payload sha256 totalSize maxBlocks ⟨source.drop startOffset, []⟩
  require (tape.done.length = totalSize ∧ (requireEof = true → tape.rest = []))
    (.archive "CARv1 has trailing or missing bytes")
  require (rows ≠ []) (.archive "CARv1 contains no block frames")
  return (rows, destination ++ tape.done)

end Payload

/-! ## CARv2 files -/

/-- `struct.pack` of one unsigned field of `k` bytes. -/
def structPack (k n : Nat) : Except Error Bytes :=
  if n < 256 ^ k then .ok (bytesLE k n) else .error .struct

/-- `sorted(d)` of a dictionary with the given keys. -/
def sortedKeys (keys : List Nat) : List Nat := keys.dedup.insertionSort (· ≤ ·)

/-- The width of an index record. -/
def Row.width (row : Row) : Nat := row.digest.length + 8

/-- The order of records: by digest, then by offset. -/
def Row.le (a b : Row) : Prop := a.digest < b.digest ∨ (a.digest = b.digest ∧ a.offset ≤ b.offset)

instance : DecidableRel Row.le := fun a b => by
  unfold Row.le
  infer_instance

def encodeRecord (row : Row) : Except Error Bytes := do
  return row.digest ++ (← structPack 8 row.offset)

/-- The records of one width. -/
def encodeBucket (rows : List Row) (width : Nat) : Except Error Bytes := do
  let records := (rows.filter (·.width = width)).insertionSort Row.le
  let entries ← records.mapM encodeRecord
  return (← structPack 4 width) ++ (← structPack 8 (width * records.length)) ++ entries.flatten

/-- The buckets of one multihash code. -/
def encodeCode (rows : List Row) (code : Nat) : Except Error Bytes := do
  let coded := rows.filter (·.code = code)
  let widths := sortedKeys (coded.map Row.width)
  let buckets ← widths.mapM (encodeBucket coded)
  return (← structPack 8 code) ++ (← structPack 4 widths.length) ++ buckets.flatten

/-- `encode_index`. -/
def encodeIndex (rows : List Row) : Except Error Bytes := do
  let codes := sortedKeys (rows.map Row.code)
  let groups ← codes.mapM (encodeCode rows)
  return uvarint multihashIndexSorted ++ (← structPack 4 codes.length) ++ groups.flatten

/-- `carv2_header`. -/
def carv2Header (dataSize indexOffset : Nat) : Except Error Bytes := do
  return List.replicate 16 0 ++
    ((← structPack 8 carv2DataOffset) ++ (← structPack 8 dataSize) ++ (← structPack 8 indexOffset))

/-- What `validate_carv2` reports. -/
structure Validation where
  carv2Bytes : Nat
  blocks : Nat
  indexEntries : Nat
deriving DecidableEq

/-- `validate_carv2`. -/
def validateCarv2 (sha256 : Bytes → Bytes) (file : Bytes) (maxBlocks : Nat) :
    Except Error Validation := do
  require (file.take pragma.length = pragma) (.archive "decompressed stream is not CARv2")
  let rawHeader := (file.drop pragma.length).take carv2HeaderBytes
  require (rawHeader.length = carv2HeaderBytes) (.archive "truncated CAR data")
  require ((rawHeader.take 16).all (· = 0)) (.archive "CARv2 requests unsupported characteristics")
  let dataOffset := ofLE ((rawHeader.drop 16).take 8)
  let dataSize := ofLE ((rawHeader.drop 24).take 8)
  let indexOffset := ofLE ((rawHeader.drop 32).take 8)
  require (dataOffset = carv2DataOffset ∧ 1 ≤ dataSize ∧ indexOffset = dataOffset + dataSize)
    (.archive "CARv2 offsets are invalid")
  require (indexOffset < file.length) (.archive "CARv2 index is missing")
  let (rows, _) ← copyCarv1Payload sha256 file [] dataSize maxBlocks dataOffset false
  let expectedIndex ← encodeIndex rows
  let actualIndex := (file.drop indexOffset).take (expectedIndex.length + 1)
  require (actualIndex = expectedIndex) (.archive "CARv2 index does not match its CARv1 data")
  return ⟨file.length, rows.length, rows.length⟩

end Carv2
