import Yataverse.Carv2.Format
import Yataverse.Cbor.Item
import Yataverse.Lake.Cid

/-!
# Exporting blocks as a CARv1

`export_lake_car_from_kubo` writes a range of the inventory as a CARv1: a header with all
CIDs as roots, and a frame for every block, which must have the listed size and hash to its
CID. Hashing is a parameter.

- `cidBytes`: a CID in binary, with its digest.
- `selectedRows`: the range. 1024 bytes of the budget are kept for every row.
- `carHeader`, `writeRows`: the CAR.
- `exportCar`: the tool.
-/

namespace CarExport

open Js GraphHead Copying Fallible Lake

/-! ## CIDs -/

/-- `varint` -/
def varint (value : Nat) : Bytes :=
  if value < 128 then [byte value]
  else byte (value &&& 127 ||| 128) :: varint (value >>> 7)
termination_by value
decreasing_by
  rw [Nat.shiftRight_eq_div_pow]
  omega

/-- `read_varint` -/
def readVarint (data : Bytes) : Except String (Nat × Bytes) :=
  Lake.readVarint "invalid CID varint" "invalid CID varint" 10 0 0 data

/-- `number.to_bytes((number.bit_length() + 7) // 8, "big")` -/
def toBytes (number : Nat) : Bytes := (Nat.digits 256 number).reverse.map byte

/-- The bytes that a CID's text stands for. -/
def decoded (cid : JsString) : Except String Bytes :=
  if cid.take 2 = js "Qm" then
    .ok (0x01 :: 0x70 :: toBytes (cid.foldl (fun number u => number * 58 + b58.idxOf u) 0))
  else
    match pyB32Decode (cid.drop 1) with
    | some data => .ok data
    | none => .error "Incorrect padding"

/-- The codecs that the exporter knows. -/
def codecs : List Nat := [0x55, 0x70, 0x71, 0x129]

/-- `cid_bytes`: the CID in binary, and its digest. -/
def cidBytes (cid : JsString) : Except String (Bytes × Bytes) := do
  require (cidRe cid = true) "invalid inventory CID"
  let data ← decoded cid
  let (version, rest) ← readVarint data
  let (codec, rest) ← readVarint rest
  let (hashCode, rest) ← readVarint rest
  let (hashLength, rest) ← readVarint rest
  require (version = 1 ∧ codec ∈ codecs ∧ hashCode = 0x12 ∧ hashLength = 32 ∧ rest.length = 32)
    "unsupported inventory CID"
  return (data, rest)

/-! ## The header -/

/-- `cbor_length` -/
def cborLength (major length : Nat) : Except String Bytes :=
  if length < 24 then .ok [byte (major <<< 5 ||| length)]
  else if length < 256 then .ok [byte (major <<< 5 ||| 24), byte length]
  else if length < 65536 then .ok (byte (major <<< 5 ||| 25) :: Cbor.bytesBE 2 length)
  else if length < 4294967296 then .ok (byte (major <<< 5 ||| 26) :: Cbor.bytesBE 4 length)
  else .error "CBOR item too large"

/-- A link of DAG-CBOR. -/
def cborLink (cid : Bytes) : Except String Bytes := do
  return [0xd8, 0x2a] ++ (← cborLength 2 (cid.length + 1)) ++ [0x00] ++ cid

/-- `b"\xa2\x65roots"` -/
def rootsKey : Bytes := [0xa2, 0x65, 0x72, 0x6f, 0x6f, 0x74, 0x73]

/-- `b"\x67version\x01"` -/
def versionEntry : Bytes := [0x67, 0x76, 0x65, 0x72, 0x73, 0x69, 0x6f, 0x6e, 0x01]

/-- `car_header` -/
def carHeader (cids : List Bytes) : Except String Bytes := do
  let roots ← cids.mapM cborLink
  let header := rootsKey ++ (← cborLength 4 cids.length) ++ roots.flatten ++ versionEntry
  return varint header.length ++ header

/-! ## The range -/

/-- A line of the inventory. -/
structure Listed where
  cid : JsString
  bytes : Int

/-- The lines of the inventory. `none` is a line that is no JSON with a CID and a size. -/
abbrev Inventory := List (Option Listed)

/-- The loop of `selected_rows`: `count` lines have been read. A line that does not fit ends
the range, but the lines behind it are still checked. -/
def scan (start maxBlocks maxBytes : Nat) :
    Inventory → Nat → List (JsString × Nat) → Nat → Except String (List (JsString × Nat))
  | [], _, rows, _ => .ok rows
  | line :: lines, count, rows, total =>
    if start ≤ count ∧ count < start + maxBlocks then
      match line with
      | none => .error "invalid inventory row"
      | some ⟨cid, size⟩ =>
        if cidRe cid then
          if size > 8000000 ∨ size < 1 ∨ total + size + 1024 * (rows.length + 1) > maxBytes then
            if rows = [] then .error "first block exceeds CAR bounds"
            else scan start maxBlocks maxBytes lines (count + 1) rows total
          else if rows.length = count - start then
            scan start maxBlocks maxBytes lines (count + 1) (rows ++ [(cid, size.toNat)]) (total + size.toNat)
          else scan start maxBlocks maxBytes lines (count + 1) rows total
        else .error "invalid inventory CID or size"
    else scan start maxBlocks maxBytes lines (count + 1) rows total

/-- The arguments. -/
structure Args where
  sha256 : JsString
  count : Nat
  startRow : Nat
  maxBlocks : Nat
  maxBytes : Nat
  minFreeBytes : Nat

/-- A receipt, as far as it is compared with the range. -/
structure Receipt where
  complete : Bool
  inventorySha256 : JsString
  startRow : Nat
  endRow : Nat
  blocks : Nat
  sha256 : JsString
deriving DecidableEq

/-- What the tool finds on its host. -/
structure Host where
  /-- The Kubo binary and the repository are there. -/
  kubo : Bool
  inventory : Inventory
  inventorySha256 : JsString
  receipt : Option Receipt
  /-- The SHA-256 of the CAR that is there. -/
  output : Option JsString
  free : Nat
  /-- Kubo serves this repository. -/
  repository : Bool
  /-- `ipfs block get`, or the same over RPC. -/
  block : JsString → Nat → Option Bytes

/-- `selected_rows` -/
def selectedRows (host : Host) (a : Args) : Except String (List (JsString × Nat)) := do
  let rows ← scan a.startRow a.maxBlocks a.maxBytes host.inventory 0 [] 0
  require (host.inventorySha256 = a.sha256 ∧ host.inventory.length = a.count)
    "inventory identity differs from dated snapshot"
  require (rows ≠ []) "empty inventory range"
  return rows

/-! ## The CAR -/

/-- `write`, behind what has been written. -/
def write (maxBytes : Nat) (out data : Bytes) : Except String Bytes :=
  if out.length + data.length ≤ maxBytes then .ok (out ++ data) else .error "CAR exceeds byte budget"

section Hashing

variable (sha256 : Bytes → Bytes)

/-- The loop of `export`: the frames of the rows, each with its CID and digest. -/
def writeRows (host : Host) (maxBytes : Nat) :
    List ((JsString × Nat) × (Bytes × Bytes)) → Bytes → Except String Bytes
  | [], out => .ok out
  | ((cid, size), (binary, digest)) :: rows, out => do
    match host.block cid size with
    | none => .error "local Kubo block unavailable"
    | some data =>
      require (data.length = size ∧ sha256 data = digest) "local block differs from inventory CID or size"
      let out ← write maxBytes out (varint (binary.length + data.length))
      let out ← write maxBytes out binary
      let out ← write maxBytes out data
      writeRows host maxBytes rows out

/-- What the tool ends with: the receipt that was there, or a new CAR. -/
inductive Exported where
  | saved (r : Receipt)
  | written (car : Bytes) (r : Receipt)

/-- The saved receipt is compared with the range and with the CAR. -/
def savedReceipt (host : Host) (a : Args) (rows : List (JsString × Nat)) (r : Receipt) : Except String Exported := do
  require (host.output ≠ none ∧ r = ⟨true, a.sha256, a.startRow, a.startRow + rows.length, rows.length, r.sha256⟩ ∧
    host.output = some r.sha256) "saved CAR differs from receipt"
  return .saved r

/-- The receipt of a new CAR. -/
def receiptOf (a : Args) (blocks : Nat) (car : Bytes) : Receipt :=
  ⟨true, a.sha256, a.startRow, a.startRow + blocks, blocks, hexdigest (sha256 car)⟩

/-- A new CAR. -/
def writeCar (host : Host) (a : Args) (rows : List (JsString × Nat)) : Except String Exported := do
  let encoded ← rows.mapM fun row => cidBytes row.1
  let header ← carHeader (encoded.map Prod.fst)
  let out ← write a.maxBytes [] header
  let car ← writeRows sha256 host a.maxBytes (rows.zip encoded) out
  return .written car (receiptOf sha256 a rows.length car)

/-- `export` -/
def exportCar (host : Host) (a : Args) : Except String Exported := do
  require (sha256Re a.sha256 = true ∧ 1 ≤ a.count ∧ (1 ≤ a.maxBlocks ∧ a.maxBlocks ≤ 1000) ∧
    (1 ≤ a.maxBytes ∧ a.maxBytes ≤ 536870912)) "invalid inventory identity or bounds"
  require (host.kubo = true) "Kubo binary or repository is absent"
  let rows ← selectedRows host a
  match host.receipt with
  | some r => savedReceipt host a rows r
  | none =>
    require (host.output = none) "CAR exists without receipt"
    require (2 * a.maxBytes + a.minFreeBytes ≤ host.free) "physical disk reserve would be crossed"
    require (host.repository = true) "Kubo repository unavailable"
    writeCar sha256 host a rows

end Hashing

end CarExport
