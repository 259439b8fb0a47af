import Yataverse.Cbor.Item
import Yataverse.Lake.Inventory
import Yataverse.RawBlockStore.Store

/-!
# Reading the lake back

`verify_lake_leaves` reads the blocks of a pinned inventory from this host, some rows in each round,
and folds what it has found into counters and a hash. The checkpoint between two rounds is the
same for the Python and the Kotoba tool.

- `State`: the checkpoint; `loadState` and `State.json` are its reader and its writer.
- `OfflineBlocks.read`: the blocks of this host.
- `pyAdvance`, `kotobaAdvance`: a round.

Numbers are exact, and the SHA-256 is a parameter.
-/

namespace Readback

open Js GraphHead Lake Fallible
open RawBlockStore (Impl verifyCid maxBlock)

/-! ## The checkpoint -/

/-- `checkpoint`. -/
structure State where
  schema : Nat
  inventorySha256 : JsString
  inventoryRows : Nat
  repository : JsString
  peerId : JsString
  cursor : Nat
  presentRows : Nat
  presentBytes : Nat
  missingRows : Nat
  missingBytes : Nat
  scanSha256 : JsString
deriving DecidableEq

/-- `fresh_state`. -/
def freshState (inventory : Inventory) (repo peer : JsString) : State where
  schema := 1
  inventorySha256 := inventory.sha256
  inventoryRows := inventory.entries.length
  repository := repo
  peerId := peer
  cursor := 0
  presentRows := 0
  presentBytes := 0
  missingRows := 0
  missingBytes := 0
  scanSha256 := List.replicate 64 (unit '0')

/-- A whole number of a checkpoint. -/
def num (n : Nat) : Json := .num (.int n)

/-- What `save_state` writes, in the order of the keys. -/
def State.json (s : State) : Json :=
  .obj [(js "cursor", num s.cursor), (js "inventory_rows", num s.inventoryRows),
    (js "inventory_sha256", .str s.inventorySha256), (js "missing_bytes", num s.missingBytes),
    (js "missing_rows", num s.missingRows), (js "peer_id", .str s.peerId), (js "present_bytes", num s.presentBytes),
    (js "present_rows", num s.presentRows), (js "repository", .str s.repository), (js "scan_sha256", .str s.scanSha256),
    (js "schema", num s.schema)]

/-- The keys of a checkpoint. -/
def stateKeys : List JsString :=
  [js "cursor", js "inventory_rows", js "inventory_sha256", js "missing_bytes", js "missing_rows", js "peer_id",
    js "present_bytes", js "present_rows", js "repository", js "scan_sha256", js "schema"]

/-- A whole number that is not negative. -/
def nat? (v : Json) : Option Nat :=
  match v.int? with
  | some n => if 0 ≤ n then some n.toNat else none
  | none => none

/-- The members of a checkpoint, each of its type. -/
def readState (v : Json) : Option State :=
  if v.keys = stateKeys then do
    let schema ← nat? (v.get (js "schema"))
    let inventorySha256 ← (v.get (js "inventory_sha256")).str?
    let inventoryRows ← nat? (v.get (js "inventory_rows"))
    let repository ← (v.get (js "repository")).str?
    let peerId ← (v.get (js "peer_id")).str?
    let cursor ← nat? (v.get (js "cursor"))
    let presentRows ← nat? (v.get (js "present_rows"))
    let presentBytes ← nat? (v.get (js "present_bytes"))
    let missingRows ← nat? (v.get (js "missing_rows"))
    let missingBytes ← nat? (v.get (js "missing_bytes"))
    let scanSha256 ← (v.get (js "scan_sha256")).str?
    return ⟨schema, inventorySha256, inventoryRows, repository, peerId, cursor, presentRows, presentBytes, missingRows,
      missingBytes, scanSha256⟩
  else none

/-- A checkpoint of this inventory, repository and daemon. -/
def State.belongs (s expected : State) : Prop :=
  s.schema = expected.schema ∧ s.inventorySha256 = expected.inventorySha256 ∧
    s.inventoryRows = expected.inventoryRows ∧ s.repository = expected.repository ∧ s.peerId = expected.peerId ∧
    s.cursor ≤ expected.inventoryRows ∧ s.presentRows + s.missingRows = s.cursor ∧ sha256Re s.scanSha256 = true

instance (s expected : State) : Decidable (s.belongs expected) := by
  unfold State.belongs
  infer_instance

/-- `load_state`. `none` is no file, and `some none` one that is no JSON. -/
def loadState (file : Option (Option Json)) (inventory : Inventory) (repo peer : JsString) : Except String State :=
  match file with
  | none => .ok (freshState inventory repo peer)
  | some none => .error "readback checkpoint is unreadable"
  | some (some v) =>
    match readState v with
    | some s =>
      if s.belongs (freshState inventory repo peer) then .ok s
      else .error "readback checkpoint differs from repository or inventory"
    | none => .error "readback checkpoint differs from repository or inventory"

/-! ## The blocks of this host -/

/-- What reads a block, from its CID and its size; `none` where this host does not have it. -/
abbrev Reader := JsString → Nat → Except String (Option Bytes)

/-- What Kubo answers to `block/get`, offline. -/
inductive Response where
  | body (data : Bytes)
  | notFound
  | invalidError
  | refused
  | failed

/-- The raw block store, and Kubo. -/
structure OfflineBlocks where
  raw : JsString → Except String (Option Bytes)
  kubo : JsString → Nat → Response

/-- `read`, `read-block`. -/
def OfflineBlocks.read (blocks : OfflineBlocks) : Reader := fun cid size => do
  require (1 ≤ size ∧ size ≤ maxBlock) "inventory block exceeds readback limit"
  match blocks.raw cid with
  | .error _ => .error "raw block store refused"
  | .ok (some raw) => .ok (some raw)
  | .ok none =>
    match blocks.kubo cid size with
    | .body data => if data.length = size then .ok (some data) else .error "local block size differs"
    | .notFound => .ok none
    | .invalidError => .error "Kubo RPC returned invalid error"
    | .refused => .error "Kubo RPC refused block read"
    | .failed => .error "Kubo RPC block read failed"

/-! ## A round -/

/-- What a round ends with. -/
inductive Status where
  | complete
  /-- `"partial"` -/
  | partly
  | waiting
deriving DecidableEq

/-- The status of a state that waits for nothing. -/
def State.status (s : State) (inventory : Inventory) : Status :=
  if s.cursor = inventory.entries.length ∧ s.missingRows = 0 then .complete else .partly

/-- `n.to_bytes(8, "big")`. -/
def u64 (n : Nat) : Except String Bytes := if n < 2 ^ 64 then .ok (Cbor.bytesBE 8 n) else .error "int too big to convert"

/-- `bytes.fromhex`, of hexadecimal digits. -/
def fromHex : JsString → Bytes
  | a :: b :: s => byte (hexValue a * 16 + hexValue b) :: fromHex s
  | _ => []
where
  hexValue (u : UInt16) : Nat := if u < 0x61 then u.toNat - 0x30 else u.toNat - 0x57

section Rounds

variable (nc : NodeCrypto)

/-- `fold`: the next hash of the scan. -/
def fold (scan : JsString) (cursor : Nat) (cid : JsString) (size : Nat) (kind : JsString) (digest : Bytes) :
    Except String JsString := do
  let cursor ← u64 cursor
  let length ← u64 size
  return hexdigest (nc.sha256 (fromHex scan ++ cursor ++ utf8 cid ++ length ++ utf8 kind ++ digest))

/-- A row with what has been read of it. -/
def State.addRow (impl : Impl) (s : State) (row : Row) : Option Bytes → Except String State
  | some data => do
    require (data.length = row.size) "local block size differs"
    match verifyCid nc impl row.cid data with
    | .error _ => .error "local block CID differs from bytes"
    | .ok () =>
      let scan ← fold nc s.scanSha256 s.cursor row.cid row.size (js "present") (nc.sha256 data)
      return { s with
        presentRows := s.presentRows + 1
        presentBytes := s.presentBytes + row.size
        scanSha256 := scan
        cursor := s.cursor + 1 }
  | none => do
    let scan ← fold nc s.scanSha256 s.cursor row.cid row.size (js "missing") (List.replicate 32 0)
    return { s with
      missingRows := s.missingRows + 1
      missingBytes := s.missingBytes + row.size
      scanSha256 := scan
      cursor := s.cursor + 1 }

variable (reader : Reader) (inventory : Inventory) (stopAtMissing : Bool)

/-- The loop of `advance`, and whether it waits. -/
def pyLoop (maxBytes : Nat) : List Row → Nat → State → Except String (State × Bool)
  | [], _, current => .ok (current, false)
  | row :: rows, added, current => do
    if added ≠ 0 ∧ maxBytes < added + row.size then return (current, false)
    require (row.size ≤ maxBytes) "single inventory block exceeds batch byte limit"
    let data ← reader row.cid row.size
    if data = none ∧ stopAtMissing = true then return (current, true)
    let current ← current.addRow nc .python row data
    pyLoop maxBytes rows (added + row.size) current

/-- `advance` of `verify_lake_leaves.py`. -/
def pyAdvance (s : State) (maxRows maxBytes : Nat) : Except String (State × Status) := do
  if s.cursor = inventory.entries.length then return (s, if s.missingRows = 0 then .complete else .partly)
  let (rows, _) ← inventory.rows s.cursor maxRows
  let (current, waiting) ← pyLoop nc reader stopAtMissing maxBytes rows 0 s
  return (current, if waiting then .waiting else current.status inventory)

/-- The steps of the Kotoba `advance`. -/
def kotobaStep (maxBytes : Nat) : List Row → State → Nat → Except String (State × Status)
  | [], current, _ => .ok (current, current.status inventory)
  | row :: rows, current, added =>
    if 0 < added ∧ maxBytes < added + row.size then .ok (current, .partly)
    else if maxBytes < row.size then .error "single inventory block exceeds batch byte limit"
    else do
      let data ← reader row.cid row.size
      if data = none ∧ stopAtMissing = true then return (current, .waiting)
      let current ← current.addRow nc .kotoba row data
      kotobaStep maxBytes rows current (added + row.size)

/-- `advance` of `verify_lake_leaves.cljk`. -/
def kotobaAdvance (s : State) (maxRows maxBytes : Nat) : Except String (State × Status) := do
  if s.cursor = inventory.entries.length then return (s, if s.missingRows = 0 then .complete else .partly)
  let (rows, _) ← inventory.rows s.cursor maxRows
  kotobaStep nc reader inventory stopAtMissing maxBytes rows s 0

/-- A round: which tool runs it, with which limits. -/
structure Round where
  impl : Impl
  maxRows : Nat
  maxBytes : Nat

/-- A round of either tool. -/
def Round.advance (r : Round) (s : State) : Except String (State × Status) :=
  match r.impl with
  | .python => pyAdvance nc reader inventory stopAtMissing s r.maxRows r.maxBytes
  | .kotoba => kotobaAdvance nc reader inventory stopAtMissing s r.maxRows r.maxBytes

end Rounds

end Readback
