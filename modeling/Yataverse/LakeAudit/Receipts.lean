import Yataverse.Lake.Inventory
import Yataverse.RawBlockStore.Store

/-!
# The receipt audit

`audit_receipts` of `audit_lake` counts the rows of a pinned inventory that something durable holds: the
roots that receipts name, pins, and the raw block store. There are a Python and a Kotoba tool, with one
report.

- `Evidence`: what an audit looks at.
- `bound`, `largeReceipt`, `pinnedRow`, `rawRow`: the loops, each with what it marks.
- `auditReceipts`: the audit, and its `Report`.

Pin listings and the contents of roots are what Kubo has answered.
-/

namespace LakeAudit

open Js GraphHead Lake Fallible
open RawBlockStore (Impl Store digestOf)

/-- A receipt file: the rows that its name has, if it is a name of this kind, and its JSON, if it is one. -/
structure Receipt where
  name : Option (Nat × Nat)
  record : Option Json

/-- A receipt of a large block: its name has one row. -/
structure LargeReceipt where
  row : Option Nat
  record : Option Json

/-- What an audit looks at. -/
structure Evidence where
  inventory : Inventory
  repository : JsString
  recursive : List JsString
  direct : List JsString
  cars : List Receipt
  /-- The receipts of every native directory. -/
  natives : List (List Receipt)
  larges : List LargeReceipt
  raw : Option Store
  /-- `ipfs dag get`. -/
  rootReader : JsString → Except String Json

/-- The counters of an audit. -/
structure Tally where
  car : Nat
  native : Nat
  large : Nat
  direct : Nat
  raw : Nat
  unpinnedCar : Nat
  unpinnedNative : Nat
  unpinnedLarge : Nat
deriving DecidableEq

/-- `covered` and the counters. -/
structure Audit where
  covered : List Bool
  tally : Tally

/-- `covered[row] = 1`. -/
def Audit.mark (a : Audit) (row : Nat) : Audit := { a with covered := a.covered.set row true }

/-- `for row in range(start, end): covered[row] = 1`. -/
def Audit.markRange (a : Audit) (start stop : Nat) : Audit := (List.range' start (stop - start)).foldl Audit.mark a

/-! ## Receipts of ranges -/

/-- A whole number. -/
def num (n : Nat) : Json := .num (.int n)

/-- `expected`, `expected-root`: what the root of a range is to hold. -/
def expectedRoot (sha256 : JsString) (start stop : Nat) (rows : List Row) : Json :=
  .obj [(js "end-row", num stop), (js "inventory-sha256", .str sha256),
    (js "links", .arr (rows.map fun row => .obj [(js "/", .str row.cid)])), (js "schema", num 1),
    (js "start-row", num start)]

/-- What the receipts of one kind have of their own. -/
structure Kind where
  invalidName : String
  invalidRange : String
  differs : String
  rootDiffers : String
  extra : Json → Bool
  unpinned : Tally → Tally
  add : Nat → Tally → Tally

/-- `car_sha256` is a digest. -/
def carSha256 (record : Json) : Bool :=
  match record.get (js "car_sha256") with
  | .str s => sha256Re s
  | _ => false

/-- `source_peer` is there. -/
def sourcePeer (record : Json) : Bool :=
  match record.get (js "source_peer") with
  | .str s => s ≠ []
  | _ => false

def addCar (n : Nat) (t : Tally) : Tally := { t with car := t.car + n }

def addNative (n : Nat) (t : Tally) : Tally := { t with native := t.native + n }

def unpinnedCar (t : Tally) : Tally := { t with unpinnedCar := t.unpinnedCar + 1 }

def unpinnedNative (t : Tally) : Tally := { t with unpinnedNative := t.unpinnedNative + 1 }

/-- The CAR receipts of a tool. In Kotoba only files with such a name are listed. -/
def car : Impl → Kind
  | .python => ⟨"invalid CAR receipt name", "CAR receipt range is invalid", "CAR receipt differs from inventory",
      "pinned CAR root differs from inventory", carSha256, unpinnedCar, addCar⟩
  | .kotoba => ⟨"car receipt range is invalid", "car receipt range is invalid", "car receipt differs from inventory",
      "pinned car root differs from inventory", carSha256, unpinnedCar, addCar⟩

/-- The native receipts of a tool. -/
def native : Impl → Kind
  | .python => ⟨"invalid native receipt name", "native receipt range is invalid", "native receipt differs from inventory",
      "pinned native root differs from inventory", sourcePeer, unpinnedNative, addNative⟩
  | .kotoba => ⟨"native receipt range is invalid", "native receipt range is invalid",
      "native receipt differs from inventory", "pinned native root differs from inventory", sourcePeer, unpinnedNative,
      addNative⟩

variable (e : Evidence)

/-- Does the receipt say what the inventory has in this range? -/
def rangeMatches (kind : Kind) (start stop actual : Nat) (rows : List Row) (record : Json) : Prop :=
  actual = stop ∧ record.get (js "status") = .str (js "complete") ∧
    record.get (js "inventory_sha256") = .str e.inventory.sha256 ∧ record.get (js "start_row") = num start ∧
    record.get (js "end_row") = num stop ∧ record.get (js "blocks") = num rows.length ∧
    record.get (js "bytes") = num (rows.map Row.size).sum ∧ record.get (js "repository") = .str e.repository ∧
    kind.extra record = true

instance (kind : Kind) (start stop actual : Nat) (rows : List Row) (record : Json) :
    Decidable (rangeMatches e kind start stop actual rows record) := by
  unfold rangeMatches
  infer_instance

/-- The CID under a key. -/
def cid? (record : Json) (key : JsString) : Option JsString :=
  match record.get key with
  | .str s => if cidRe s then some s else none
  | _ => none

/-- The loop over the receipts of ranges, and `bound`. -/
def bound (kind : Kind) (a : Audit) (f : Receipt) : Except String Audit := do
  match f.name with
  | none => .error kind.invalidName
  | some (start, last) =>
    let stop := last + 1
    require (start < stop ∧ stop ≤ e.inventory.entries.length ∧ stop - start ≤ 1000) kind.invalidRange
    let (rows, actual) ← e.inventory.rows start (stop - start)
    match f.record with
    | none => .error "invalid JSON"
    | some record =>
      match cid? record (js "root") with
      | none => .error kind.differs
      | some root =>
        require (rangeMatches e kind start stop actual rows record) kind.differs
        if root ∉ e.recursive then return { a with tally := kind.unpinned a.tally }
        let contents ← e.rootReader root
        require (contents = expectedRoot e.inventory.sha256 start stop rows) kind.rootDiffers
        return { a.markRange start stop with tally := kind.add rows.length a.tally }

/-! ## Receipts of large blocks, pins and raw blocks -/

/-- Does the receipt say what the inventory has in this row? Its digest is compared behind this. -/
def largeMatches (row : Nat) (item : Row) (record : Json) : Prop :=
  record.get (js "status") = .str (js "complete") ∧ record.get (js "row") = num row ∧
    record.get (js "inventory_sha256") = .str e.inventory.sha256 ∧ record.get (js "original_cid") = .str item.cid ∧
    record.get (js "original_bytes") = num item.size

instance (row : Nat) (item : Row) (record : Json) : Decidable (largeMatches e row item record) := by
  unfold largeMatches
  infer_instance

/-- The loop over the receipts of large blocks. -/
def largeReceipt (impl : Impl) (a : Audit) (f : LargeReceipt) : Except String Audit := do
  match f.row with
  | none => .error "invalid large recovery receipt name"
  | some row =>
    require (row < e.inventory.entries.length) "large recovery row is invalid"
    match e.inventory.entries[row]?, f.record with
    | some item, some record =>
      require (largeMatches e row item record) "large recovery receipt differs from inventory"
      let digest ← digestOf impl item.cid
      match cid? record (js "recovery_root") with
      | none => .error "large recovery receipt differs from inventory"
      | some root =>
        require (record.get (js "original_sha256") = .str (hexdigest digest) ∧
          record.get (js "repository") = .str e.repository ∧ carSha256 record = true)
          "large recovery receipt differs from inventory"
        if root ∉ e.recursive then
          return { a with tally := { a.tally with unpinnedLarge := a.tally.unpinnedLarge + 1 } }
        if item.cid ∈ e.direct ∨ item.cid ∈ e.recursive then
          return { a.mark row with tally := { a.tally with large := a.tally.large + 1 } }
        return a
    | _, _ => .error "invalid JSON"

/-- `inventory.positions.get(cid)`. -/
def positionOf (cid : JsString) : Option Nat := (e.inventory.entries.map Row.cid).idxOf? cid

/-- The loop over the pins. -/
def pinnedRow (a : Audit) (cid : JsString) : Except String Audit :=
  match positionOf e cid with
  | some row => .ok { a.mark row with tally := { a.tally with direct := a.tally.direct + 1 } }
  | none => .ok a

/-- The loop over the raw block store. -/
def rawRow (nc : NodeCrypto) (impl : Impl) (store : Store) (a : Audit) (cid : JsString) : Except String Audit := do
  match positionOf e cid with
  | some row =>
    match e.inventory.entries[row]? with
    | some item =>
      let body ← RawBlockStore.read nc impl cid item.size store
      require (body.map List.length = some item.size) "raw block differs from inventory"
      return { a.mark row with tally := { a.tally with raw := a.tally.raw + 1 } }
    | none => return a
  | none => return a

/-! ## The report -/

/-- What an audit reports. -/
structure Report where
  complete : Bool
  inventoryRows : Nat
  inventoryBytes : Nat
  coveredRows : Nat
  coveredBytes : Nat
  missingRows : Nat
  missingBytes : Nat
  tally : Tally
  missingSample : List JsString
  inventorySha256 : JsString
deriving DecidableEq

/-- The rows with their marks. -/
def marked (a : Audit) : List (Row × Bool) := e.inventory.entries.zip a.covered

/-- The sizes of some rows. -/
def bytesOf (rows : List (Row × Bool)) : Nat := (rows.map fun entry => entry.1.size).sum

/-- The report. -/
def report (a : Audit) : Report :=
  let covered := (marked e a).filter fun entry => entry.2
  let missing := (marked e a).filter fun entry => !entry.2
  let rows := covered.length
  let bytes := bytesOf covered
  let count := e.inventory.entries.length
  let total := (e.inventory.entries.map Row.size).sum
  { complete := rows = count
    inventoryRows := count
    inventoryBytes := total
    coveredRows := rows
    coveredBytes := bytes
    missingRows := count - rows
    missingBytes := total - bytes
    tally := a.tally
    missingSample := (missing.take 3).map fun entry => entry.1.cid
    inventorySha256 := e.inventory.sha256 }

/-- No row is covered. -/
def Audit.start (count : Nat) : Audit := ⟨List.replicate count false, ⟨0, 0, 0, 0, 0, 0, 0, 0⟩⟩

/-- The loops of `audit_receipts`, one behind the other. -/
def gather (nc : NodeCrypto) (impl : Impl) : Except String Audit := do
  let a ← e.cars.foldlM (bound e (car impl)) (.start e.inventory.entries.length)
  let a ← e.natives.flatten.foldlM (bound e (native impl)) a
  let a ← e.larges.foldlM (largeReceipt e impl) a
  let a ← (e.direct ++ e.recursive).dedup.foldlM (pinnedRow e) a
  match e.raw with
  | none => return a
  | some store => do
    let cids ← RawBlockStore.cids nc impl store
    cids.foldlM (rawRow e nc impl store) a

/-- `audit_receipts`, `audit-receipts`. -/
def auditReceipts (nc : NodeCrypto) (impl : Impl) : Except String Report := report e <$> gather e nc impl

end LakeAudit
