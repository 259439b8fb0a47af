import Yataverse.Cover.Ranges
import Yataverse.Js.Json
import Yataverse.Lake.Cid
import Yataverse.Lake.Inventory
import Mathlib.Data.List.ReduceOption
import Mathlib.Data.List.Sort

/-!
# Which rows receipts cover

The lake reader serves a block without asking Kubo for its pins when a receipt covers its row. The ranges of the
receipts are read when a directory has changed, sorted and merged; the Python reader finds a row in them by
binary search, and the Kotoba one goes through all of them.

- `Directories`: the receipt files.
- `nativeRange`, `carRange`: what is checked of a receipt.
- `refresh`, `covers`: `CarReceipts` of `serve_lake.py`.
- `receiptRanges`, `kotobaCovers`: the same in `serve_lake.cljk`.
-/

namespace Serve

open Js Lake Fallible Cover Sorting

/-! ## Receipt files -/

/-- The name of a file, as far as the readers tell names apart: a range of rows with its last row, a name
that only looks like one, `row-import.json`, or another name. -/
inductive Name where
  | native (start last : Nat)
  | invalidNative
  | car (start last : Nat)
  | invalidCar
  | rowImport
  | other
deriving DecidableEq

/-- A file; its record is `none` where it is no JSON. -/
structure File where
  name : Name
  record : Option Json

/-- A directory. -/
structure Directory where
  mtimeNs : Nat
  files : List File

/-- The directories that a reader is given; `none` is one that is absent. -/
structure Directories where
  car : Option (Option Directory)
  natives : List (Option Directory)

/-- All of them, the CAR directory first. -/
def Directories.all (d : Directories) : List (Option Directory) := d.car.toList ++ d.natives

/-- The files of a directory. -/
def filesOf : Option Directory → List File
  | some directory => directory.files
  | none => []

/-- `st_mtime_ns` of the directories. -/
def Directories.mtimes (d : Directories) : Except String (List Nat) :=
  d.all.mapM fun
    | some directory => .ok directory.mtimeNs
    | none => .error "receipt directory is absent"

/-! ## Receipts -/

variable (inventory : Inventory) (repository : JsString)

/-- `CID`: `[a-zA-Z0-9]{46,100}`. -/
def cidRe (s : JsString) : Bool :=
  decide (46 ≤ s.length ∧ s.length ≤ 100) &&
    s.all fun u => inRange 'a' 'z' u || inRange 'A' 'Z' u || inRange '0' '9' u

/-- A whole number. -/
def num (n : Nat) : Json := .num (.int n)

/-- There is a CID under the key. -/
def isCid (v : Json) : Bool :=
  match v with
  | .str s => cidRe s
  | _ => false

/-- A text that is not empty. -/
def isText (v : Json) : Bool :=
  match v with
  | .str s => s ≠ []
  | _ => false

/-- A SHA-256 in hexadecimal. -/
def isDigest (v : Json) : Bool :=
  match v with
  | .str s => sha256Re s
  | _ => false

/-- The record of a receipt. -/
def readRecord (record : Option Json) (unreadable noObject : String) : Except String Json :=
  match record with
  | none => .error unreadable
  | some v => if v.isObj then .ok v else .error noObject

/-- `_native_range`. -/
def nativeRange (start last : Nat) (record : Option Json) : Except String (Nat × Nat) := do
  let record ← readRecord record "native receipt unreadable" "native receipt must be an object"
  let stop := last + 1
  require (start < stop ∧ stop ≤ inventory.entries.length ∧ stop - start ≤ 1000) "native receipt range is invalid"
  let (rows, actual) ← inventory.rows start (stop - start)
  require (actual = stop ∧ record.get (js "status") = .str (js "complete") ∧
    record.get (js "inventory_sha256") = .str inventory.sha256 ∧ record.get (js "start_row") = num start ∧
    record.get (js "end_row") = num stop ∧ record.get (js "blocks") = num rows.length ∧
    record.get (js "bytes") = num (rows.map Row.size).sum ∧ record.get (js "repository") = .str repository ∧
    isCid (record.get (js "root")) = true ∧ isText (record.get (js "source_peer")) = true)
    "native receipt differs from inventory or repository"
  return (start, stop)

/-- The checks of a CAR receipt. -/
def carRange (start last : Nat) (record : Option Json) : Except String (Nat × Nat) := do
  let record ← readRecord record "CAR receipt unreadable" "CAR receipt must be an object"
  let stop := last + 1
  require (record.get (js "status") = .str (js "complete") ∧
    record.get (js "inventory_sha256") = .str inventory.sha256 ∧ record.get (js "start_row") = num start ∧
    record.get (js "end_row") = num stop ∧ start < stop ∧ stop ≤ inventory.entries.length ∧
    record.get (js "blocks") = num (stop - start) ∧ isCid (record.get (js "root")) = true ∧
    isDigest (record.get (js "car_sha256")) = true ∧ record.get (js "repository") = .str repository)
    "CAR receipt differs from inventory or repository"
  return (start, stop)

/-- A file of a native directory. Kotoba passes over a name that only looks like one of a receipt. -/
def nativeFile (strict : Bool) (f : File) : Except String (Option (Nat × Nat)) :=
  match f.name with
  | .native start last => some <$> nativeRange inventory repository start last f.record
  | .invalidNative => if strict then .error "invalid native receipt name" else .ok none
  | _ => .ok none

/-- A file of the CAR directory. In `row-import.json`, Kotoba sees the beginning and the end of a name of a
receipt, which overlap there. -/
def carFile (strict : Bool) (f : File) : Except String (Option (Nat × Nat)) :=
  match f.name with
  | .car start last => some <$> carRange inventory repository start last f.record
  | .invalidCar => .error "invalid CAR receipt name"
  | .rowImport => if strict then .ok none else .error "invalid CAR receipt name"
  | _ => .ok none

/-- The ranges of all receipts, native ones first. -/
def rangesOf (strict : Bool) (d : Directories) : Except String (List (Nat × Nat)) := do
  let native ← (d.natives.flatMap filesOf).mapM (nativeFile inventory repository strict)
  let car ← (filesOf (d.car.getD none)).mapM (carFile inventory repository strict)
  return (native ++ car).reduceOption

/-- The order of ranges: by their start, and then by their end. -/
def before (a b : Nat × Nat) : Prop := a.1 < b.1 ∨ a.1 = b.1 ∧ a.2 ≤ b.2

instance : DecidableRel before := fun a b => by
  unfold before
  infer_instance

/-- `ranges.sort()`, and the merging behind it. -/
def merged (ranges : List (Nat × Nat)) : List (Nat × Nat) := mergeRanges (ranges.insertionSort before)

/-! ## The readers -/

/-- `inventory.positions`. -/
def positionOf (cid : JsString) : Option Nat := (inventory.entries.map Row.cid).idxOf? cid

/-- `CarReceipts`. -/
structure CarReceipts where
  mtimeNs : Option (List Nat)
  starts : List Nat
  ranges : List (Nat × Nat)
deriving DecidableEq

/-- `refresh`. -/
def refresh (d : Directories) (r : CarReceipts) : Except String CarReceipts := do
  let mtime ← d.mtimes
  if r.mtimeNs = some mtime then return r
  let ranges ← rangesOf inventory repository true d
  return ⟨some mtime, (merged ranges).map Prod.fst, merged ranges⟩

/-- `covers`. -/
def covers (d : Directories) (r : CarReceipts) (cid : JsString) : Except String (CarReceipts × Bool) := do
  let r ← refresh inventory repository d r
  match positionOf inventory cid with
  | none => .error "KeyError"
  | some row =>
    let index := bisectRight r.starts row
    return (r, decide (0 < index) && ((r.ranges[index - 1]?).map fun range => decide (row < range.2)).getD false)

/-- `receipt-ranges`. -/
def receiptRanges (d : Directories) : Except String (List (Nat × Nat)) := do
  let ranges ← rangesOf inventory repository false d
  return merged ranges

/-- The cache of `make-receipts`. -/
structure Cache where
  mtimes : Option (List Nat)
  ranges : List (Nat × Nat)
deriving DecidableEq

/-- The cache, read again where a directory has changed. -/
def Cache.reload (d : Directories) (mtimes : List Nat) (cache : Cache) : Except String Cache := do
  if cache.mtimes = some mtimes then return cache
  let ranges ← receiptRanges inventory repository d
  return ⟨some mtimes, ranges⟩

/-- `covers?`. No row is in a range where the CID has none. -/
def kotobaCovers (d : Directories) (cache : Cache) (cid : JsString) : Except String (Cache × Bool) := do
  let mtimes ← d.mtimes
  let cache ← cache.reload inventory repository d mtimes
  match positionOf inventory cid with
  | none => return (cache, false)
  | some row => return (cache, cache.ranges.any fun range => decide (Contains range row))

end Serve
