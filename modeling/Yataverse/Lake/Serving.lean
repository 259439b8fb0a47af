import Yataverse.Js.Map
import Yataverse.Lake.Lines
import Yataverse.Paging.Walk
import Yataverse.Sorting.Bisect

/-!
# The lake as its readers serve it

`serve_lake.py` and `serve_lake.cljk` with `lake_inventory.cljk`: an inventory is indexed once, and its rows are read
from the file again for each page.

- `openIndex`: `Inventory(...)`, `open-inventory`.
- `Index.rows`: `rows`.
- `openComposite`: `EpochInventory(...)`, `epoch-inventory`.
- `Composite.rows`: `EpochInventory.rows`, `composite-rows`.
- `Source.page`: `page`; `follow`: what a client does with the cursors.
- `openSource`: what a reader is started with.
-/

namespace Lake

open Js Json GraphHead Fallible Sorting

/-- The language of a reader. -/
inductive Language
  | python
  | kotoba
deriving DecidableEq

/-- A file, with what `stat` tells about it. -/
structure File where
  ino : Nat
  mtimeNs : Nat
  content : Bytes

/-- Inode, size and modification time. -/
def File.identity (file : File) : Nat × Nat × Nat := (file.ino, file.content.length, file.mtimeNs)

/-- What is at a path. -/
abbrev Disk := JsString → File

/-! ## One inventory -/

/-- An opened inventory: where its rows start, and how large the blocks are. -/
structure Index where
  path : JsString
  sha256 : JsString
  offsets : List Nat
  sizes : JsMap JsString Nat
  identity : Nat × Nat × Nat

def invalidRow (offset : Nat) : JsString := js "invalid inventory row at offset " ++ natStr offset

def invalidSize (offset : Nat) : JsString := js "invalid CID or size at offset " ++ natStr offset

/-- A line as `Inventory` takes it. -/
def pyEntry (offset : Nat) (line : Bytes) : Except JsString Row :=
  match (jsonText line).bind loads with
  | none => .error (invalidRow offset)
  | some v =>
    -- `row["cid"]` of anything else is a `KeyError` or a `TypeError`
    if v.contains (js "cid") && v.contains (js "bytes") then
      match rowIn v with
      | some row => .ok row
      | none => .error (invalidSize offset)
    else .error (invalidRow offset)

/-- A line as `open-inventory` takes it. -/
def kotobaEntry (offset : Nat) (line : Bytes) : Except JsString Row :=
  match parse (ofUtf8 line) with
  | none => .error (invalidRow offset)
  -- `.-cid` is outside of the `try`
  | some .null => .error (js "Cannot read properties of null (reading 'cid')")
  | some v =>
    match rowIn v with
    | some row => .ok row
    | none => .error (invalidSize offset)

def entry : Language → Nat → Bytes → Except JsString Row
  | .python => pyEntry
  | .kotoba => kotobaEntry

/-- The loop of the constructor: the lines from `offset` on, and what was gathered. -/
def indexLines (entry : Nat → Bytes → Except JsString Row) : Nat → List Bytes → List Nat → JsMap JsString Nat →
    Except JsString (List Nat × JsMap JsString Nat)
  | _, [], offsets, sizes => .ok (offsets, sizes)
  | offset, line :: lines, offsets, sizes => do
    let row ← entry offset line
    if sizes.has row.cid then .error (js "duplicate CID in inventory: " ++ row.cid)
    else indexLines entry (offset + line.length) lines (offsets ++ [offset]) (sizes.set row.cid row.size)

section

variable (nc : NodeCrypto) (language : Language) (disk : Disk)

/-- `Inventory(path, expected_sha256, expected_count)`, `open-inventory` -/
def openIndex (path expectedSha256 : JsString) (expectedCount : Nat) : Except JsString Index := do
  let (offsets, sizes) ← indexLines (entry language) 0 (fileLines (disk path).content) [] .empty
  require (hexdigest (nc.sha256 (disk path).content) = expectedSha256 ∧ offsets.length = expectedCount)
    (js "inventory digest or row count differs from declared snapshot")
  return ⟨path, expectedSha256, offsets, sizes, (disk path).identity⟩

end

/-- A row of a page: what its line holds. -/
structure Block where
  cid : Json
  size : Json
deriving DecidableEq

/-- `json.loads(source.readline())`, so often. -/
def pyBlocks : Nat → Bytes → Except JsString (List Block)
  | 0, _ => .ok []
  | n + 1, source =>
    match (jsonText (readline source).1).bind loads with
    | none => .error (js "JSONDecodeError")
    | some row =>
      if row.contains (js "cid") && row.contains (js "bytes") then
        (⟨row.get (js "cid"), row.get (js "bytes")⟩ :: ·) <$> pyBlocks n (readline source).2
      else .error (js "KeyError")

/-- One line of a slice. -/
def kotobaBlock (line : JsString) : Except JsString Block :=
  match parse line with
  | none => .error (js "SyntaxError")
  | some .null => .error (js "Cannot read properties of null (reading 'cid')")
  | some row => .ok ⟨row.get (js "cid"), row.get (js "bytes")⟩

namespace Index

variable (disk : Disk) (index : Index)

/-- `len(self.offsets)`, `row-count` -/
def count : Nat := index.offsets.length

/-- The checks of `rows`. -/
def checkRows (offset limit : Nat) : Except JsString Unit := do
  require ((disk index.path).identity = index.identity) (js "inventory file changed since startup")
  require (offset < index.count) (js "cursor outside inventory")
  require (1 ≤ limit ∧ limit ≤ 1000) (js "inventory row limit must be within 1..1000")

/-- `Inventory.rows` -/
def pyRows (offset limit : Nat) : Except JsString (List Block × Nat) := do
  index.checkRows disk offset limit
  let last := min (offset + limit) index.count
  let rows ← pyBlocks (last - offset) ((disk index.path).content.drop (index.offsets.getD offset 0))
  return (rows, last)

/-- `rows` of `lake_inventory.cljk` -/
def kotobaRows (offset limit : Nat) : Except JsString (List Block × Nat) := do
  index.checkRows disk offset limit
  let last := min (offset + limit) index.count
  let content := (disk index.path).content
  let start := index.offsets.getD offset 0
  let stop := if last < index.count then index.offsets.getD last 0 else content.length
  let rows ← (inkedLines (ofUtf8 ((content.drop start).take (stop - start)))).mapM kotobaBlock
  return (rows, last)

def rows : Language → Nat → Nat → Except JsString (List Block × Nat)
  | .python => index.pyRows disk
  | .kotoba => index.kotobaRows disk

end Index

/-! ## The inventories of all epochs -/

/-- `EpochInventory`. -/
structure Composite where
  parts : List Index
  starts : List Nat
  sha256 : JsString
  total : Nat
  sizes : JsMap JsString Nat
  owner : JsMap JsString Nat

/-- The rows of one part. -/
def addPart (index : Nat) : List (JsString × Nat) → JsMap JsString Nat × JsMap JsString Nat →
    Except JsString (JsMap JsString Nat × JsMap JsString Nat)
  | [], acc => .ok acc
  | (cid, size) :: rest, (sizes, owner) =>
    if sizes.has cid then .error (js "CID appears in two epochs: " ++ cid)
    else addPart index rest (sizes.set cid size, owner.set cid index)

/-- The rows of the parts, from the number of the first one on. -/
def addParts : Nat → List Index → JsMap JsString Nat × JsMap JsString Nat →
    Except JsString (JsMap JsString Nat × JsMap JsString Nat)
  | _, [], acc => .ok acc
  | index, part :: parts, acc => do
    let acc ← addPart index part.sizes.entries acc
    addParts (index + 1) parts acc

/-- The loop of `EpochInventory` over the starts. -/
def pyStarts : Nat → List Index → List Nat
  | _, [] => []
  | start, part :: parts => start :: pyStarts (start + part.count) parts

/-- `(reductions + start counts)` -/
def reductions : Nat → List Nat → List Nat
  | start, [] => [start]
  | start, count :: counts => start :: reductions (start + count) counts

/-- `(reductions + 0 (map li/row-count (butlast parts)))` -/
def kotobaStarts (parts : List Index) : List Nat := reductions 0 (parts.dropLast.map Index.count)

def startsOf : Language → List Index → List Nat
  | .python, parts => pyStarts 0 parts
  | .kotoba, parts => kotobaStarts parts

/-- `EpochInventory(parts, expected_sha256, expected_count)`, `epoch-inventory` -/
def openComposite (nc : NodeCrypto) (language : Language) (disk : Disk) (parts : List Index) (expectedSha256 : JsString)
    (expectedCount : Nat) : Except JsString Composite := do
  require (parts ≠ []) (js "an epoch list needs at least one inventory")
  let content := parts.flatMap fun part => (disk part.path).content
  let total := (parts.map Index.count).sum
  require (hexdigest (nc.sha256 content) = expectedSha256 ∧ total = expectedCount)
    (js "epoch inventories differ from the declared lake log")
  let (sizes, owner) ← addParts 0 parts (.empty, .empty)
  return ⟨parts, startsOf language parts, expectedSha256, total, sizes, owner⟩

namespace Composite

variable (language : Language) (disk : Disk) (lake : Composite)

/-- The last part that does not start behind the offset. -/
def place (offset : Nat) : Nat :=
  match language with
  | .python => bisectRight lake.starts offset - 1
  | .kotoba => (lake.starts.takeWhile (· ≤ offset)).length - 1

/-- `EpochInventory.rows`, `composite-rows` -/
def rows (offset limit : Nat) : Except JsString (List Block × Nat) := do
  require (offset < lake.total) (js "cursor outside inventory")
  require (1 ≤ limit ∧ limit ≤ 1000) (js "inventory row limit must be within 1..1000")
  let index := lake.place language offset
  let start := lake.starts.getD index 0
  match lake.parts[index]? with
  | none => .error (js "IndexError")
  | some part =>
    let (rows, last) ← part.rows disk language (offset - start) limit
    return (rows, start + last)

end Composite

/-! ## Pages -/

/-- What a reader serves: one inventory, or those of all epochs. -/
inductive Source
  | single (index : Index)
  | epochs (lake : Composite)

/-- A page of the listing, with the rows as they are in the file. -/
structure Listing where
  sha256 : JsString
  blocks : List Block
  cursor : Option JsString
  truncated : Bool
deriving DecidableEq

namespace Source

def total : Source → Nat
  | single index => index.count
  | epochs lake => lake.total

def sha256 : Source → JsString
  | single index => index.sha256
  | epochs lake => lake.sha256

variable (language : Language) (disk : Disk)

def rows (offset limit : Nat) : Source → Except JsString (List Block × Nat)
  | single index => index.rows disk language offset limit
  | epochs lake => lake.rows language disk offset limit

/-- `page` -/
def page (source : Source) (offset : Nat) : Except JsString Listing := do
  let (rows, last) ← source.rows language disk offset pageSize
  return {
    sha256 := source.sha256
    blocks := rows
    cursor := if last < source.total then some (natStr last) else none
    truncated := decide (last < source.total)
  }

/-- The page for a cursor. -/
def served (source : Source) (cursor : JsString) : Except JsString Listing :=
  match offset? cursor with
  | some offset => source.page language disk offset
  | none => .error (js "invalid cursor")

end Source

/-- Where a client goes on: at the cursor, while the listing is truncated. -/
def follow (listing : Listing) : Option JsString := if listing.truncated then listing.cursor else none

/-! ## Starting a reader -/

/-- An inventory, with its digest and its number of rows. -/
structure Spec where
  path : JsString
  sha256 : JsString
  count : Nat

def Spec.openIndex (nc : NodeCrypto) (language : Language) (disk : Disk) (spec : Spec) : Except JsString Index :=
  Lake.openIndex nc language disk spec.path spec.sha256 spec.count

/-- `--inventory`, or `--epoch` so often with the digest and the number of all. -/
inductive Config
  | inventory (spec : Spec)
  | epochs (specs : List Spec) (sha256 : JsString) (count : Nat)

namespace Config

def paths : Config → List JsString
  | .inventory spec => [spec.path]
  | .epochs specs _ _ => specs.map Spec.path

def sha256 : Config → JsString
  | .inventory spec => spec.sha256
  | .epochs _ sha256 _ => sha256

end Config

/-- What `main` serves. -/
def openSource (nc : NodeCrypto) (language : Language) (disk : Disk) : Config → Except JsString Source
  | .inventory spec => do return .single (← spec.openIndex nc language disk)
  | .epochs specs sha256 count => do
    let parts ← specs.mapM (Spec.openIndex nc language disk)
    return .epochs (← openComposite nc language disk parts sha256 count)

end Lake
