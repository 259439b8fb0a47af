import Yataverse.EventLoop.Answered
import Yataverse.GraphHead.Python
import Yataverse.Lake.Cid
import Yataverse.Lake.Inventory
import Mathlib.Algebra.BigOperators.Group.List.Basic

/-!
# Importing a CAR

`import_batch` of `import_lake_car.py`. It checks the CAR against the inventory, has Kubo take it
in and pin its CIDs below one root, and writes a receipt of that through a temporary file, which
it opens exclusively under a fixed name. Nothing in it catches an exception, so
a call that is killed leaves what one leaves that raises there.

- `Host`: what a call finds, with what Kubo answers.
- `checked`: everything before the receipt.
- `importBatch`: the call.
-/

namespace ImportCar

open Js GraphHead Lake EventLoop Fallible

/-! ## What a call finds -/

/-- The options. -/
structure Args where
  sha256 : JsString
  count : Int
  startRow : Int
  maxBlocks : Int
  carSha256 : JsString
  minFreeBytes : Int
  receipt : Bool

/-- The commands of Kubo. -/
inductive Kubo where
  | id
  | dagImport (car : Bytes)
  | dagPut (data : Json)
  | pinLs (root : JsString)
  | dagGet (root : JsString)

/-- What `import_batch` returns. -/
structure Result where
  inventorySha256 : JsString
  startRow : Int
  endRow : Int
  blocks : Nat
  bytes : Nat
  carSha256 : JsString
  root : JsString
  repository : JsString
deriving DecidableEq

/-- What a call finds. `config` and `api` are the files of the repository, and `kubo` what
the commands print; `none` is a file that cannot be read, or a command that fails. -/
structure Host where
  binary : Bool
  repository : Option JsString
  car : Option Bytes
  inventory : Option Snapshot
  free : Nat
  config : Option JsString
  api : Option JsString
  kubo : Kubo → Option JsString

inductive Error where
  | refused (message : String)
  | inventory (message : String)
  | os
deriving DecidableEq

/-! ## The checks -/

/-- White space, as `str.strip` has it. -/
def isSpace (u : UInt16) : Bool := isWhite u && u != 0xfeff || 0x1c ≤ u && u ≤ 0x1f || u == 0x85

/-- `strip`. -/
def strip (s : JsString) : JsString := ((s.dropWhile isSpace).reverse.dropWhile isSpace).reverse

/-- `kubo`. -/
def Host.run (host : Host) (command : Kubo) : Except Error JsString :=
  match host.kubo command with
  | some out => .ok out
  | none => .error (.refused "Kubo refused")

/-- `verify_repo`: the daemon runs on the repository. -/
def verifyRepo (host : Host) : Except Error Unit :=
  match host.config.bind Json.parse, host.api with
  | some config, some api =>
    match (config.get (js "Identity")).get (js "PeerID") with
    | .str expected => do
      require (expected ≠ [] ∧ strip api ≠ []) (.refused "Kubo repository identity is invalid")
      let actual ← host.run .id
      require (strip actual = expected) (.refused "Kubo daemon uses a different repository")
    | _ => .error (.refused "Kubo repository identity is unavailable")
  | _, _ => .error (.refused "Kubo repository identity is unavailable")

/-- The link to a block. -/
def linkOf (row : Row) : Json := .obj [(js "/", .str row.cid)]

/-- `root_record`. -/
def rootRecord (args : Args) (rows : List Row) : Json := .obj [
  (js "end-row", .num (.ofInt (args.startRow + rows.length))),
  (js "inventory-sha256", .str args.sha256),
  (js "links", .arr (rows.map linkOf)),
  (js "schema", .num (.int 1)),
  (js "start-row", .num (.ofInt args.startRow))]

/-- `verified_root`. -/
def verifiedRoot (out : JsString) (expected : Json) : Except Error Unit :=
  match Json.parse out with
  | some actual => require (actual = expected) (.refused "Kubo batch root differs from inventory links")
  | none => .error (.refused "Kubo returned invalid batch root JSON")

/-- A path has something. -/
def present {α : Type} (x : Option α) : Except Error α :=
  match x with
  | some a => .ok a
  | none => .error (.refused "Kubo binary, repository, or CAR is absent")

/-- What the inventory reader says. -/
def read {α : Type} (x : Except String α) : Except Error α :=
  match x with
  | .ok a => .ok a
  | .error e => .error (.inventory e)

/-- Kubo imports the CAR, and pins the rows of the inventory below one root. -/
def pinned (host : Host) (args : Args) (car : Bytes) (rows : List Row) : Except Error JsString := do
  let _ ← host.run (.dagImport car)
  let out ← host.run (.dagPut (rootRecord args rows))
  let root := strip out
  require (cidRe root = true) (.refused "Kubo returned an invalid batch root")
  let pins ← host.run (.pinLs root)
  require (strip pins = root ++ js " recursive") (.refused "batch root is not recursively pinned")
  let got ← host.run (.dagGet root)
  verifiedRoot got (rootRecord args rows)
  return root

/-- `result`. -/
def resultOf (args : Args) (rows : List Row) (root repository : JsString) : Result where
  inventorySha256 := args.sha256
  startRow := args.startRow
  endRow := args.startRow + rows.length
  blocks := rows.length
  bytes := (rows.map Row.size).sum
  carSha256 := args.carSha256
  root := root
  repository := repository

/-- `import_batch`, up to the receipt. -/
def checked (sha256 : Bytes → Bytes) (host : Host) (args : Args) : Except Error Result := do
  require (sha256Re args.sha256 = true ∧ sha256Re args.carSha256 = true) (.refused "invalid SHA-256 argument")
  require (1 ≤ args.maxBlocks ∧ args.maxBlocks ≤ 1000 ∧ 0 ≤ args.startRow ∧ 1 ≤ args.count ∧
    0 ≤ args.minFreeBytes) (.refused "invalid inventory range")
  require (host.binary = true) (.refused "Kubo binary, repository, or CAR is absent")
  let repository ← present host.repository
  let car ← present host.car
  match host.inventory with
  | none => .error .os
  | some snapshot => do
    let inventory ← read (Inventory.ofSnapshot snapshot args.sha256 args.count.toNat)
    let (rows, _) ← read (inventory.rows args.startRow.toNat args.maxBlocks.toNat)
    require (rows ≠ [] ∧ ∀ row ∈ rows, cidRe row.cid = true) (.refused "invalid selected CID")
    require (1 ≤ car.length ∧ hexdigest (sha256 car) = args.carSha256)
      (.refused "CAR SHA-256 differs from export receipt")
    require (args.minFreeBytes ≤ (host.free : Int) - 2 * car.length)
      (.refused "physical disk reserve would be crossed")
    verifyRepo host
    let root ← pinned host args car rows
    return resultOf args rows root repository

/-! ## The receipt -/

/-- A member of an object, as `json.dump` writes it. -/
def member (name : String) (value : JsString) : JsString := pyStr (js name) ++ js ": " ++ value

/-- The text of a receipt: `json.dump(result, destination, sort_keys=True)` and a line end. -/
def dumps (result : Result) : JsString :=
  js "\x7b" ++ (js ", ").intercalate [
    member "blocks" (natStr result.blocks),
    member "bytes" (natStr result.bytes),
    member "car_sha256" (pyStr result.carSha256),
    member "end_row" (intStr result.endRow),
    member "inventory_sha256" (pyStr result.inventorySha256),
    member "repository" (pyStr result.repository),
    member "root" (pyStr result.root),
    member "start_row" (intStr result.startRow),
    member "status" (pyStr (js "complete"))] ++ js "\x7d\n"

/-- The receipt's path, and the one with `.partial` behind it. -/
structure Files where
  receipt : Option JsString
  temp : Option JsString
deriving DecidableEq

/-- The operations on them. -/
inductive Op where
  | mkdir
  | openTemp
  | write
  | fsync
  | replace
deriving DecidableEq

/-- What becomes of the operations of a call: `ok` says which of them are made, and `part` how
much of the text gets into the file where the writing is cut off. -/
structure Fate where
  ok : Op → Bool
  part : Nat

/-- Nothing fails. -/
def Fate.fine : Fate := ⟨fun _ => true, 0⟩

abbrev Call := Task Files Op (fun _ => Bool) Error

def perform (op : Op) : Call Unit := Task.attempt (fun _ => .os) op

/-- `temp.open("x")`: the file is made, if there is none. -/
def openTemp : Call Unit := do
  perform .openTemp
  let s ← Task.reads id
  if s.temp = none then Task.modify fun s => { s with temp := some [] }
  else throw .os

/-- The text is written, or a part of it. -/
def write (text : JsString) (part : Nat) : Call Unit :=
  .await .write fun ok =>
    if ok then .upd (fun s => { s with temp := some text }) (.ret ())
    else .upd (fun s => { s with temp := some (text.take part) }) (.throw .os)

/-- `temp.replace(args.receipt)`. -/
def replace : Call Unit := do
  perform .replace
  Task.modify fun s => ⟨s.temp, none⟩

/-- The receipt is written. -/
def writeReceipt (text : JsString) (part : Nat) : Call Unit := do
  perform .mkdir
  openTemp
  write text part
  perform .fsync
  replace

section ImportBatch

variable (sha256 : Bytes → Bytes)

/-- `import_batch`. -/
def importBatch (host : Host) (args : Args) (part : Nat) : Call Result :=
  match checked sha256 host args with
  | .error e => .throw e
  | .ok result => do
    if args.receipt then writeReceipt (dumps result) part
    return result

/-- A call: the files it leaves, and how it ends. -/
def run (host : Host) (args : Args) (fate : Fate) (s : Files) : Files × Except Error Result :=
  (importBatch sha256 host args fate.part).eval fate.ok s

end ImportBatch

end ImportCar
