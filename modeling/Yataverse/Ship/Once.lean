import Yataverse.EventLoop.Kill
import Yataverse.Ship.Select

/-!
# Shipping one range

`ship_once` of `ship_lake_car`: the next range of the inventory is exported as a CAR, copied
to the receiving host and imported there, and the checkpoint moves behind it. A row that
cannot ride a CAR is skipped with a record, when the receiving host holds it already. There
are two implementations, over the same files.

- `Durable`: the files of the state directory, and for the record what the receiving host
  has answered.
- `Cmd`: the remote commands, and the tools run beside the shipper.
- `shipOnce`: one call, with its file operations and commands one by one.
- `runs`: calls one after the other, each killed somewhere or not.

A CAR stands for its SHA-256. What the remote hosts do is in their answers.
-/

namespace Ship

open Js EventLoop Fallible Function Lake

/-! ## Receipts -/

/-- The receipt of the CAR exporter. -/
structure Export where
  complete : Bool
  startRow : Option Nat
  endRow : Option Nat
  blocks : Option Nat
  sha256 : Option JsString
deriving DecidableEq

/-- The receipt of the CARv2 packer. -/
structure Pack where
  carv2zstd : Bool
  carv1Sha256 : Option JsString
  carv2Sha256 : JsString
  compressedSha256 : JsString
  blocks : Option Nat
  compressedBytes : Nat
  carv2Bytes : Nat
deriving DecidableEq

/-- The receipt of the unpacker on the receiving host. -/
structure Unpack where
  complete : Bool
  compressedSha256 : JsString
  carv2Sha256 : JsString
  blocks : Option Nat

/-- The receipt of the importer. -/
structure Import where
  complete : Bool
  startRow : Option Nat
  endRow : Option Nat
  blocks : Option Nat
  carSha256 : Option JsString
  root : JsString
deriving DecidableEq

/-- The receipt of a recovery archive on the receiving host, and the size of its CAR there. -/
structure LargeArchive where
  schema : Nat
  row : Nat
  inventorySha256 : JsString
  originalCid : JsString
  originalBytes : Nat
  validation : JsString
  carSha256 : JsString
  carBytes : Nat
  carBytesOnDisk : Nat

/-- The manifest of a compressed archive, in what differs between two of them. -/
structure Manifest where
  startRow : Nat
  endRow : Nat
  pack : Pack
  root : JsString
deriving DecidableEq

/-- `checkpoint.json` -/
structure Checkpoint where
  cursor : Nat
  inventorySha256 : JsString

/-! ## Arguments, files and commands -/

/-- What all calls on one state directory have in common. -/
structure Config where
  inventory : Inventory
  sha256 : JsString
  startRow : Nat

/-- What the calls may differ in. -/
structure Args where
  /-- The raw CIDs; `none` where their manifest is refused. -/
  raw : Option (List JsString)
  stopRow : Option Nat
  maxBlocks : Nat
  maxBytes : Nat
  /-- The CAR comes from a Kubo host over ssh, else from an HTTPS gateway. -/
  source : Bool
  carv2 : Bool
  s3 : Bool
  largeArchive : Bool

/-- A range of rows: the files of a shipment are named after it. -/
abbrev Name := Nat × Nat

/-- The files of the state directory. For the record, what the receiving host's copy has been
verified of, and every receipt of the importer and of the packer. -/
structure Durable where
  checkpoint : Option Checkpoint
  skips : Nat → Option Skipped
  exports : Name → Option Export
  cars : Name → Option JsString
  archives : Name → Option (JsString × Nat)
  manifests : Name → Option Manifest
  verified : List Skipped
  imports : List Import
  packs : List Pack

/-- An empty state directory. -/
def Durable.start : Durable :=
  ⟨none, fun _ => none, fun _ => none, fun _ => none, fun _ => none, fun _ => none, [], [], []⟩

/-- The commands of which only the exit code is looked at. -/
inductive Run where
  | verifyRaw (cid : JsString) (bytes : Nat)
  | classpath
  | copyCar (n : Name)
  | uploadS3 (n : Name)
  | downloadS3 (n : Name)
  | uploadManifest (n : Name)
  | cleanRemote (n : Name)
  | cleanSource (n : Name)

/-- The commands. -/
inductive Cmd where
  | run (r : Run)
  | readLargeArchive (row : Nat)
  | exportCar (n : Name) (maxBytes : Nat)
  | writingCar (n : Name)
  | writingArchive (n : Name)
  | fetchCar (n : Name)
  | packCar (n : Name)
  | unpackCar (n : Name)
  | importCar (n : Name) (sha256 : JsString)

/-- What a command answers: `none` and `false` where it fails or prints no receipt. A
command that writes a local file answers what it leaves there, also when it fails; while it
runs anything may be in the file, and is if the shipper is killed (`writingCar`). -/
@[reducible] def Reply : Cmd → Type
  | .run _ => Bool
  | .readLargeArchive _ => Option LargeArchive
  | .exportCar _ _ => Bool × Option Export × Option JsString
  | .writingCar _ => Option JsString
  | .writingArchive _ => Option (JsString × Nat)
  | .fetchCar _ => Bool × Option JsString
  | .packCar _ => Option Pack × Option (JsString × Nat)
  | .unpackCar _ => Option Unpack
  | .importCar _ _ => Option Import

/-- A program of the shipper. -/
abbrev Prog (α : Type) := Task Durable Cmd Reply String α

/-- Refuse unless `c`. -/
def check (c : Prop) [Decidable c] (e : String) : Prog Unit := if c then .ret () else .throw e

/-- `run` -/
def run (r : Run) : Prog Unit := .await (.run r) fun ok => check (ok = true) "command refused"

/-- `run`, where it is needed. -/
def runIf (c : Bool) (r : Run) : Prog Unit := if c then run r else .ret ()

/-- A receipt, or none. -/
def receipt {α : Type} (e : String) : Option α → Prog α
  | some a => .ret a
  | none => .throw e

/-! ## Skipping a row -/

/-- `large_archive_receipt_matches`, and the size on disk. -/
def largeArchiveMatches (cfg : Config) (k : Skipped) (l : LargeArchive) : Bool :=
  l.schema == 1 && l.row == k.row && l.inventorySha256 == cfg.sha256 && l.originalCid == k.cid &&
    l.originalBytes == k.bytes &&
    l.validation == js "fresh-offline-kubo-import-cat-and-original-cid-rehydration" &&
    sha256Re l.carSha256 && 0 < l.carBytes && l.carBytesOnDisk == l.carBytes

/-- `verify_remote_large_archive` -/
def verifyLargeArchive (cfg : Config) (a : Args) (k : Skipped) : Prog Unit :=
  (check (a.largeArchive = true) "oversized row has no Jacob recovery archive").bind fun _ =>
  .await (.readLargeArchive k.row) fun l =>
  (receipt "Jacob large recovery archive returned no receipt" l).bind fun l =>
  check (largeArchiveMatches cfg k l = true) "Jacob large recovery receipt differs from skipped row"

/-- The receiving host's copy of a row is verified. -/
def verifySkip (cfg : Config) (a : Args) (k : Skipped) : Prog Unit :=
  match k.reason with
  | .rawBlockStore => run (.verifyRaw k.cid k.bytes)
  | .oversized => verifyLargeArchive cfg a k

def Durable.setCheckpoint (cfg : Config) (cursor : Nat) (s : Durable) : Durable :=
  { s with checkpoint := some ⟨cursor, cfg.sha256⟩ }

/-- The skip record, unless there is one. -/
def recordSkip (k : Skipped) : Prog Unit :=
  .get fun s =>
    match s.skips k.row with
    | some saved => check (saved = k) "oversized skip receipt differs"
    | none => .upd (fun s => { s with skips := update s.skips k.row (some k) }) (.ret ())

/-- What a call returns. -/
inductive Result where
  | complete
  | skipped (k : Skipped)
  | shipped (n : Name)

def skipRow (cfg : Config) (a : Args) (k : Skipped) : Prog Result :=
  (verifySkip cfg a k).bind fun _ =>
  .upd (fun s => { s with verified := k :: s.verified }) <|
  (recordSkip k).bind fun _ =>
  .upd (Durable.setCheckpoint cfg (k.row + 1)) (.ret (.skipped k))

/-! ## Shipping a range -/

/-- The number of rows of a range. -/
def Name.blocks (n : Name) : Nat := n.2 - n.1

/-- The saved CAR is checked against its export receipt. -/
def savedExport (n : Name) (e : Export) : Prog Export :=
  .get fun s =>
  (check (s.cars n ≠ none ∧ e.sha256 = s.cars n ∧ e.startRow = some n.1 ∧ e.endRow = some n.2)
    "saved CAR differs from export receipt").bind fun _ => .ret e

def Durable.setCar (n : Name) (sha256 : Option JsString) (s : Durable) : Durable :=
  { s with cars := update s.cars n sha256 }

def Durable.setArchive (n : Name) (sha256 : Option (JsString × Nat)) (s : Durable) : Durable :=
  { s with archives := update s.archives n sha256 }

/-- The CAR is exported, and copied here from a Kubo host. -/
def runExport (a : Args) (n : Name) : Prog Export :=
  if a.source then
    .await (.exportCar n a.maxBytes) fun r =>
    (check (r.1 = true) "command refused").bind fun _ =>
    .await (.writingCar n) fun f =>
    .upd (Durable.setCar n f) <|
    .await (.fetchCar n) fun f =>
    .upd (Durable.setCar n f.2) <|
    (check (f.1 = true) "command refused").bind fun _ =>
    receipt "CAR exporter returned no receipt" r.2.1
  else
    (run .classpath).bind fun _ =>
    .await (.writingCar n) fun f =>
    .upd (Durable.setCar n f) <|
    .await (.exportCar n a.maxBytes) fun r =>
    .upd (Durable.setCar n r.2.2) <|
    (check (r.1 = true) "command refused").bind fun _ =>
    receipt "CAR exporter returned no receipt" r.2.1

/-- A new export, which is saved. -/
def newExport (a : Args) (n : Name) : Prog Export :=
  (runExport a n).bind fun e =>
  .get fun s =>
  (check (e.complete = true ∧ e.startRow = some n.1 ∧ e.endRow = some n.2 ∧ e.blocks = some n.blocks ∧
    s.cars n ≠ none ∧ e.sha256 = s.cars n) "CAR export receipt differs").bind fun _ =>
  .upd (fun s => { s with exports := update s.exports n (some e) }) (.ret e)

/-- The export of a range: the saved one, or a new one. -/
def exported (a : Args) (n : Name) : Prog Export :=
  .get fun s =>
    match s.exports n with
    | some e => savedExport n e
    | none => newExport a n

/-- `pack_transport_archive` -/
def packTransportArchive (n : Name) (e : Export) : Prog Pack :=
  .await (.writingArchive n) fun f =>
  .upd (Durable.setArchive n f) <|
  .await (.packCar n) fun r =>
  .upd (Durable.setArchive n r.2) <|
  (receipt "CARv2/Zstandard packer returned no receipt" r.1).bind fun p =>
  .get fun s =>
  (check (p.carv2zstd = true ∧ p.carv1Sha256 = e.sha256 ∧ p.blocks = some n.blocks ∧
    s.archives n = some (p.compressedSha256, p.compressedBytes) ∧ sha256Re p.carv2Sha256 = true)
    "CARv2/Zstandard receipt differs from the exported CAR").bind fun _ =>
  .upd (fun s => { s with packs := p :: s.packs }) (.ret p)

/-- With `--carv2-zstd`, the transport archive. -/
def packed (a : Args) (n : Name) (e : Export) : Prog (Option Pack) :=
  if a.carv2 then (packTransportArchive n e).bind fun p => .ret (some p) else .ret none

/-- What the CAR that is imported must hash to. -/
def importSha256 (e : Export) : Option Pack → Option JsString
  | some p => some p.carv2Sha256
  | none => e.sha256

/-- The CAR is copied to the receiving host. The name of an object has the archive's SHA-256
in it. -/
def transfer (a : Args) (n : Name) (p : Option Pack) : Prog Unit :=
  if a.s3 then
    (receipt "TypeError" p).bind fun _ =>
    (run (.uploadS3 n)).bind fun _ =>
    run (.downloadS3 n)
  else run (.copyCar n)

/-- `unpack_remote_archive` -/
def unpackRemoteArchive (n : Name) : Option Pack → Prog Unit
  | some p =>
    .await (.unpackCar n) fun r =>
    (receipt "remote CARv2/Zstandard unpacker returned no receipt" r).bind fun u =>
    check (u.complete = true ∧ u.compressedSha256 = p.compressedSha256 ∧ u.carv2Sha256 = p.carv2Sha256 ∧
      u.blocks = some n.blocks) "remote CARv2/Zstandard receipt differs"
  | none => .ret ()

/-- The CAR is imported. -/
def imported (n : Name) (sha256 : JsString) : Prog Import :=
  .await (.importCar n sha256) fun r =>
  (receipt "Jacob importer returned no receipt" r).bind fun i =>
  .upd (fun s => { s with imports := i :: s.imports }) <|
  (check (i.complete = true ∧ i.startRow = some n.1 ∧ i.endRow = some n.2 ∧ i.carSha256 = some sha256 ∧
    i.blocks = some n.blocks) "Jacob import receipt differs").bind fun _ => .ret i

/-- With `--s3-destination`, the manifest of the archive. -/
def archiveManifest (a : Args) (n : Name) (i : Import) (p : Option Pack) : Prog Unit :=
  if a.s3 then
    (receipt "S3 archival requires the CARv2/Zstandard transport mode" p).bind fun p =>
    .get fun s =>
    (match s.manifests n with
      | some m => check (m = Manifest.mk n.1 n.2 p i.root) "saved compressed archive manifest differs"
      | none =>
        .upd (fun s => { s with manifests := update s.manifests n (some ⟨n.1, n.2, p, i.root⟩) })
          (.ret ())).bind fun _ =>
    run (.uploadManifest n)
  else .ret ()

/-- The transient files are removed on the hosts, and the checkpoint moves. -/
def advance (cfg : Config) (a : Args) (n : Name) : Prog Result :=
  (run (.cleanRemote n)).bind fun _ =>
  (runIf a.source (.cleanSource n)).bind fun _ =>
  .upd (Durable.setCheckpoint cfg n.2) <|
  .upd (Durable.setCar n none) <|
  .upd (Durable.setArchive n none) (.ret (.shipped n))

def shipRange (cfg : Config) (a : Args) (n : Name) : Prog Result :=
  (exported a n).bind fun e =>
  (packed a n e).bind fun p =>
  (receipt "KeyError" (importSha256 e p)).bind fun sha256 =>
  (transfer a n p).bind fun _ =>
  (unpackRemoteArchive n p).bind fun _ =>
  (imported n sha256).bind fun i =>
  (archiveManifest a n i p).bind fun _ =>
  advance cfg a n

/-! ## A call -/

/-- The two implementations. -/
inductive Impl where
  | python
  | kotoba

/-- `selected_rows`, `selected-rows`. -/
def Impl.selectedRows : Impl → Inventory → List JsString → Nat → Nat → Nat →
    Except String (List Row × Option Skipped)
  | .python => pySelectedRows
  | .kotoba => kotobaSelectedRows

/-- A check that needs no file. -/
def ofExcept {α : Type} : Except String α → Prog α
  | .ok a => .ret a
  | .error e => .throw e

/-- What is done with the rows that are selected. -/
def shipSelected (cfg : Config) (a : Args) (start : Nat) : List Row × Option Skipped → Prog Result
  | (_, some k) => skipRow cfg a k
  | (rows, none) => shipRange cfg a (start, start + rows.length)

/-- The next step behind the checkpoint. -/
def shipFrom (impl : Impl) (cfg : Config) (a : Args) (raw : List JsString) (stop start : Nat) :
    Prog Result :=
  (check (start ≤ stop) "checkpoint passed configured stop row").bind fun _ =>
  if start = stop then .ret .complete
  else
    (ofExcept (impl.selectedRows cfg.inventory raw start (min a.maxBlocks (stop - start)) a.maxBytes)).bind
      (shipSelected cfg a start)

/-- Where the checkpoint stands. -/
def Durable.cursor (cfg : Config) (s : Durable) : Nat := (s.checkpoint.map Checkpoint.cursor).getD cfg.startRow

/-- `ship_once`, `ship-once`. In Kotoba the CAR comes from a Kubo host and is shipped as it is. -/
def shipOnce (impl : Impl) (cfg : Config) (a : Args) : Prog Result :=
  let stop := a.stopRow.getD cfg.inventory.length
  (check (sha256Re cfg.sha256 = true ∧ 1 ≤ cfg.inventory.length ∧ cfg.startRow < stop ∧
    stop ≤ cfg.inventory.length) "invalid inventory identity or start").bind fun _ =>
  (check ((1 ≤ a.maxBlocks ∧ a.maxBlocks ≤ 1000) ∧ 1 ≤ a.maxBytes ∧ a.maxBytes ≤ 536870912)
    "invalid CAR bounds").bind fun _ =>
  (receipt "raw CID manifest or Jacob store argument differs" a.raw).bind fun raw =>
  .get fun s =>
  (check (s.checkpoint.all (fun c => c.inventorySha256 = cfg.sha256) = true)
    "checkpoint identity differs").bind fun _ =>
  shipFrom impl cfg a raw stop (s.cursor cfg)

/-- The arguments that an implementation has. -/
def Impl.args : Impl → Args → Args
  | .python, a => a
  | .kotoba, a => { a with source := true, carv2 := false, s3 := false }

/-- A call: after how many file operations and commands it is killed, and what the commands
answer. -/
structure Call where
  impl : Impl
  args : Args
  kill : Nat
  answer : Nat → (c : Cmd) → Reply c

/-- The files behind a call. -/
def Call.run (cfg : Config) (c : Call) (s : Durable) : Durable :=
  ((shipOnce c.impl cfg (c.impl.args c.args)).upTo c.answer c.kill 0 s).1

/-- The files behind a sequence of calls. -/
def runs (cfg : Config) (calls : List Call) (s : Durable) : Durable :=
  calls.foldl (fun s c => c.run cfg s) s

end Ship
