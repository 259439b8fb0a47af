import Yataverse.Carv2.Archive
import Yataverse.EventLoop.Answered
import Mathlib.Data.List.Defs
import Mathlib.Logic.Function.Basic

/-!
# Publishing an archive

`publish_no_replace` and `write_json_no_replace` of `carv2_zstd.py`, and `pack` and `unpack`
with their file operations. A call asks for every operation at most once, and the outside
says of each whether it fails. A temporary file has a fresh name and stands in the model for
its contents; paths are normalized, and a receipt is written by `dumps` and read by `loads`.

- `mkdir`: `mkdir(parents=True, exist_ok=True)`.
- `publishNoReplace`, `writeJsonNoReplace`: a file is linked to its path, if nothing is there.
- `fresh`: what `pack` and `unpack` share: the archive is published, then its receipt.
- `Command.run`: a call of `pack` or of `unpack`.
-/

namespace Carv2.Publish

open EventLoop Fallible

/-! ## Files -/

/-- A path: its components. -/
abbrev Path := List String

/-- What stands at a path. -/
inductive Entry where
  | file (content : Bytes)
  | directory
deriving DecidableEq

abbrev Files := Path → Option Entry

/-- The contents of a file, where a path has one. -/
def Files.read (s : Files) (path : Path) : Option Bytes :=
  match s path with
  | some (.file content) => some content
  | _ => none

/-- The directories above a path, the outermost first. -/
def parents (path : Path) : List Path := path.dropLast.inits.tail

/-- `output.with_name(output.name + ".json")`. -/
def sidecar (output : Path) : Path := output.dropLast ++ [output.getLastD "" ++ ".json"]

/-! ## Operations -/

/-- The places where a call makes directories. -/
inductive Stage where
  | call
  | publish
  | receipt
deriving DecidableEq

/-- The operations that give a written temporary file its path. -/
inductive Linking where
  | link
  | openDirectory
  | fsync
  | close
  | unlinkTemporary
deriving DecidableEq

/-- The operations of a call that can fail. `inspect` are the reads before anything is
written, `readBack` those after the archive is published. -/
inductive Op where
  | inspect
  | readSaved
  | mkdir (stage : Stage) (path : Path)
  | diskUsage
  | makeTemporary
  | writeTemporary
  | validate
  | digest
  | zstd
  | measure
  | publish (step : Linking)
  | readBack
  | writeReceipt
  | receipt (step : Linking)
  | unlinkOutput
  | cleanUp (second : Bool)
deriving DecidableEq

/-- What a call raises. -/
inductive Failure where
  | archive (e : Error)
  | os (op : Op)
  | fileExists
  | json
deriving DecidableEq

/-- A part of a call. -/
abbrev Call := Task Files Op (fun _ => Bool) Failure

def files : Call Files := Task.reads id

/-- An operation that has no effect on the files, or fails. -/
def perform (op : Op) : Call Unit := Task.attempt .os op

/-- A computation of the tool. -/
def lift {α : Type} (x : Except Error α) : Call α :=
  match x with
  | .ok a => .ret a
  | .error e => .throw (.archive e)

/-- `mkdir(parents=True, exist_ok=True)`, from the outermost directory on. -/
def mkdir (stage : Stage) : List Path → Call Unit
  | [] => .ret ()
  | p :: ps => .get fun s =>
    match s p with
    | some .directory => mkdir stage ps
    | some (.file _) => .throw .fileExists
    | none => do
      perform (.mkdir stage p)
      Task.modify fun s => Function.update s p (some .directory)
      mkdir stage ps

/-- `os.link`: the path gets the contents, if nothing is there. -/
def link (op : Op) (path : Path) (content : Bytes) : Call Unit := do
  perform op
  let s ← files
  if s path = none then Task.modify fun s => Function.update s path (some (.file content))
  else throw .fileExists

/-- `path.unlink(missing_ok=True)`. -/
def unlink (op : Op) (path : Path) : Call Unit := do
  perform op
  Task.modify fun s => Function.update s path none

/-- The link, and the directory made durable. -/
def linkDurably (op : Linking → Op) (path : Path) (content : Bytes) : Call Unit := do
  link (op .link) path content
  perform (op .openDirectory)
  (perform (op .fsync)).ensure (perform (op .close))

/-- `except FileExistsError`. -/
def refuseExisting (message : String) (t : Call Unit) : Call Unit :=
  t.handle fun e =>
    match e with
    | .fileExists => .throw (.archive (.archive message))
    | e => .throw e

/-- `publish_no_replace`. -/
def publishNoReplace (content : Bytes) (output : Path) : Call Unit := do
  mkdir .publish (parents output)
  (refuseExisting "output already exists" (linkDurably .publish output content)).ensure
    (perform (.publish .unlinkTemporary))

/-- `write_json_no_replace`. -/
def writeJsonNoReplace (dumps : Receipt → Bytes) (path : Path) (value : Receipt) : Call Unit := do
  mkdir .receipt (parents path)
  (refuseExisting "receipt already exists" do
    perform .writeReceipt
    linkDurably .receipt path (dumps value)).ensure
    (perform (.receipt .unlinkTemporary))

/-! ## The tool -/

section Tool

variable (sha256 : Bytes → Bytes) (dumps : Receipt → Bytes) (loads : Bytes → Option Receipt)

section Fresh

variable {α : Type}

/-- The receipt is written. Where that fails, the archive is taken back. -/
def writeOrRemove (output receiptPath : Path) (value : Receipt) : Call Unit :=
  (writeJsonNoReplace dumps receiptPath value).handle fun e => do
    unlink .unlinkOutput output
    throw e

/-- The archive is published, and its receipt after it. -/
def publishBoth (output receiptPath : Path) (content : Bytes) (receipt : Call Receipt) : Call Receipt := do
  publishNoReplace content output
  let value ← receipt
  writeOrRemove dumps output receiptPath value
  return value

/-- A call that finds neither the output nor its receipt. `check` is what it checks before
it makes its temporary files, `prepare` what it does with them, and `clean` takes them away. -/
def fresh (output receiptPath : Path) (check : Call Unit) (prepare : Call α) (content : α → Bytes)
    (receipt : α → Call Receipt) (clean : Call Unit) : Call Receipt := do
  mkdir .call (parents output)
  check
  perform .makeTemporary
  Task.ensure (do
    let a ← prepare
    publishBoth dumps output receiptPath (content a) (receipt a)) clean

end Fresh

/-- The receipt that a call finds, checked against the output there. -/
def saved (s : Files) (output receiptPath : Path) (missing : String)
    (checked : Bytes → Receipt → Except Error Receipt) : Call Receipt :=
  match s.read output, s.read receiptPath with
  | some archive, some text => do
    perform .readSaved
    match loads text with
    | some receipt => lift (checked archive receipt)
    | none => throw .json
  | _, _ => throw (.archive (.archive missing))

/-- The arguments of `pack`. -/
structure PackArgs where
  carv1 : Path
  output : Path
  receipt : Option Path
  maxBlocks : Nat
  maxBytes : Nat

/-- What `pack` has made of its input before it publishes it. -/
structure Packed where
  carv2 : Bytes
  compressed : Bytes
  blocks : Nat

/-- The temporary files of `pack`. -/
def packTemporaries (compress : Bytes → Option Bytes) (carv1 : Bytes) (maxBlocks : Nat) : Call Packed := do
  perform .writeTemporary
  let (carv2, rows) ← lift (wrap sha256 carv1 maxBlocks)
  perform .validate
  let checked ← lift (validateCarv2 sha256 carv2 maxBlocks)
  lift (require (checked.blocks = rows.length)
    (.archive "CARv2 validation returned a different block count"))
  perform .digest
  perform .zstd
  let compressed ← lift (runZstd (compress carv2))
  perform .measure
  return ⟨carv2, compressed, rows.length⟩

/-- The disk reserve of `pack`. -/
def reserve (free : Nat) (carv1 : Bytes) : Call Unit := do
  perform .diskUsage
  lift (require (2 * carv1.length + 64 * 1024 * 1024 ≤ free)
    (.archive "disk reserve is too low for CARv2 and Zstandard temporaries"))

/-- The receipt of `pack`. Its ratios divide by the size of the compressed file. -/
def describePacked (carv1 : Bytes) (packed : Packed) : Call Receipt := do
  perform .readBack
  lift (require (packed.compressed ≠ []) .zeroDivision)
  return packReceipt sha256 carv1 packed.carv2 packed.compressed packed.blocks

/-- `pack`. -/
def pack (compress : Bytes → Option Bytes) (free : Nat) (args : PackArgs) : Call Receipt := do
  let receiptPath := args.receipt.getD (sidecar args.output)
  perform .inspect
  let s ← files
  match s.read args.carv1 with
  | none => throw (.archive (.archive "CARv1 input is absent"))
  | some carv1 => do
    lift (require (1 ≤ args.maxBlocks ∧ args.maxBlocks ≤ 1000 ∧ 1 ≤ carv1.length ∧ carv1.length ≤ args.maxBytes)
      (.archive "CARv1 exceeds configured block or byte bounds"))
    if s args.output ≠ none ∨ s receiptPath ≠ none then
      saved loads s args.output receiptPath "saved output is missing its matching receipt"
        fun archive receipt =>
          (Carv2.pack sha256 compress free (some carv1) ⟨some archive, some receipt⟩
            args.maxBlocks args.maxBytes).map Prod.fst
    else
      fresh dumps args.output receiptPath (reserve free carv1)
        (packTemporaries sha256 compress carv1 args.maxBlocks) Packed.compressed
        (describePacked sha256 carv1)
        (do
          perform (.cleanUp false)
          perform (.cleanUp true))

/-- The arguments of `unpack`. -/
structure UnpackCall where
  compressed : Path
  output : Path
  receipt : Option Path
  args : UnpackArgs

/-- The temporary file of `unpack`. -/
def unpackTemporary (decompress : Bytes → Option Bytes) (compressed : Bytes) (declaredSize : Nat)
    (args : UnpackArgs) : Call (Bytes × Validation) := do
  perform .writeTemporary
  perform .zstd
  let carv2 ← lift (runZstd (decompress compressed))
  perform .measure
  lift (require (carv2.length = declaredSize)
    (.archive "Zstandard output size differs from its frame header"))
  perform .validate
  let validation ← lift (validateCarv2 sha256 carv2 args.maxBlocks)
  perform .digest
  lift (require (args.expectedCarv2Sha256 = "" ∨ sha256File sha256 carv2 = args.expectedCarv2Sha256)
    (.archive "decompressed CARv2 SHA-256 differs from the expected receipt"))
  return (carv2, validation)

/-- The receipt of `unpack`. -/
def describeUnpacked (compressed : Bytes) (unpacked : Bytes × Validation) : Call Receipt := do
  perform .readBack
  return unpackReceipt sha256 compressed unpacked.1 unpacked.2

/-- `unpack`. -/
def unpack (decompress : Bytes → Option Bytes) (call : UnpackCall) : Call Receipt := do
  let receiptPath := call.receipt.getD (sidecar call.output)
  perform .inspect
  let s ← files
  match s.read call.compressed with
  | none => throw (.archive (.archive "compressed input is absent"))
  | some compressed => do
    lift (require (call.args.expectedCompressedSha256 = "" ∨
        sha256File sha256 compressed = call.args.expectedCompressedSha256)
      (.archive "compressed SHA-256 differs from the expected receipt"))
    if s call.output ≠ none ∨ s receiptPath ≠ none then
      saved loads s call.output receiptPath "saved CARv2 is missing its matching receipt"
        fun archive receipt =>
          (Carv2.unpack sha256 decompress (some compressed) ⟨some archive, some receipt⟩
            call.args).map Prod.fst
    else do
      let declaredSize ← lift (zstdFrameContentSize compressed)
      lift (require (declaredSize ≤ call.args.maxBytes + 128 * call.args.maxBlocks + 1024)
        (.archive "Zstandard content size exceeds the configured CAR bound"))
      fresh dumps call.output receiptPath (.ret ())
        (unpackTemporary sha256 decompress compressed declaredSize call.args) Prod.fst
        (describeUnpacked sha256 compressed) (perform (.cleanUp false))

end Tool

/-- What the tool runs on: the hash, the `zstd` program, the free disk space and the text of a
receipt. -/
structure Host where
  sha256 : Bytes → Bytes
  compress : Bytes → Option Bytes
  decompress : Bytes → Option Bytes
  free : Nat
  dumps : Receipt → Bytes
  loads : Bytes → Option Receipt

/-- `args.command`. -/
inductive Command where
  | pack (args : PackArgs)
  | unpack (call : UnpackCall)

namespace Command

def output : Command → Path
  | .pack args => args.output
  | .unpack call => call.output

def receiptPath : Command → Path
  | .pack args => args.receipt.getD (sidecar args.output)
  | .unpack call => call.receipt.getD (sidecar call.output)

/-- A call, where `ok` says of each operation whether it succeeds: the files it leaves, and how
it ends. -/
def run (command : Command) (host : Host) (ok : Op → Bool) (s : Files) : Files × Except Failure Receipt :=
  match command with
  | .pack args => (Publish.pack host.sha256 host.dumps host.loads host.compress host.free args).eval ok s
  | .unpack call => (Publish.unpack host.sha256 host.dumps host.loads host.decompress call).eval ok s

end Command

end Carv2.Publish
