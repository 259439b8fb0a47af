import Yataverse.EventLoop.Part
import Yataverse.Replicate.Migrate
import Yataverse.Lake.Inventory

/-!
# Kubo and the raw store

`Kubo` and `KuboRPC` of `replicate_lake.py`, with the raw store behind them. What a CID stands
for is fixed, and so is the CID that Kubo derives from bytes; whether a command succeeds is not,
and between two commands other processes use the same repository.

- `Store`: the pins, and the raw blocks. Once there, a pin or a raw block stays (`Store.Grows`).
- `Disk`: all that outlives a call of the program.
- `Command`: what a call asks of the outside.
- `preflight`, `durablePinType`, `blockSize`, `putVerified`: as in the source.
- `Quiet`: none of them touches the files of the state directory.
-/

namespace Replicate.Batch

open Js GraphHead Lake EventLoop

/-! ## The disk -/

/-- The kinds of pins. -/
inductive PinKind where
  | direct
  | recursive
  | indirect
deriving DecidableEq

/-- The pins of Kubo, and the blocks that the raw store reads back. -/
structure Store where
  pins : PinKind → JsString → Bool
  raw : JsString → Option Bytes

/-- Pinned itself. -/
def Store.explicit (s : Store) (cid : JsString) : Bool := s.pins .direct cid || s.pins .recursive cid

/-- Pinned itself, or reached through a recursive root. -/
def Store.pinned (s : Store) (cid : JsString) : Bool := s.explicit cid || s.pins .indirect cid

/-- What `pin ls --type=all` says. -/
def Store.kindOf (s : Store) (cid : JsString) : Option PinKind :=
  if s.pins .direct cid then some .direct
  else if s.pins .recursive cid then some .recursive
  else if s.pins .indirect cid then some .indirect
  else none

/-- `pin add --recursive=false`. -/
def Store.pin (cid : JsString) (s : Store) : Store :=
  { s with pins := fun kind c => decide (kind = .direct ∧ c = cid) || s.pins kind c }

/-- `put` of the raw store. A block that is there stays. -/
def Store.putRaw (cid : JsString) (data : Bytes) (s : Store) : Store :=
  { s with raw := fun c => if c = cid then some ((s.raw c).getD data) else s.raw c }

/-- Pins and raw blocks persist. A direct pin may become a recursive one. -/
structure Store.Grows (s s' : Store) : Prop where
  recursive : ∀ cid, s.pins .recursive cid = true → s'.pins .recursive cid = true
  explicit : ∀ cid, s.explicit cid = true → s'.explicit cid = true
  pinned : ∀ cid, s.pinned cid = true → s'.pinned cid = true
  raw : ∀ cid data, s.raw cid = some data → s'.raw cid = some data

/-- What other processes do meanwhile. -/
structure Others where
  act : Store → Store
  grows : ∀ s : Store, s.Grows (act s)

/-- A receipt. -/
structure Receipt where
  cid : JsString
  bytes : Nat
  sha256 : Bytes

/-- A receipt in `receipts.jsonl`, or the part of it that was written before an error. -/
structure ReceiptLine where
  receipt : Receipt
  whole : Bool

/-- All that outlives a call. -/
structure Disk (Text : Type) where
  files : Files Text
  receipts : List ReceiptLine
  store : Store

/-- What is outside the program and does not change: the block that a CID is the address of, the
CID that Kubo derives from bytes with the version, codec and hash of another, and SHA-256. -/
structure Blocks where
  content : JsString → Bytes
  derived : JsString → Bytes → JsString
  sha256 : Bytes → Bytes

/-! ## Commands -/

/-- Commands that succeed or fail. What they answer is in the store. -/
inductive Query where
  | listing (cursor : Option JsString)
  | pinList (kind : PinKind)
  | rawCids
  | rpcRepoStat
  | pinType (kind : Option PinKind) (cid : JsString)
  | blockStat (cid : JsString)
  | rawRead (cid : JsString)
  | blockPut (cid : JsString) (data : Bytes)
  | blockGet (cid : JsString)

/-- All commands; `others` leaves the turn to other processes. -/
inductive Command where
  | others
  | query (q : Query)
  | repoStat
  | diskUsage
  | cidFormat (cid : JsString)
  | pinAdd (cid : JsString)
  | rawPut (cid : JsString) (data : Bytes)
  | fetch (cid : JsString) (limit : Nat)
  | appendReceipt (receipt : Receipt)
  | file (op : Op)

/-- `repo stat`. -/
inductive RepoStat where
  | failed
  | unreadable
  | noDirectory
  | fields (repoSize storageMax : Nat)

/-- `cid format`. -/
inductive Formatted where
  | failed
  | malformed
  | unsupported (version : JsString)
  | supported

/-- Why `pin add` fails: by an error of Kubo, whose text may contain `pin: protobuf:`, or by a
receipt without the CID. -/
inductive PinError where
  | kubo (protobuf : Bool)
  | receipt
deriving DecidableEq

/-- `pin add`. Where it fails it may have been made. -/
inductive PinReply where
  | done
  | failed (made : Bool) (error : PinError)

/-- An operation that is made, that is not, or that fails after it has been begun. -/
inductive Outcome where
  | done
  | refused (message : String)
  | lost

def Answer : Command → Type
  | .others => Others
  | .query _ | .file _ => Bool
  | .repoStat => RepoStat
  | .diskUsage => Option Nat
  | .cidFormat _ => Formatted
  | .pinAdd _ => PinReply
  | .rawPut _ _ | .appendReceipt _ => Outcome
  | .fetch _ _ => Option Bytes

/-- What a refusal is about. -/
inductive Kind where
  | checkpoint
  | listing
  | bound
  | source
  | kubo
  | rawStore
  | capacity
  | os
deriving DecidableEq

/-- What is raised, with the CID (or version) at the end of the message. -/
structure Refusal where
  kind : Kind
  message : String
  about : JsString
deriving DecidableEq

/-- A failing source, Kubo, raw store, capacity check or file operation. -/
def Refusal.failing (e : Refusal) : Bool :=
  match e.kind with
  | .checkpoint | .listing | .bound => false
  | .source | .kubo | .rawStore | .capacity | .os => true

abbrev Proc (Text α : Type) := Task (Disk Text) Command Answer Refusal α

variable {Text α β : Type}

/-- The store changes. -/
def Disk.change (f : Store → Store) (d : Disk Text) : Disk Text := { d with store := f d.store }

/-- Other processes act. -/
def others : Proc Text Unit := .await .others fun o => .upd (Disk.change o.act) (.ret ())

/-- A command that is to succeed. -/
def request (q : Query) (refusal : Refusal) : Proc Text Unit :=
  others.bind fun _ => .await (.query q) fun (ok : Bool) => if ok = true then .ret () else .throw refusal

/-- A command that may fail. -/
def holds (q : Query) : Proc Text Bool := others.bind fun _ => .await (.query q) .ret

/-- A command that succeeded, by what is in the store. -/
def stored (f : Store → α) : Proc Text α := .get fun d => .ret (f d.store)

/-- A check. -/
def check (c : Prop) [Decidable c] (refusal : Refusal) : Proc Text Unit := if c then .ret () else .throw refusal

/-! ## Kubo -/

/-- `Kubo`, with its command line, and `KuboRPC`. -/
inductive Client where
  | cli
  | rpc
deriving DecidableEq

/-- How its messages begin. -/
def Client.name : Client → String
  | .cli => "Kubo"
  | .rpc => "Kubo RPC"

/-- A command that fails. What follows is Kubo's own text. -/
def Client.failed : Client → Refusal
  | .cli => ⟨.kubo, "ipfs failed", []⟩
  | .rpc => ⟨.kubo, "Kubo RPC refused", []⟩

/-- The object: `pins`, `raw_cids`, `repo_size` and `storage_max`. -/
structure Kubo where
  pins : JsString → Bool
  rawCids : JsString → Bool
  repoSize : Nat
  storageMax : Nat

/-- `pins.add`. -/
def Kubo.pin (cid : JsString) (kubo : Kubo) : Kubo := { kubo with pins := fun c => decide (c = cid) || kubo.pins c }

/-- `raw_cids.add`, and `pins.add`. -/
def Kubo.pinRaw (cid : JsString) (kubo : Kubo) : Kubo :=
  { kubo.pin cid with rawCids := fun c => decide (c = cid) || kubo.rawCids c }

/-- `pin ls --type=<kind>`. -/
def listPins (kind : PinKind) : Proc Text (JsString → Bool) :=
  (request (.pinList kind) Client.cli.failed).bind fun _ => stored fun s => s.pins kind

/-- Indirect pins are listed for the command line only. -/
def listIndirect (client : Client) : Proc Text (JsString → Bool) :=
  match client with
  | .cli => listPins .indirect
  | .rpc => .ret fun _ => false

/-- `cids` of the raw store, if there is one. -/
def listRaw (rawStore : Bool) : Proc Text (JsString → Bool) :=
  match rawStore with
  | true => (request .rawCids ⟨.rawStore, "raw block metadata path differs", []⟩).bind fun _ =>
    stored fun s cid => (s.raw cid).isSome
  | false => .ret fun _ => false

/-- The fields of `repo stat`. -/
def repoStat : Proc Text (Nat × Nat) := others.bind fun _ => .await .repoStat fun stat =>
  match stat with
  | .failed => .throw Client.cli.failed
  | .unreadable => .throw ⟨.capacity, "Kubo repo capacity unreadable: ", []⟩
  | .noDirectory => .throw ⟨.capacity, "Kubo repo path is not a directory", []⟩
  | .fields repoSize storageMax => .ret (repoSize, storageMax)

/-- The daemon has the repository of the command line. -/
def samePath (client : Client) : Proc Text Unit :=
  match client with
  | .cli => .ret ()
  | .rpc => request .rpcRepoStat ⟨.kubo, "Kubo RPC and CLI repository paths differ", []⟩

/-- `preflight`. -/
def preflight (client : Client) (rawStore : Bool) : Proc Text Kubo := do
  let direct ← listPins .direct
  let recursive ← listPins .recursive
  let indirect ← listIndirect client
  let raw ← listRaw rawStore
  let (repoSize, storageMax) ← repoStat
  check (repoSize < storageMax) ⟨.capacity, "Kubo repo has no configured storage headroom", []⟩
  samePath client
  return ⟨fun cid => direct cid || recursive cid || indirect cid || raw cid, raw, repoSize, storageMax⟩

/-- `pin/ls` of one kind. A refusal is as good as no pin. -/
def explicitPin (kind : PinKind) (cid : JsString) : Proc Text Bool :=
  (holds (.pinType (some kind) cid)).bind fun ok => stored fun s => ok && s.pins kind cid

/-- `durable_pin_type`. -/
def durablePinType (client : Client) (cid : JsString) : Proc Text (Option PinKind) :=
  match client with
  | .cli => (holds (.pinType none cid)).bind fun ok => stored fun s => if ok = true then s.kindOf cid else none
  | .rpc => (explicitPin .direct cid).bind fun direct =>
    if direct = true then .ret (some .direct)
    else (explicitPin .recursive cid).bind fun recursive => .ret (if recursive = true then some .recursive else none)

/-- `block_size`. -/
def blockSize (blocks : Blocks) (client : Client) (kubo : Kubo) (cid : JsString) : Proc Text Nat :=
  if kubo.rawCids cid = true then do
    request (.rawRead cid) ⟨.rawStore, "raw block data or metadata missing", []⟩
    let found ← stored fun s => s.raw cid
    match found with
    | some data => return data.length
    | none => .throw ⟨.rawStore, "object of type 'NoneType' has no len()", []⟩
  else do
    request (.blockStat cid) client.failed
    return (blocks.content cid).length

/-- `cid format`. -/
def cidFormat (client : Client) (cid : JsString) : Proc Text Unit :=
  others.bind fun _ => .await (.cidFormat cid) fun formatted =>
    match formatted with
    | .failed => .throw client.failed
    | .malformed => .throw ⟨.kubo, client.name ++ " could not decode CID prefix ", cid⟩
    | .unsupported version =>
      .throw ⟨.kubo, "unsupported CID version ", match client with | .cli => version | .rpc => cid⟩
    | .supported => .ret ()

/-- The first half of `put_verified`: Kubo derives the CID, and gives the block back. -/
def rederive (blocks : Blocks) (client : Client) (cid : JsString) (data : Bytes) : Proc Text Unit := do
  cidFormat client cid
  request (.blockPut cid data) client.failed
  check (blocks.derived cid data = cid) ⟨.kubo, client.name ++ " rederived a different CID for ", cid⟩
  request (.blockGet cid) client.failed
  check (blocks.content cid = data) ⟨.kubo, client.name ++ " readback differs for ", cid⟩

/-- `pin add`, with the error where it fails. -/
def pinAdd (cid : JsString) : Proc Text (Option PinError) :=
  others.bind fun _ => .await (.pinAdd cid) fun reply =>
    match reply with
    | .done => .upd (Disk.change (Store.pin cid)) (.ret none)
    | .failed true error => .upd (Disk.change (Store.pin cid)) (.ret (some error))
    | .failed false error => .ret (some error)

/-- The error, raised. -/
def PinError.refusal (client : Client) (cid : JsString) : PinError → Refusal
  | .kubo _ => client.failed
  | .receipt => ⟨.kubo, "Kubo RPC pin receipt differs for ", cid⟩

/-- `raw_store.put`. -/
def rawPut (cid : JsString) (data : Bytes) : Proc Text Unit :=
  others.bind fun _ => .await (.rawPut cid data) fun outcome =>
    match outcome with
    | .refused message => .throw ⟨.rawStore, message, []⟩
    | .lost => .upd (Disk.change (Store.putRaw cid data)) (.throw ⟨.os, "", []⟩)
    | .done => .upd (Disk.change (Store.putRaw cid data)) <|
      (stored fun s => s.raw cid).bind fun found =>
        check (found = some data) ⟨.rawStore, "existing raw block differs", []⟩

/-- `Kubo.put_verified`. -/
def putVerifiedCli (blocks : Blocks) (kubo : Kubo) (cid : JsString) (data : Bytes) : Proc Text Kubo := do
  rederive blocks .cli cid data
  let failure ← pinAdd cid
  match failure with
  | none => return kubo.pin cid
  | some error => do
    let kind ← durablePinType .cli cid -- another writer may have pinned it
    check (kind.isSome = true) (error.refusal .cli cid)
    return kubo.pin cid

/-- The last check of `KuboRPC.put_verified`. -/
def confirmPin (kubo : Kubo) (cid : JsString) : Proc Text Kubo := do
  let kind ← durablePinType .rpc cid
  check (kind.isSome = true) ⟨.kubo, "Kubo RPC durable pin missing for ", cid⟩
  return kubo.pin cid

/-- `KuboRPC.put_verified`. -/
def putVerifiedRpc (blocks : Blocks) (rawStore : Bool) (kubo : Kubo) (cid : JsString) (data : Bytes) :
    Proc Text Kubo := do
  rederive blocks .rpc cid data
  let failure ← pinAdd cid
  match failure with
  | none => confirmPin kubo cid
  | some error => do
    let kind ← durablePinType .rpc cid
    if kind.isSome = true then confirmPin kubo cid
    else if rawStore = true ∧ error = .kubo true then do
      rawPut cid data
      return kubo.pinRaw cid
    else .throw (error.refusal .rpc cid)

/-- `put_verified`. -/
def putVerified (blocks : Blocks) (client : Client) (rawStore : Bool) (kubo : Kubo) (cid : JsString)
    (data : Bytes) : Proc Text Kubo :=
  match client with
  | .cli => putVerifiedCli blocks kubo cid data
  | .rpc => putVerifiedRpc blocks rawStore kubo cid data

end Replicate.Batch
