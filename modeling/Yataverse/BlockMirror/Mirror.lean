import Yataverse.BlockIngest.Handle
import Yataverse.EventLoop.Asks

/-!
# The second custodian

`block_mirror.cljk`: hold what the source entrance holds, per signer, on this host's
own Kubo. The store it is given answers with promises, so that its calls are the
commands here, beside the requests to the source.

- `plan`: what to copy and what to release, from two listings.
- `copyAll`: copy in turn, until the free-space reserve is reached.
- `mirrorSigner`: one signer; `round`: all of them.
-/

namespace BlockMirror

open Js GraphHead EventLoop BlockIngest

/-! ## The outside -/

/-- An answer of the source: its status and JSON, if it is JSON. -/
structure Reply where
  status : Nat
  json : Option Json
deriving DecidableEq

/-- What a mirror asks of the outside: the source, its own store, its disk, and its Kubo's
connection to the source. -/
inductive Cmd where
  | fetch (path : JsString)
  | holds (suffix : JsString)
  | holdRemote (p : Hold) (timeoutS : Nat)
  | release (p : Hold)
  | heads (suffix : JsString)
  | putHead (suffix name : JsString) (rec : Json)
  | freeBytes
  | redial (addr : JsString)
deriving DecidableEq

/-- What a command resolves with. -/
def Cmd.Result : Cmd → Type
  | .fetch _ => Reply
  | .holds _ => List JsString
  | .holdRemote _ _ => Unit
  | .release _ => Bool
  | .heads _ => List (JsString × Json)
  | .putHead _ _ _ => Unit
  | .freeBytes => Nat
  | .redial _ => Unit

/-- How a command is answered: it resolves or rejects. -/
abbrev Cmd.Answer (c : Cmd) : Type := Except Err c.Result

/-- A promise chain of the mirror. It keeps nothing in memory. -/
abbrev Step (α : Type) := Task Unit Cmd Cmd.Answer Err α

/-- Resolve or reject as the answer does. -/
def settle {α : Type} : Except Err α → Step α
  | .ok a => .ret a
  | .error e => .throw e

/-- Call one command. -/
def call (c : Cmd) : Step c.Result := .await c settle

/-- `Promise.all` of calls: each is made, whatever becomes of the others. -/
def callAll : List Cmd → Step Unit
  | [] => .ret ()
  | c :: cs => .await c fun r => (callAll cs).bind fun _ => (settle r).bind fun _ => .ret ()

structure Opts where
  signers : List JsString
  minFreeBytes : Nat
  fetchTimeout : Nat
  sourcePeers : List JsString

/-! ## A round -/

/-- The value of an answer of the source, by `fetch-json`. -/
def valueOf (path : JsString) (r : Reply) : Step Json :=
  if r.status = 200 then
    match r.json with
    | some v => .ret v
    | none => .throw (.other (js "not JSON"))
  else .throw (.unmeasured (path ++ js " answered " ++ natStr r.status))

/-- `fetch-json`: one retry on a network error. -/
def fetchJson (path : JsString) : Step Json := do
  let r ← (call (.fetch path)).handle fun _ => call (.fetch path)
  valueOf path r

/-- The CIDs of a listing; its service lists strings. -/
def cidsOf (listing : Json) : List JsString :=
  match listing.get (js "cids") with
  | .arr xs => xs.filterMap Json.str?
  | _ => []

/-- What one round does for one signer. -/
structure Plan where
  copy : List JsString
  release : List JsString
deriving DecidableEq

/-- `plan`. -/
def plan (source «local» : List JsString) : Plan :=
  let s := source.foldl conj []
  let l := «local».foldl conj []
  { copy := sorted (s.filter (· ∉ l)), release := sorted (l.filter (· ∉ s)) }

/-- `copy-all!`: how many of `cids` have been copied, after `n`. -/
def copyAll (opts : Opts) (signer : JsString) : List JsString → Nat → Step Nat
  | [], n => .ret n
  | cid :: more, n => do
    let free : Nat ← call .freeBytes
    if free < opts.minFreeBytes then .ret n
    else
      let hold := call (.holdRemote (holdPath signer cid) opts.fetchTimeout)
      -- a rejection of the rest, too, is taken for one of this copy
      ((hold.handle fun _ => do
          callAll (opts.sourcePeers.map .redial)
          hold).bind fun _ => copyAll opts signer more (n + 1)).handle
        fun _ => copyAll opts signer more n

/-- Is the sequence number of `rec` higher than that of `current`? -/
def newer (rec current : Json) : Bool := (current.get (js "seq")).lt (rec.get (js "seq"))

/-- `mirror-heads!`. -/
def mirrorHeads (suffix : JsString) : Step Nat := do
  let remote ← fetchJson (js "/v1/heads/" ++ suffix)
  let «local» ← call (.heads suffix)
  let heads := match remote.get (js "heads") with
    | .obj kvs => kvs.filter fun (name, rec) => newer rec (Json.lookup name «local»)
    | _ => []
  callAll (heads.map fun (name, rec) => .putHead suffix name rec)
  return heads.length

/-- What a round says of one signer. -/
inductive Summary where
  | mirrored (signer : JsString) (held released copied heads : Nat)
  | failed (signer error : JsString)
deriving DecidableEq

/-- `mirror-signer!`. -/
def mirrorSigner (opts : Opts) (signer : JsString) : Step Summary := do
  let suffix := signer.drop 8
  let listing ← fetchJson (js "/v1/holds/" ++ suffix)
  let «local» ← call (.holds suffix)
  let p := plan (cidsOf listing) «local»
  let copied ← copyAll opts signer p.copy 0
  callAll (p.release.map fun cid => .release (holdPath signer cid))
  let heads ← mirrorHeads suffix
  return .mirrored signer (cidsOf listing).length p.release.length copied heads

/-- `round!`: the chains of a round, which run side by side. -/
def round (opts : Opts) : List (Step Summary) :=
  opts.signers.map fun signer =>
    (mirrorSigner opts signer).handle fun e => .ret (.failed signer (message e))

/-! ## The source -/

/-- What a source entrance holds: its hold files, and the CIDs under `/block-ingest` in MFS. -/
structure Source where
  files : Files
  mfs : List Hold
  mfs_cid : ∀ p ∈ mfs, rawCidRe p.cid = true

/-- The source holds a CID for a signer. -/
def Source.Holds (src : Source) (p : Hold) : Prop :=
  p ∈ src.mfs ∨ p.cid ∈ src.files.readSet p.suffix

/-- What the source's `files ls` prints when it succeeds: the CIDs in the directory, a line
each. -/
def Source.Lists (src : Source) (suffix : JsString) (ls : Proc) : Prop :=
  ls.exited 0 = true → ∀ cid, rawCidRe cid = true →
    (cid ∈ splitLines (ofUtf8 ls.out) ↔ ⟨suffix, cid⟩ ∈ src.mfs)

/-- The source's answer to a GET, where `ls` is how its `files ls` of a directory ends. A JSON
body arrives as it was sent. -/
def Source.answer (nc : NodeCrypto) (opts : BlockIngest.Opts) (src : Source) (ls : JsString → Proc)
    (now : Int) (path : JsString) : Except Err Reply :=
  let req : Request := ⟨js "GET", path, ⟨none, none, none⟩, none⟩
  let kubo (_ : Unit) : BlockIngest.Cmd → Proc × Unit
    | .filesLs suffix => (ls suffix, ())
    | _ => (⟨none, [], []⟩, ())
  ((go nc opts now req).alone kubo src.files ()).1.map fun r =>
    ⟨r.status, match r.body with
      | .json v => some v
      | .block _ _ => none⟩

end BlockMirror
