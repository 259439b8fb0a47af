import Yataverse.EventLoop.Kill
import Yataverse.Lake.Cid
import Mathlib.Data.List.AList

/-!
# The raw block store

`raw_block_store` keeps the blocks that Kubo cannot decode in two files each, the bytes and
their metadata, below a directory named after the first byte of the CID's hash. There are
two implementations of it, in Python and in Kotoba, with one layout.

- `digestOf`: the SHA-256 digest that a CID names.
- `Store`: the directories and files.
- `read`, `put`, `cids`: the operations. `put` makes its file operations one by one.
-/

namespace RawBlockStore

open Js GraphHead EventLoop Fallible Lake

/-- The two implementations. -/
inductive Impl where
  | python
  | kotoba

/-- `MAX_BLOCK`, `max-block`. -/
def maxBlock : Nat := 256000000

/-! ## CIDs -/

/-- A variable-length number of a CID. -/
def varint (bs : Bytes) : Except String (Nat × Bytes) :=
  readVarint "truncated CID varint" "oversized CID varint" 10 0 0 bs

/-- `base64.b32decode`, `b32-decode`. -/
def Impl.b32Decode : Impl → JsString → Except String Bytes
  | .python, s =>
    match pyB32Decode s with
    | some raw => .ok raw
    | none => .error "invalid CID base32"
  | .kotoba, s => .ok (Lake.b32Decode s)

/-- The multihash in a CID. -/
def multihash (impl : Impl) (cid : JsString) : Except String Bytes :=
  if cidV0 cid then .ok ((b58Decode cid).getD [])
  else if cidV1 cid then do
    let raw ← impl.b32Decode (cid.drop 1)
    let (version, rest) ← varint raw
    require (version = 1) "unsupported CID version"
    let (_, rest) ← varint rest -- codec: identity is already in CID
    return rest
  else .error "invalid CID syntax"

/-- `_sha256_digest`, `sha256-digest`. -/
def digestOf (impl : Impl) (cid : JsString) : Except String Bytes := do
  let encoded ← multihash impl cid
  let (code, rest) ← varint encoded
  let (length, rest) ← varint rest
  require (code = 0x12 ∧ length = 32 ∧ rest.length = 32) "raw store requires a sha2-256 CID"
  return rest

/-- `verify_cid`. -/
def verifyCid (nc : NodeCrypto) (impl : Impl) (cid : JsString) (data : Bytes) : Except String Unit := do
  let digest ← digestOf impl cid
  require (nc.sha256 data = digest) "raw block CID differs from bytes"

/-! ## Files -/

/-- The path of a file below the root. -/
structure Path where
  shard : JsString
  name : JsString
deriving DecidableEq

/-- The metadata of a block. -/
structure Meta where
  schema : Nat
  cid : JsString
  bytes : Nat
  sha256 : JsString
deriving DecidableEq

/-- What a file holds. The text of the metadata stands for its value. -/
inductive Content where
  | block (data : Bytes)
  | metadata (m : Meta)
  /-- A file that has been created and not written. -/
  | empty
deriving DecidableEq

/-- The root directory, the directories below it and the files. For the record, also every
path that a rename has published a file at. -/
structure Store where
  root : Bool
  shards : List JsString
  files : AList fun _ : Path => Content
  renamed : List Path

/-- No root directory. -/
def Store.start : Store := ⟨false, [], ∅, []⟩

/-- Is there a file? -/
def Store.has (s : Store) (p : Path) : Bool := (s.files.lookup p).isSome

/-- `<root>/<sha256(cid)[0:2]>` -/
def shardOf (nc : NodeCrypto) (cid : JsString) : JsString := (hexdigest (nc.sha256 (utf8 cid))).take 2

/-- The first of `_paths`. -/
def dataPath (nc : NodeCrypto) (cid : JsString) : Path := ⟨shardOf nc cid, cid ++ js ".block"⟩

/-- The second of `_paths`. -/
def metaPath (nc : NodeCrypto) (cid : JsString) : Path := ⟨shardOf nc cid, cid ++ js ".json"⟩

/-- The temporary file beside `p`. -/
def tempPath (p : Path) (uuid : JsString) : Path := ⟨p.shard, p.name ++ js "." ++ uuid ++ js ".tmp"⟩

/-! ## File operations -/

def mkRoot (s : Store) : Store := { s with root := true }

def mkShard (shard : JsString) (s : Store) : Store :=
  { s with shards := if s.shards.contains shard then s.shards else shard :: s.shards }

/-- Create a file, or write it. -/
def write (p : Path) (c : Content) (s : Store) : Store := { s with files := s.files.insert p c }

/-- `unlink`, if the file is there. -/
def unlink (p : Path) (s : Store) : Store := { s with files := s.files.erase p }

/-- `os.replace`, `renameSync`: in one step, also over a file. -/
def rename (p q : Path) (s : Store) : Store :=
  match s.files.lookup p with
  | some c => { s with files := (s.files.erase p).insert q c, renamed := q :: s.renamed }
  | none => s

/-- A program over the store. Nothing outside it is asked. -/
abbrev Prog (α : Type) := Task Store Empty (fun _ => Empty) String α

/-- A check that needs no file. -/
def ofExcept {α : Type} : Except String α → Prog α
  | .ok a => .ret a
  | .error e => .throw e

/-- Publish a file: a temporary file is created, written and renamed. -/
def publish (p : Path) (c : Content) (uuid : JsString) : Prog Unit :=
  .upd (write (tempPath p uuid) .empty) <|
  .upd (write (tempPath p uuid) c) <|
  .upd (rename (tempPath p uuid) p) <|
  .upd (unlink (tempPath p uuid)) <| -- `finally`
  .ret ()

/-- `write-synced!`: the temporary file must be new. -/
def writeSynced (p : Path) (c : Content) (uuid : JsString) : Prog Unit :=
  .get fun s =>
    if s.has (tempPath p uuid) then .upd (unlink (tempPath p uuid)) (.throw "File exists")
    else publish p c uuid

/-! ## Operations -/

/-- What is read of a block file: the Python reader stops one byte behind the bound. -/
def Impl.readBytes : Impl → Nat → Bytes → Bytes
  | .python, maxBytes, data => data.take (maxBytes + 1)
  | .kotoba, _, data => data

/-- `read`, `read-block`. -/
def read (nc : NodeCrypto) (impl : Impl) (cid : JsString) (maxBytes : Nat) (s : Store) :
    Except String (Option Bytes) := do
  let _ ← digestOf impl cid -- `_paths`
  match s.files.lookup (dataPath nc cid), s.files.lookup (metaPath nc cid) with
  | none, none => return none
  | some (.block data), some (.metadata m) =>
    require (m.schema = 1 ∧ m.cid = cid ∧ 1 ≤ m.bytes ∧ m.bytes ≤ maxBytes ∧ sha256Re m.sha256 = true)
      "raw block metadata differs"
    let data := impl.readBytes maxBytes data
    require (data.length = m.bytes ∧ hexdigest (nc.sha256 data) = m.sha256)
      "raw block data differs from metadata"
    verifyCid nc impl cid data
    return some data
  | some _, some (.metadata _) => .error "raw block data differs from metadata"
  | some _, some _ => .error "raw block metadata unreadable"
  | _, _ => .error "raw block data or metadata missing"

/-- The metadata that `put` writes. -/
def metaOf (nc : NodeCrypto) (cid : JsString) (data : Bytes) : Meta :=
  ⟨1, cid, data.length, hexdigest (nc.sha256 data)⟩

/-- The bytes, unless they are there, and then the metadata. -/
def publishBoth (nc : NodeCrypto) (cid : JsString) (data : Bytes) (uuid₁ uuid₂ : JsString) : Prog Unit :=
  .upd mkRoot <|
  .upd (mkShard (shardOf nc cid)) <|
  .get fun s =>
    if s.has (dataPath nc cid) then writeSynced (metaPath nc cid) (.metadata (metaOf nc cid data)) uuid₂
    else (writeSynced (dataPath nc cid) (.block data) uuid₁).bind fun _ =>
      writeSynced (metaPath nc cid) (.metadata (metaOf nc cid data)) uuid₂

/-- `put` behind its checks. -/
def store (nc : NodeCrypto) (impl : Impl) (cid : JsString) (data : Bytes) (uuid₁ uuid₂ : JsString) :
    Prog Unit :=
  .get fun s =>
    if s.has (metaPath nc cid) then
      (ofExcept (read nc impl cid maxBlock s)).bind fun held =>
        if held = some data then .ret () else .throw "existing raw block differs"
    else if s.has (dataPath nc cid) ∧ s.files.lookup (dataPath nc cid) ≠ some (.block data) then
      .throw "incomplete raw block differs"
    else publishBoth nc cid data uuid₁ uuid₂

/-- The checks of `put`. -/
def admissible? (nc : NodeCrypto) (impl : Impl) (cid : JsString) (data : Bytes) : Except String Unit := do
  require (data ≠ [] ∧ data.length ≤ maxBlock) "raw block size exceeds bound"
  verifyCid nc impl cid data

/-- `put`, `put!`. -/
def put (nc : NodeCrypto) (impl : Impl) (cid : JsString) (data : Bytes) (uuid₁ uuid₂ : JsString) :
    Prog Unit :=
  (ofExcept (admissible? nc impl cid data)).bind fun _ => store nc impl cid data uuid₁ uuid₂

/-- `*.json`, and in Kotoba no temporary file. -/
def Impl.listed : Impl → JsString → Bool
  | .python, name => (js ".json").isSuffixOf name
  | .kotoba, name => (js ".json").isSuffixOf name && !name.tails.any (js ".tmp").isPrefixOf

/-- The CID of a metadata file. -/
def cidOfMeta (nc : NodeCrypto) (impl : Impl) (p : Path) : Except String JsString := do
  let cid := p.name.take (p.name.length - 5)
  let _ ← digestOf impl cid
  require (p = metaPath nc cid) "raw block metadata path differs"
  return cid

/-- `cids`. -/
def cids (nc : NodeCrypto) (impl : Impl) (s : Store) : Except String (List JsString) :=
  if s.root then
    (s.files.keys.filter fun p => s.shards.contains p.shard && impl.listed p.name).mapM (cidOfMeta nc impl)
  else .ok []

/-! ## Calls -/

/-- A call of `put`, and after how many file operations its process is killed, if it is. -/
structure Call where
  cid : JsString
  data : Bytes
  uuid₁ : JsString
  uuid₂ : JsString
  kill : Option Nat

/-- Nothing is asked. -/
def noAnswer (_ : Nat) (c : Empty) : Empty := c

/-- A call: the store behind it, and its result if it has not been killed. -/
def Call.run (nc : NodeCrypto) (impl : Impl) (c : Call) (s : Store) : Store × Option (Except String Unit) :=
  match c.kill with
  | some n => (put nc impl c.cid c.data c.uuid₁ c.uuid₂).upTo noAnswer n 0 s
  | none =>
    let (s, r) := (put nc impl c.cid c.data c.uuid₁ c.uuid₂).finish noAnswer 0 s
    (s, some r)

/-- The store behind a sequence of calls. -/
def runs (nc : NodeCrypto) (impl : Impl) (calls : List Call) (s : Store) : Store :=
  calls.foldl (fun s c => (c.run nc impl s).1) s

end RawBlockStore
