import Yataverse.ImportCar.Import
import Yataverse.Js.Property
import Yataverse.Lake.Serving
import Yataverse.RawBlockStore.Store
import Yataverse.Serve.Receipts
import Mathlib.Algebra.GroupWithZero.Nat

/-!
# The lake over HTTP

`serve_lake.py` answers each request on a thread of its own, `serve_lake.cljk` on an event loop. Both serve the pages of
the listing and the blocks that it names.

- `Receipts`: what a reader remembers of its receipts.
- `Config`: what a reader is started with.
- `look`, `cover`, `replied`: `LocalBlocks.read`, `make-blocks`.
- `listing`, `route`: what a request is about.
- `step`: requests arrive, go on, are answered by Kubo and end, in any order.
-/

namespace LakeReader

open Js Json GraphHead Fallible Lake Serve Function

/-! ## What is served -/

/-- `inventory.sizes` -/
def sizesOf : Source → JsMap JsString Nat
  | .single index => index.sizes
  | .epochs lake => lake.sizes

/-- The inventories, in their order. -/
def partsOf : Source → List Index
  | .single index => [index]
  | .epochs lake => lake.parts

/-- The inventory that lists a CID, with its number. One that stands alone is not asked. -/
def partOf (cid : JsString) : Source → Option (Nat × Index)
  | .single index => some (0, index)
  | .epochs lake => (lake.owner.get cid).bind fun k => (lake.parts[k]?).map fun index => (k, index)

/-- `inventory.total_bytes` -/
def totalBytes (source : Source) : Nat := ((partsOf source).map fun index => (index.sizes.entries.map Prod.snd).sum).sum

/-- An opened inventory as receipts are compared with it. -/
def inventoryOf (index : Index) : Inventory where
  sha256 := index.sha256
  entries := index.sizes.entries.map fun e => ⟨e.1, e.2⟩
  nodup := by
    rw [List.map_map]
    exact index.sizes.nodup

/-! ## Receipts -/

/-- What a reader remembers of the receipts for one inventory. -/
inductive Receipts
  | python (r : CarReceipts)
  | kotoba (cache : Cache)

/-- When the directories that it remembers were changed. -/
def Receipts.mtimes : Receipts → Option (List Nat)
  | .python r => r.mtimeNs
  | .kotoba cache => cache.mtimes

/-- There is a native receipt. -/
def hasNative (d : Directories) : Bool :=
  (d.natives.flatMap filesOf).any fun f =>
    match f.name with
    | .native .. => true
    | _ => false

section

variable (disk : Disk) (index : Index) (repository : JsString) (d : Directories)

/-- A native receipt that is read is compared with rows of the inventory, which are read again. -/
def reread (mtimes : Option (List Nat)) : Except String Unit := do
  let now ← d.mtimes
  require (hasNative d = false ∨ mtimes = some now ∨ (disk index.path).identity = index.identity)
    "inventory file changed since startup"

/-- `CarReceipts(...)`, `make-receipts`. Kotoba reads no receipt before it is asked. -/
def Receipts.start (language : Language) : Except String Receipts :=
  match language with
  | .python => do
    reread disk index d none
    return .python (← refresh (inventoryOf index) repository d ⟨none, [], []⟩)
  | .kotoba => .ok (.kotoba ⟨none, []⟩)

/-- `covers`, `covers?` -/
def Receipts.covers (cid : JsString) (r : Receipts) : Except String (Receipts × Bool) := do
  reread disk index d r.mtimes
  match r with
  | .python r =>
    let (r, answer) ← Serve.covers (inventoryOf index) repository d r cid
    return (.python r, answer)
  | .kotoba cache =>
    let (cache, answer) ← kotobaCovers (inventoryOf index) repository d cache cid
    return (.kotoba cache, answer)

end

/-! ## Requests -/

/-- What `urlsplit` and `URL` make of a request target, with the parameters of the query. -/
structure Url where
  path : JsString
  query : JsString
  params : List (JsString × JsString)

/-- What a reader is started with. `split` is `urlsplit` or `URL`, and `none` where it raises. -/
structure Config where
  nc : NodeCrypto
  language : Language
  disk : Disk
  lake : Lake.Config
  source : Source
  opened : openSource nc language disk lake = .ok source
  repository : JsString
  /-- The inventories that have receipts. -/
  receipts : Nat → Bool
  /-- `--raw-block-store` is given. -/
  raw : Bool
  maxBytes : Nat
  bytesValid : 1 ≤ maxBytes ∧ maxBytes ≤ 256000000
  maxConcurrent : Nat
  slotsValid : 1 ≤ maxConcurrent ∧ maxConcurrent ≤ 64
  split : JsString → Option Url

/-- What a reader finds on its disk: the inventories, the raw block store, and the receipts for each inventory. -/
structure World where
  disk : Disk
  raw : RawBlockStore.Store
  directories : Nat → Directories

inductive Response
  /-- 200, `application/json` -/
  | json (text : JsString)
  /-- 200, `application/octet-stream` -/
  | block (data : Bytes)
  | error (status : Nat) (message : JsString)
  /-- The connection ends without an answer. -/
  | closed
deriving DecidableEq

/-- What Kubo is asked. -/
inductive Command
  /-- `pin ls --type=direct` -/
  | direct
  /-- `pin ls --type=all` -/
  | all
  /-- `--offline block get` -/
  | get
deriving DecidableEq

/-- What becomes of a command. -/
inductive Answer
  | exited (code : Int) (out : Bytes)
  | timeout
  /-- It could not be started, or in Kotoba, it wrote more than it may. -/
  | failed

/-- A block that is to be read, by the inventory that lists it. -/
structure Wanted where
  cid : JsString
  part : Nat
  index : Index
  size : Nat

/-- How far a request is. `large` is whether it holds the slot for large blocks. -/
inductive Stage
  | unborn
  /-- It holds a slot. -/
  | entered (url : Url)
  | looking (cid : JsString) (large : Bool)
  | covering (x : Wanted) (large : Bool)
  | running (command : Command) (x : Wanted) (large : Bool)
  /-- It has its answer; `finally` is to come. -/
  | settled (response : Response) (large : Bool)
  /-- Python has released the slot for large blocks, and not yet the other one. -/
  | closing (response : Response)
  | done (response : Response)
  /-- `urlsplit` has raised between `acquire` and `try`. -/
  | lost
  /-- `URL` has thrown, and nothing catches it. -/
  | crashed

/-- What may happen. -/
inductive Label (ι : Type)
  | arrive (i : ι) (method target : JsString)
  | go (i : ι) (w : World)
  | reply (i : ι) (answer : Answer)
  | finish (i : ι)

/-- A reader: whether it runs, the slots that are taken, what it remembers of receipts, and how far each request is. -/
structure State (ι : Type) where
  up : Bool
  slots : Nat
  large : Bool
  receipts : List (Option Receipts)
  stage : ι → Stage

def State.initial {ι : Type} (receipts : List (Option Receipts)) : State ι := ⟨true, 0, false, receipts, fun _ => .unborn⟩

variable {ι : Type} [DecidableEq ι] (c : Config)

/-- One request goes on. -/
def State.goto (s : State ι) (i : ι) (stage : Stage) : State ι := { s with stage := update s.stage i stage }

def error {ι : Type} [DecidableEq ι] (s : State ι) (i : ι) (status : Nat) (message : JsString) : State ι :=
  s.goto i (.settled (.error status message) false)

/-- The receipts are read when Python starts. -/
def startReceipts (w : World) : Except String (List (Option Receipts)) :=
  (partsOf c.source).zipIdx.mapM fun e =>
    if c.receipts e.2 then some <$> Receipts.start w.disk e.1 c.repository (w.directories e.2) c.language else .ok none

/-! ## Blocks -/

/-- Whose raw block store it is. -/
def implOf : Language → RawBlockStore.Impl
  | .python => .python
  | .kotoba => .kotoba

/-- `LARGE_BLOCK_THRESHOLD`, `large-block-threshold` -/
def largeBlockThreshold : Nat := 8000000

/-- The inventory and the raw block store. -/
def look (w : World) (cid : JsString) (large : Bool) : Stage :=
  match partOf cid c.source with
  | none => .settled (.error 404 (js "CID absent from inventory")) large
  | some (part, index) =>
    match index.sizes.get cid with
    | none => .settled (.error 404 (js "CID absent from inventory")) large
    | some size =>
      if c.maxBytes < size then .settled (.error 404 (js "block exceeds API byte limit")) large
      else if c.raw then
        match RawBlockStore.read c.nc (implOf c.language) cid c.maxBytes w.raw with
        | .error _ => .settled (.error 404 (js "raw block store refused " ++ cid)) large
        | .ok (some data) =>
          if data.length = size then .settled (.block data) large
          else .settled (.error 404 (js "raw block size differs from inventory")) large
        | .ok none => .covering ⟨cid, part, index, size⟩ large
      else .covering ⟨cid, part, index, size⟩ large

/-- The receipts, where there are any. -/
def cover (s : State ι) (i : ι) (w : World) (x : Wanted) (large : Bool) : State ι :=
  match (s.receipts[x.part]?).join with
  | none => s.goto i (.running .direct x large)
  | some r =>
    match r.covers w.disk x.index c.repository (w.directories x.part) x.cid with
    | .error message => s.goto i (.settled (.error 404 (js message)) large)
    | .ok (r, answer) =>
      { s with receipts := s.receipts.set x.part (some r) }.goto i (.running (if answer then .get else .direct) x large)

/-- What Kubo has written, without the space around it. -/
def lineWritten : Language → Bytes → JsString
  | .python, out => ImportCar.strip (ofUtf8 out)
  | .kotoba, out => trim (ofUtf8 out)

/-- A line of `pin ls --type=all` for a pin that holds the block. -/
def pinnedLine (cid line : JsString) : Bool :=
  line == cid ++ js " recursive" ||
    (cid ++ js " indirect through ").isPrefixOf line && Lake.cidRe (line.drop (cid ++ js " indirect through ").length)

/-- What becomes of a request when Kubo has answered. -/
def replied (command : Command) (x : Wanted) (large : Bool) : Answer → Stage
  | .timeout => .settled (.error 503 (js "local IPFS temporarily busy")) large
  | .failed =>
    match c.language with
    -- an exception that is not caught
    | .python => .settled .closed large
    | .kotoba => .settled (.error 503 (js "local IPFS temporarily busy")) large
  | .exited code out =>
    match command with
    | .direct =>
      if code = 0 ∧ lineWritten c.language out = x.cid ++ js " direct" then .running .get x large else .running .all x large
    | .all =>
      if code = 0 ∧ pinnedLine x.cid (lineWritten c.language out) = true then .running .get x large
      else .settled (.error 404 (js "block is not durably pinned or receipted")) large
    | .get =>
      if code = 0 ∧ out.length = x.size then
        match RawBlockStore.verifyCid c.nc (implOf c.language) x.cid out with
        | .error _ => .settled (.error 404 (js "local block CID differs from bytes")) large
        | .ok _ => .settled (.block out) large
      else .settled (.error 404 (js "local block unavailable or size differs")) large

/-! ## Pages -/

/-- `/health` -/
def healthText : JsString :=
  js "\x7b\"ok\": true, \"inventory-sha256\": \"" ++ c.source.sha256 ++ js "\", \"rows\": " ++ natStr c.source.total ++
    js ", \"bytes\": " ++ natStr (totalBytes c.source) ++ js "\x7d"

/-- A page, with its keys in the order of the text. -/
def pageValue (listing : Listing) : Json :=
  .obj [(js "ok", .bool true), (js "inventory-sha256", .str listing.sha256),
    (js "blocks", .arr (listing.blocks.map fun block => .obj [(js "cid", block.cid), (js "size", block.size)])),
    (js "cursor", listing.cursor.elim .null .str), (js "truncated?", .bool listing.truncated)]

/-- `json.dumps(page, separators=(",", ":"))`, `page-json` -/
def pageText : Language → Listing → JsString
  | .python, listing => print jsonStr (pageValue listing)
  | .kotoba, listing => (pageValue listing).stringifyValue

/-- What is answered where the listing raises. Python catches its own errors alone; the others are given by their class. -/
def raised : Language → JsString → Response
  | .python, message =>
    if message ∈ [js "JSONDecodeError", js "KeyError", js "IndexError"] then .closed else .error 404 message
  | .kotoba, message => .error 404 message

/-- The cursors of a query. -/
def cursors (url : Url) : List JsString := (url.params.filter fun e => e.1 = js "cursor").map Prod.snd

/-- `/api/v1/lake/blocks` -/
def listing (disk : Disk) (url : Url) : Response :=
  if (url.params.any fun e => e.1 ≠ js "cursor") = true ∨ 1 < (cursors url).length then .error 404 (js "invalid query")
  else
    match c.source.served c.language disk ((cursors url).head?.getD (js "0")) with
    | .error message => raised c.language message
    | .ok listing => .json (pageText c.language listing)

/-! ## Steps -/

def notFound : Language → JsString
  | .python => js "Not Found"
  | .kotoba => js "not found"

/-- What a request is about. -/
def route (s : State ι) (i : ι) (w : World) (url : Url) : State ι :=
  if url.path = js "/health" then s.goto i (.settled (.json (healthText c)) false)
  else if url.path = js "/api/v1/lake/blocks" then s.goto i (.settled (listing c w.disk url) false)
  else if (js "/ipfs/").isPrefixOf url.path = true ∧ url.query = [] then
    if readerRe (url.path.drop 6) = false then error s i 404 (js "invalid CID")
    else if largeBlockThreshold < ((sizesOf c.source).get (url.path.drop 6)).getD 0 then
      if s.large then error s i 503 (js "large block reader busy")
      else { s with large := true }.goto i (.looking (url.path.drop 6) true)
    else s.goto i (.looking (url.path.drop 6) false)
  else error s i 404 (notFound c.language)

/-- What a request does by itself. -/
def turn (s : State ι) (i : ι) (w : World) : Option (State ι) :=
  match s.stage i with
  | .entered url => some (route c s i w url)
  | .looking cid large => some (s.goto i (look c w cid large))
  | .covering x large => some (cover c s i w x large)
  | _ => none

/-- The next turn as well, if there is one. -/
def onward (i : ι) (w : World) (s : State ι) : State ι := (turn c s i w).getD s

/-- In Kotoba nothing comes between the turns of a request that waits for nothing. -/
def go (s : State ι) (i : ι) (w : World) : Option (State ι) :=
  match c.language with
  | .python => turn c s i w
  | .kotoba => (turn c s i w).map fun s => onward c i w (onward c i w s)

/-- `finally` -/
def finish (s : State ι) (i : ι) : Option (State ι) :=
  match s.stage i, c.language with
  -- another thread may come between the two releases
  | .settled response true, .python => some ({ s with large := false }.goto i (.closing response))
  | .settled response false, .python => some ({ s with slots := s.slots - 1 }.goto i (.done response))
  | .settled response large, .kotoba =>
    some ({ s with slots := s.slots - 1, large := if large then false else s.large }.goto i (.done response))
  | .closing response, _ => some ({ s with slots := s.slots - 1 }.goto i (.done response))
  | _, _ => none

def busy : Response := .error 503 (js "reader busy")

/-- What is answered to other methods. -/
def wrongMethod : Language → JsString → Response
  | .python, method => .error 501 (js "Unsupported method ('" ++ method ++ js "')")
  | .kotoba, _ => .error 405 (js "method not allowed")

/-- Python takes the slot before it looks at the URL, and Kotoba behind that. -/
def enter (s : State ι) (i : ι) (target : JsString) : State ι :=
  match c.split target, c.language with
  | some url, _ => { s with slots := s.slots + 1 }.goto i (.entered url)
  -- `acquire` comes first, and `try` only behind `urlsplit`
  | none, .python => { s with slots := s.slots + 1 }.goto i .lost
  | none, .kotoba => { s with up := false }.goto i .crashed

/-- A request comes. -/
def arrive (s : State ι) (i : ι) (method target : JsString) : State ι :=
  if method ≠ js "GET" then s.goto i (.done (wrongMethod c.language method))
  else if c.maxConcurrent ≤ s.slots then s.goto i (.done busy)
  else enter c s i target

/-- One step. -/
def step (s : State ι) (l : Label ι) : Option (State ι) :=
  if s.up then
    match l with
    | .arrive i method target =>
      match s.stage i with
      | .unborn => some (arrive c s i method target)
      | _ => none
    | .go i w => go c s i w
    | .reply i answer =>
      match s.stage i with
      | .running command x large => some (s.goto i (replied c command x large answer))
      | _ => none
    | .finish i => finish c s i
  else none

/-- What can become of a reader that was started in a world. -/
inductive Reached (w : World) : List (Label ι) → State ι → Prop
  | start {receipts : List (Option Receipts)} (h : startReceipts c w = .ok receipts) : Reached w [] (State.initial receipts)
  | step {ls : List (Label ι)} {s s' : State ι} {l : Label ι} (h : Reached w ls s) (hstep : step c s l = some s') :
    Reached w (ls ++ [l]) s'

end LakeReader
