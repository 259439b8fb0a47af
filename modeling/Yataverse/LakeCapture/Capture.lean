import Yataverse.EventLoop.Kill
import Yataverse.LakeCapture.Listing
import Yataverse.LakeDiff.Superset

/-!
# The capture

`capture!` appends the pages of the listing to `<output>.partial`, one after the other, with a checkpoint behind each.
A run goes on from the checkpoint that it finds.

- `Checkpoint`, `Disk`: the files.
- `takePage`: the rows of one page, and the next checkpoint.
- `walk`: the pages from a checkpoint on.
- `resume`: the checks before.
- `capture`: a run, file operation by file operation.
- `Call`, `history`: runs that were stopped or killed.
-/

namespace LakeCapture

open Js GraphHead Lake LakeDiff EventLoop Fallible

/-! ## Files -/

/-- What a run is asked for. The time of the cutoff is with its text. -/
structure Args where
  apiUrl : JsString
  output : JsString
  cutoff : Option (JsString × Int)
  oldFile : Bytes
  oldSha256 : JsString

inductive Status where
  | inProgress
  | complete
deriving DecidableEq

/-- The checkpoint: what the state file holds. -/
structure Checkpoint where
  apiUrl : JsString
  output : JsString
  cutoffUtc : Option JsString
  oldSha256 : JsString
  status : Status
  cursor : Option JsString
  pages : Nat
  size : Nat
  rows : Nat
  bytes : Number
  lastCid : JsString
  lastSeenCid : Option JsString
  sha256 : JsString
  oldRows : Option Nat
deriving DecidableEq

/-- The three files of a capture. The text of the state file stands for its value. -/
structure Disk where
  part : Option Bytes
  state : Option Checkpoint
  output : Option Bytes
deriving DecidableEq

/-- No file. -/
def Disk.empty : Disk := ⟨none, none, none⟩

/-- `atomic-json!`: a file beside it is renamed over it. -/
def saveState (s : Checkpoint) (d : Disk) : Disk := { d with state := some s }

/-- `(.writeFileSync fs partial "" #js {:flag "wx"})` -/
def createPart (d : Disk) : Disk := { d with part := some [] }

/-- `truncateSync` -/
def truncatePart (size : Nat) (d : Disk) : Disk := { d with part := d.part.map (·.take size) }

/-- `appendFileSync` -/
def appendPart (payload : Bytes) (d : Disk) : Disk := { d with part := some (d.part.getD [] ++ payload) }

/-- `(.renameSync fs partial output)` -/
def renamePart (d : Disk) : Disk := { d with part := none, output := d.part }

/-- A program over the files. -/
abbrev Prog (α : Type) := Task Disk Empty (fun _ => Empty) JsString α

/-- What needs no file operation. -/
def ofExcept {α : Type} : Except JsString α → Prog α
  | .ok a => .ret a
  | .error e => .throw e

/-- How a run ends. -/
inductive Result where
  | complete (rows : Nat) (bytes : Number) (sha256 : JsString) (oldRows : Option Nat) (pages : Nat)
  | inProgress (rows pages : Nat) (cursor : Option JsString)
deriving DecidableEq

/-- `complete-result` -/
def completeResult (s : Checkpoint) (oldRows : Option Nat) : Result := .complete s.rows s.bytes s.sha256 oldRows s.pages

/-! ## One page -/

/-- The accumulator of a page. -/
structure Taken where
  rows : List Row
  bytes : Number
  lastIncluded : JsString
  previous : JsString

/-- `(+ x y)` of sums of sizes. One that is infinite stays so. -/
def plus (x : Number) : Number → Number
  | .int n => x.add n
  | y => y

/-- Is a block behind the cutoff? -/
def isLate (cutoff : Option Int) (b : Block) : Except JsString Bool :=
  match cutoff with
  | none => .ok false
  | some cutoff => (fun t => decide (cutoff < t)) <$> uploadedUtc b.uploaded

/-- One block of a page. -/
def takeBlock (cutoff : Option Int) (acc : Taken) (b : Block) : Except JsString Taken := do
  require (acc.previous < b.cid) (js "listing order repeated or moved backward")
  let late ← isLate cutoff b
  return if late then { acc with previous := b.cid }
    else ⟨acc.rows ++ [⟨b.cid, b.size⟩], acc.bytes.add b.size, b.cid, b.cid⟩

section

variable (nc : NodeCrypto) (args : Args)

/-- `empty-sha` -/
def emptySha : JsString := hexdigest (nc.sha256 [])

/-- The checkpoint before the first page. -/
def firstCheckpoint : Checkpoint where
  apiUrl := args.apiUrl
  output := args.output
  cutoffUtc := args.cutoff.map Prod.fst
  oldSha256 := args.oldSha256
  status := .inProgress
  cursor := none
  pages := 0
  size := 0
  rows := 0
  bytes := .int 0
  lastCid := []
  lastSeenCid := some []
  sha256 := emptySha nc
  oldRows := none

/-- `same-identity?`, and the digest of the old inventory. -/
def SameIdentity (s : Checkpoint) : Prop :=
  s.apiUrl = args.apiUrl ∧ s.output = args.output ∧ s.cutoffUtc = args.cutoff.map Prod.fst ∧ s.oldSha256 = args.oldSha256

instance (s : Checkpoint) : Decidable (SameIdentity args s) := by
  unfold SameIdentity
  infer_instance

/-- The last CID that was seen, also of a block behind the cutoff. -/
def Checkpoint.seen (s : Checkpoint) : JsString := s.lastSeenCid.getD s.lastCid

/-- What a page adds to the file, and the checkpoint behind it. `running` is what has been hashed. -/
def takePage (running : Bytes) (s : Checkpoint) (l : Page) : Except JsString (Bytes × Checkpoint) := do
  require (¬ (l.truncated = true ∧ l.cursor = s.cursor)) (js "listing cursor did not advance")
  let acc ← l.blocks.foldlM (takeBlock (args.cutoff.map Prod.snd)) ⟨[], .int 0, s.lastCid, s.seen⟩
  let payload := utf8 (acc.rows.flatMap rowLine)
  return (payload, { s with
    cursor := l.cursor
    pages := s.pages + 1
    size := s.size + payload.length
    rows := s.rows + acc.rows.length
    bytes := plus s.bytes acc.bytes
    lastCid := acc.lastIncluded
    lastSeenCid := some acc.previous
    sha256 := hexdigest (nc.sha256 (running ++ payload))
  })

/-! ## A run -/

variable (serve : Option JsString → Except JsString Bytes) (maxPages : Option Nat)

/-- `fetch-page`: what the listing answers to a cursor. -/
def fetchPage (cursor : Option JsString) : Except JsString Page := serve cursor >>= fetchListing

/-- Fetch a page and take it. -/
def nextPage (running : Bytes) (s : Checkpoint) : Except JsString (Bool × Bytes × Checkpoint) := do
  let l ← fetchPage serve s.cursor
  let (payload, s') ← takePage nc args running s l
  return (l.truncated, payload, s')

/-- Behind the last page. -/
def completeWalk (s : Checkpoint) : Prog Result :=
  .get fun d => (ofExcept (requireSuperset nc args.oldFile (d.part.getD []) args.oldSha256)).bind fun oldRows =>
    .upd renamePart <|
    .upd (saveState { s with status := .complete, oldRows := some oldRows }) <|
    .ret (completeResult s (some oldRows))

/-- The loop over the pages, at most `fuel` of them. -/
def walk : Nat → Checkpoint → Bytes → Nat → Prog Result
  | 0, _, _, _ => .throw (js "out of fuel")
  | fuel + 1, s, running, pages =>
    if maxPages.any (· ≤ pages) then .ret (.inProgress s.rows s.pages s.cursor)
    else (ofExcept (nextPage nc args serve running s)).bind fun next =>
      .upd (appendPart next.2.1) <|
      .upd (saveState next.2.2) <|
      if next.1 then walk fuel next.2.2 (running ++ next.2.1) (pages + 1) else completeWalk nc args next.2.2

/-- What `scan-partial!` returns. -/
structure Scanned where
  sha256 : JsString
  rows : Nat
  bytes : Number
  lastCid : JsString

/-- The part of `scan-partial!` that reads. -/
def scan (file : Bytes) : Except JsString Scanned := do
  let rows ← inventoryRows file
  return ⟨hexdigest (nc.sha256 file), rows.length, addSizes rows (.int 0), (rows.getLast?.map Row.cid).getD []⟩

/-- `scan-partial!` -/
def scanPart (size : Nat) : Prog Scanned :=
  .get fun d =>
    match d.part with
    | none => .throw (js "no such file or directory")
    | some file =>
      if file.length < size then .throw (js "partial inventory is shorter than checkpoint")
      else .upd (truncatePart size) <| .get fun d => ofExcept (scan nc (d.part.getD []))

/-- From a checkpoint on. -/
def resume (fuel : Nat) (s : Checkpoint) : Prog Result :=
  (scanPart nc s.size).bind fun scanned =>
    (ofExcept (do
      require (scanned.sha256 = s.sha256 ∧ scanned.rows = s.rows ∧ scanned.bytes = s.bytes ∧ scanned.lastCid = s.lastCid)
        (js "partial inventory differs from checkpoint")
      require (¬ s.seen < s.lastCid) (js "checkpoint seen CID precedes stored CID"))).bind fun _ =>
    .get fun d => walk nc args serve maxPages fuel s (d.part.getD []) 0

/-- Without an output. -/
def runOn (fuel : Nat) (d : Disk) : Prog Result :=
  match d.state with
  | some s =>
    if ¬ (SameIdentity args s ∧ s.status = .inProgress) then .throw (js "checkpoint identity differs")
    else if d.part = none then .throw (js "checkpoint has no partial inventory")
    else resume nc args serve maxPages fuel s
  | none =>
    if d.part ≠ none then .throw (js "uncheckpointed partial inventory exists")
    else
      .upd createPart <|
      .upd (saveState (firstCheckpoint nc args)) <|
      resume nc args serve maxPages fuel (firstCheckpoint nc args)

/-- With an output. -/
def report (out : Bytes) (d : Disk) : Prog Result :=
  match d.state, d.part with
  | some s, none =>
    if ¬ (SameIdentity args s ∧ out.length = s.size ∧ hexdigest (nc.sha256 out) = s.sha256) then
      .throw (js "completed output differs from checkpoint")
    else
      match s.status with
      | .complete => .ret (completeResult s s.oldRows)
      | .inProgress =>
        (ofExcept (requireSuperset nc args.oldFile out args.oldSha256)).bind fun oldRows =>
          .upd (saveState { s with status := .complete, oldRows := some oldRows }) <|
          .ret (completeResult s (some oldRows))
  | _, _ => .throw (js "completed output already exists")

/-- `capture!` -/
def capture (fuel : Nat) : Prog Result :=
  (ofExcept (require (hexdigest (nc.sha256 args.oldFile) = args.oldSha256) (js "old inventory digest differs"))).bind
    fun _ => .get fun d =>
      match d.output with
      | some out => report nc args out d
      | none => runOn nc args serve maxPages fuel d

/-! ## Runs -/

/-- A run, and after how many file operations it is killed, if it is. -/
structure Call where
  maxPages : Option Nat
  kill : Option Nat

/-- Nothing is asked. -/
def noAnswer (_ : Nat) (c : Empty) : Empty := c

/-- A run to its end. -/
def finish (fuel : Nat) (d : Disk) : Disk × Except JsString Result :=
  (capture nc args serve maxPages fuel).finish noAnswer 0 d

/-- What a run leaves. -/
def Call.run (fuel : Nat) (d : Disk) (c : Call) : Disk :=
  match c.kill with
  | some n => ((capture nc args serve c.maxPages fuel).upTo noAnswer n 0 d).1
  | none => (finish nc args serve c.maxPages fuel d).1

/-- What runs leave, from no files on. -/
def history (fuel : Nat) (calls : List Call) : Disk := calls.foldl (Call.run nc args serve fuel) .empty

end

end LakeCapture
