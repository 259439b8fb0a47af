import Yataverse.Replicate.Quiet

/-!
# A batch of the replication

`run_batch` of `replicate_lake.py`: page by page, the blocks that are not pinned are fetched and
put into Kubo until a budget is used up. The cursor is saved behind every page, and the counters
behind every block.

- `Args`, `Site`: the arguments, and what a call runs against.
- `prefetchOrdered`: a window of downloads whose results come in order.
- `select`, `copyBlock`, `onePage`, `runBatch`: as in the source.
- `prefetchOrdered_eq`, `prefetchOrdered_stops`: the blocks are taken in the order of the listing.
-/

namespace Replicate.Batch

open Js GraphHead Lake EventLoop EventLoop.Task

/-- The arguments. -/
structure Args where
  listing : Replicate.Args
  client : Client
  rawStore : Bool
  maxPages : Nat
  maxNewBytes : Nat
  maxBlockBytes : Nat
  minFreeBytes : Nat
  fetchWorkers : Nat
  maxPrefetchBytes : Nat

/-- What the calls run against: the texts of JSON files, the members of a first checkpoint that
the program does not know, the blocks, and the inventory behind the listing. -/
structure Site (Text Rest : Type) where
  codec : Codec Text Rest
  plain : Rest
  blocks : Blocks
  inventory : Lake.Inventory

inductive Status where
  | byteBudget
  | pageLimit
  | cycleComplete
deriving DecidableEq

/-- What a call returns. -/
structure Result where
  status : Status
  pages : Nat
  checkedBlocks : Nat
  newBlocks : Nat
  newBytes : Nat
  cursorAdvanced : Bool
deriving DecidableEq

/-- The variables of `run_batch`. -/
structure Batch (Rest : Type) where
  state : State Rest
  kubo : Kubo
  newBytes : Nat
  newBlocks : Nat
  checkedBlocks : Nat
  pages : Nat

variable {Text Rest σ : Type}

/-- The result of a call. -/
def Batch.result (batch : Batch Rest) (status : Status) (cursorAdvanced : Bool) : Result :=
  ⟨status, batch.pages, batch.checkedBlocks, batch.newBlocks, batch.newBytes, cursorAdvanced⟩

/-! ## Files -/

/-- The state directory. -/
def filesPart : Part (Disk Text) (Files Text) where
  view := Disk.files
  put f d := { d with files := f }
  view_put _ _ := rfl
  put_view _ := rfl
  put_put _ _ _ := rfl

/-- What the operations on the checkpoint raise. -/
def refusalOf : Error → Refusal
  | .replication message => ⟨.checkpoint, message, []⟩
  | .os => ⟨.os, "", []⟩

/-- A computation on the state directory. -/
def onFiles {α : Type} (t : Call Text α) : Proc Text α := t.onPart filesPart Command.file (fun _ ok => ok) refusalOf

/-- The operations are answered one by one; `part` is how much of a text a failed write leaves. -/
def fateOf (part : Nat) : Fate := ⟨fun _ => true, part⟩

/-- `state_save`. -/
def save (site : Site Text Rest) (part : Nat) (state : State Rest) : Proc Text Unit :=
  onFiles (stateSave (fateOf part) site.codec state)

/-- `prepare_listing_state` of the checkpoint in the state directory. -/
def prepare [DecidableEq Text] (site : Site Text Rest) (part : Nat) (args : Args) : Proc Text (State Rest) :=
  onFiles ((stateLoad site.codec site.plain).bind (prepareListingState (fateOf part) site.codec args.listing))

/-- `append_receipt`. -/
def appendReceipt (blocks : Blocks) (row : Row) (data : Bytes) : Proc Text Unit :=
  let receipt : Receipt := ⟨row.cid, row.size, blocks.sha256 data⟩
  .await (.appendReceipt receipt) fun outcome =>
    match outcome with
    | .done => .upd (fun d => { d with receipts := d.receipts ++ [⟨receipt, true⟩] }) (.ret ())
    | .refused _ => .throw ⟨.os, "", []⟩
    | .lost => .upd (fun d => { d with receipts := d.receipts ++ [⟨receipt, false⟩] }) (.throw ⟨.os, "", []⟩)

/-! ## The listing -/

/-- An empty cursor is not sent. -/
def sent (cursor : Option JsString) : Option JsString := cursor.filter (· ≠ [])

/-- The checks of the blocks of a page. -/
def checkRows : List Row → Proc Text Unit
  | [] => .ret ()
  | row :: rows => do
    check (cidRe row.cid = true) ⟨.source, "lake listing contains an invalid CID", []⟩
    check (0 < row.size) ⟨.source, "lake listing contains an invalid block size", []⟩
    checkRows rows

/-- `fetch_listing`, of the reader of the inventory. -/
def fetchListing (inventory : Lake.Inventory) (cursor : Option JsString) : Proc Text Page := do
  request (.listing (sent cursor)) ⟨.source, "curl failed", []⟩
  match inventory.served (sent cursor) with
  | .error message => .throw ⟨.listing, message, []⟩
  | .ok page => do
    check (page.blocks ≠ [] ∧ page.blocks.length ≤ 200) ⟨.source, "lake listing has no bounded block page", []⟩
    check (page.truncated = true → sent page.cursor ≠ none) ⟨.source, "truncated lake listing has no cursor", []⟩
    checkRows page.blocks
    return page

/-! ## The window of downloads -/

section Prefetch

variable (workers maxPrefetchBytes : Nat) (fetch : Row → Proc Text Bytes) (take : σ → Row → Bytes → Proc Text σ)

/-- The oldest download is waited for, and its block is taken. -/
def yieldOldest (acc : σ) (row : Row) : Proc Text σ := (fetch row).bind fun data => take acc row data

/-- The downloads that are pending, one after the other. -/
def inOrder : List Row → σ → Proc Text σ
  | [], acc => .ret acc
  | row :: rows, acc => (yieldOldest fetch take acc row).bind fun acc => inOrder rows acc

/-- The inner loop of `prefetch_ordered`: there has to be room for one more block. -/
def makeRoom (size : Nat) : List Row → Nat → σ → Proc Text (List Row × Nat × σ)
  | [], bytes, acc => .ret ([], bytes, acc)
  | oldest :: pending, bytes, acc =>
    if workers ≤ (oldest :: pending).length ∨ maxPrefetchBytes < bytes + size then
      (yieldOldest fetch take acc oldest).bind fun acc => makeRoom size pending (bytes - oldest.size) acc
    else .ret (oldest :: pending, bytes, acc)

/-- `prefetch_ordered`, with the loop that takes the blocks. -/
def prefetchOrdered : List Row → List Row → Nat → σ → Proc Text σ
  | [], pending, _, acc => inOrder fetch take pending acc
  | row :: rows, pending, bytes, acc =>
    if maxPrefetchBytes < row.size then .throw ⟨.bound, "block exceeds prefetch memory budget: ", row.cid⟩
    else (makeRoom workers maxPrefetchBytes fetch take row.size pending bytes acc).bind fun room =>
      prefetchOrdered rows (room.1 ++ [row]) (room.2.1 + row.size) room.2.2

end Prefetch

/-! ## A page -/

section Page

variable (site : Site Text Rest) (part : Nat) (args : Args)

/-- A block that another root reaches is learnt of here, by the daemon. -/
def learn (kubo : Kubo) (cid : JsString) : Proc Text Kubo :=
  if kubo.pins cid = false ∧ args.client = .rpc then
    (durablePinType .rpc cid).bind fun kind => .ret (if kind.isSome = true then kubo.pin cid else kubo)
  else .ret kubo

/-- `require_disk_reserve`. -/
def requireDiskReserve (newBytes reserve : Nat) : Proc Text Unit := .await .diskUsage fun usage =>
  match usage with
  | none => .throw ⟨.os, "", []⟩
  | some free => check (reserve + 2 * newBytes ≤ free) ⟨.capacity, "physical disk reserve would be crossed", []⟩

/-- What is to be copied of a page: the variables behind the loop. -/
structure Selection (Rest : Type) where
  batch : Batch Rest
  selected : List Row
  plannedBytes : Nat
  budgetStop : Bool

/-- The first loop over the blocks of a page. -/
def select : List Row → Batch Rest → List Row → Nat → Proc Text (Selection Rest)
  | [], batch, selected, planned => return ⟨batch, selected, planned, false⟩
  | row :: rows, batch, selected, planned => do
    check (row.size ≤ args.maxBlockBytes) ⟨.bound, "block exceeds configured maximum: ", row.cid⟩
    let kubo ← learn args batch.kubo row.cid
    if kubo.pins row.cid = true then do
      let size ← blockSize site.blocks args.client kubo row.cid
      check (size = row.size) ⟨.kubo, "pinned block size differs from listing: ", row.cid⟩
      select rows { batch with kubo := kubo, checkedBlocks := batch.checkedBlocks + 1 } selected planned
    else if args.maxNewBytes < batch.newBytes + planned + row.size then
      return ⟨{ batch with kubo := kubo }, selected, planned, true⟩
    else do
      check (kubo.repoSize + 2 * (batch.newBytes + planned + row.size) < kubo.storageMax)
        ⟨.capacity, "Kubo storage limit would be exceeded before ", row.cid⟩
      requireDiskReserve (planned + row.size) args.minFreeBytes
      select rows { batch with kubo := kubo } (selected ++ [row]) (planned + row.size)

/-- The block source. -/
def fetchBlock (row : Row) : Proc Text Bytes := .await (.fetch row.cid (min row.size args.maxBlockBytes)) fun data =>
  match data with
  | none => .throw ⟨.source, "curl failed", []⟩
  | some data => .ret data

/-- The counters behind a block. -/
def Batch.counted (batch : Batch Rest) (kubo : Kubo) (size : Nat) : Batch Rest where
  state := { batch.state with
    newBlocksTotal := batch.state.newBlocksTotal + 1
    newBytesTotal := batch.state.newBytesTotal + size }
  kubo := kubo
  newBytes := batch.newBytes + size
  newBlocks := batch.newBlocks + 1
  checkedBlocks := batch.checkedBlocks + 1
  pages := batch.pages

/-- The second loop: a block that has been fetched. -/
def copyBlock (batch : Batch Rest) (row : Row) (data : Bytes) : Proc Text (Batch Rest) := do
  check (data.length = row.size) ⟨.source, "source byte count differs from listing: ", row.cid⟩
  let kubo ← putVerified site.blocks args.client args.rawStore batch.kubo row.cid data
  appendReceipt site.blocks row data
  save site part (batch.counted kubo row.size).state
  return batch.counted kubo row.size

/-- Behind a page that is not the last one. -/
def Batch.turned (batch : Batch Rest) (cursor : Option JsString) : Batch Rest :=
  { batch with
    pages := batch.pages + 1
    state := { batch.state with pagesTotal := batch.state.pagesTotal + 1, cursor := cursor } }

/-- Behind the last page. -/
def Batch.cycled (batch : Batch Rest) : Batch Rest :=
  { batch with
    pages := batch.pages + 1
    state := { batch.state with
      pagesTotal := batch.state.pagesTotal + 1, cursor := none, cycles := batch.state.cycles + 1 } }

/-- Behind the blocks of a page: the result, or the variables for the next page. -/
def closePage (listing : Page) (budgetStop : Bool) (batch : Batch Rest) : Proc Text (Result ⊕ Batch Rest) :=
  if budgetStop = true then return .inl (batch.result .byteBudget false)
  else if listing.truncated = true then do
    save site part (batch.turned listing.cursor).state
    return .inr (batch.turned listing.cursor)
  else do
    save site part batch.cycled.state
    return .inl (batch.cycled.result .cycleComplete true)

/-- One turn of the loop over the pages. -/
def onePage (batch : Batch Rest) : Proc Text (Result ⊕ Batch Rest) := do
  let listing ← fetchListing site.inventory batch.state.cursor
  check (args.listing.localListing = true → args.listing.inventorySha256 = some listing.sha256)
    ⟨.source, "local listing inventory identity differs", []⟩
  let selection ← select site args listing.blocks batch [] 0
  let batch ← prefetchOrdered args.fetchWorkers args.maxPrefetchBytes (fetchBlock args) (copyBlock site part args)
    selection.selected [] 0 selection.batch
  closePage site part listing selection.budgetStop batch

/-- The loop over the pages. -/
def pageLoop : Nat → Batch Rest → Proc Text Result
  | 0, batch => return batch.result .pageLimit true
  | n + 1, batch => (onePage site part args batch).bind fun turn =>
    match turn with
    | .inl result => .ret result
    | .inr batch => pageLoop n batch

/-- The call behind the checks of the checkpoint. -/
def batchFrom (state : State Rest) : Proc Text Result := do
  let kubo ← preflight args.client args.rawStore
  pageLoop site part args args.maxPages ⟨state, kubo, 0, 0, 0, 0⟩

/-- `run_batch`. -/
def runBatch [DecidableEq Text] : Proc Text Result := do
  let state ← prepare site part args
  batchFrom site part args state

end Page

/-! ## The order of the blocks -/

section Order

variable {workers maxPrefetchBytes : Nat} {fetch : Row → Proc Text Bytes} {take : σ → Row → Bytes → Proc Text σ}

theorem inOrder_append (xs ys : List Row) (acc : σ) : inOrder fetch take (xs ++ ys) acc =
    (inOrder fetch take xs acc).bind fun acc => inOrder fetch take ys acc := by
  induction xs generalizing acc with
  | nil => rfl
  | cons x xs ih =>
    rw [List.cons_append, inOrder, inOrder, Task.bind_assoc]
    congr 1
    funext acc'
    exact ih acc'

/-- To make room, the first ones of the pending downloads are taken. -/
theorem makeRoom_eq (size : Nat) (pending : List Row) (bytes : Nat) :
    ∃ first rest bytes', first ++ rest = pending ∧
      ∀ acc, makeRoom workers maxPrefetchBytes fetch take size pending bytes acc =
        (inOrder fetch take first acc).bind fun acc' => .ret (rest, bytes', acc') := by
  induction pending generalizing bytes with
  | nil => exact ⟨[], [], bytes, rfl, fun acc => rfl⟩
  | cons oldest pending ih =>
    by_cases h : workers ≤ (oldest :: pending).length ∨ maxPrefetchBytes < bytes + size
    · obtain ⟨first, rest, bytes', hsplit, heq⟩ := ih (bytes - oldest.size)
      refine ⟨oldest :: first, rest, bytes', congrArg (oldest :: ·) hsplit, fun acc => ?_⟩
      rw [makeRoom, if_pos h, inOrder, Task.bind_assoc]
      congr 1
      funext acc'
      exact heq acc'
    · refine ⟨[], oldest :: pending, bytes, rfl, fun acc => ?_⟩
      rw [makeRoom, if_neg h]
      rfl

/-- **A window of downloads** whose blocks are all small enough: the blocks are taken in the
order of the listing. -/
theorem prefetchOrdered_eq {rows : List Row} (hfit : ∀ row ∈ rows, row.size ≤ maxPrefetchBytes) (pending : List Row)
    (bytes : Nat) (acc : σ) : prefetchOrdered workers maxPrefetchBytes fetch take rows pending bytes acc =
      inOrder fetch take (pending ++ rows) acc := by
  induction rows generalizing pending bytes acc with
  | nil => rw [prefetchOrdered, List.append_nil]
  | cons row rows ih =>
    have hrow := hfit row (List.mem_cons_self ..)
    obtain ⟨first, rest, bytes', rfl, heq⟩ := @makeRoom_eq Text σ workers maxPrefetchBytes fetch take row.size pending bytes
    rw [prefetchOrdered, if_neg (Nat.not_lt_of_le hrow), heq, Task.bind_assoc, List.append_assoc, inOrder_append]
    congr 1
    funext acc'
    rw [bind_ret, ih fun r hr => hfit r (List.mem_cons_of_mem _ hr)]
    rw [List.append_assoc, List.singleton_append]

/-- Before a block that is too large, some of the blocks in front of it are taken. -/
theorem prefetchOrdered_stops {rows : List Row} (hlarge : ∃ row ∈ rows, maxPrefetchBytes < row.size)
    (pending : List Row) (bytes : Nat) : ∃ first rest e, first ++ rest = pending ++ rows ∧
      ∀ acc, prefetchOrdered workers maxPrefetchBytes fetch take rows pending bytes acc =
        (inOrder fetch take first acc).bind fun _ => .throw e := by
  induction rows generalizing pending bytes with
  | nil =>
    obtain ⟨row, hrow, -⟩ := hlarge
    cases hrow
  | cons row rows ih =>
    by_cases hrow : maxPrefetchBytes < row.size
    · refine ⟨[], pending ++ row :: rows, ⟨.bound, "block exceeds prefetch memory budget: ", row.cid⟩, rfl, fun acc => ?_⟩
      rw [prefetchOrdered, if_pos hrow]
      rfl
    · obtain ⟨room, kept, bytes', rfl, heq⟩ := @makeRoom_eq Text σ workers maxPrefetchBytes fetch take row.size pending bytes
      have hlarge' : ∃ row ∈ rows, maxPrefetchBytes < row.size := by
        obtain ⟨r, hr, hsize⟩ := hlarge
        rcases List.mem_cons.mp hr with rfl | hr
        · exact absurd hsize hrow
        · exact ⟨r, hr, hsize⟩
      obtain ⟨first, rest, e, hsplit, hstop⟩ := ih hlarge' (kept ++ [row]) (bytes' + row.size)
      refine ⟨room ++ first, rest, e, ?_, fun acc => ?_⟩
      · rw [List.append_assoc, hsplit, List.append_assoc, List.append_assoc, List.singleton_append]
      · rw [prefetchOrdered, if_neg hrow, heq, inOrder_append, Task.bind_assoc, Task.bind_assoc]
        congr 1
        funext acc'
        exact hstop acc'

end Order

end Replicate.Batch
