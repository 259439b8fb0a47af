import Yataverse.LakeCapture.Resume

/-!
# What a capture writes, and who opens it

The capture lets CIDs of 21 to 201 characters through. The readers take 46 to 100.

- `LakeDiff.delta`: the diff of two captures.
- `sound_of_complete`: what a run that reports a complete capture has written, whatever runs were before it.
- **`readersOpen_iff`**: the readers open the inventory and the delta exactly when all captured CIDs are in their reach
  and all sizes are printed as digits.
-/

open Js GraphHead Lake Fallible Sorting

namespace LakeDiff

open LakeCapture (Checkpoint plus)

/-- A capture as the diff is told of it. -/
structure Candidate where
  path : JsString
  file : Bytes
  state : Checkpoint

/-- The receipt of a delta. -/
structure Record where
  oldSha256 : JsString
  cutoffUtc : Option JsString
  candidateSha256 : JsString
  candidateRows : Nat
  candidateBytes : Number
  oldRows : Nat
  oldBytes : Number
  deltaRows : Nat
  deltaBytes : Number
  deltaSha256 : JsString
  deltaMaxBlockBytes : Nat
  deltaOversizedRows : Nat

/-- `(js/Number.isInteger x)` and `(>= x 1)` -/
def atLeastOne : Number → Bool
  | .int n => 1 ≤ n
  | _ => false

variable (nc : NodeCrypto)

/-- `completed-candidate` -/
def completedCandidate (c : Candidate) (oldSha : JsString) : Except JsString Checkpoint := do
  require (c.state.status = .complete ∧ c.path = c.state.output ∧ oldSha = c.state.oldSha256 ∧
    c.file.length = c.state.size ∧ hexdigest (nc.sha256 c.file) = c.state.sha256 ∧ 1 ≤ c.state.rows ∧
    atLeastOne c.state.bytes) (js "candidate or completion receipt differs")
  return c.state

/-- `delta!`, on the contents of its files: what it writes to the output, and the receipt. -/
def delta (oldFile : Bytes) (oldSha256 : JsString) (a b : Candidate) : Except JsString (Bytes × Record) := do
  let oldSha := hexdigest (nc.sha256 oldFile)
  require (oldSha = oldSha256) (js "old inventory digest differs")
  let sa ← completedCandidate nc a oldSha
  let sb ← completedCandidate nc b oldSha
  require (sa.sha256 = sb.sha256) (js "two complete walks differ: sha256")
  require (sa.rows = sb.rows) (js "two complete walks differ: rows")
  require (sa.bytes = sb.bytes) (js "two complete walks differ: bytes")
  require (sa.size = sb.size) (js "two complete walks differ: size")
  require (sa.cutoffUtc = sb.cutoffUtc) (js "two complete walks use different cutoffs")
  let old ← inventoryRows oldFile
  let new ← inventoryRows a.file
  let r ← mergeDelta old new
  require (r.newCount = sa.rows ∧ r.newBytes = sa.bytes ∧ r.newCount = r.oldCount + r.deltaCount ∧
    r.newBytes = plus r.oldBytes r.deltaBytes) (js "candidate counts differ from completion receipt")
  let payload := utf8 r.lines.flatten
  return (payload, {
    oldSha256 := oldSha
    cutoffUtc := sa.cutoffUtc
    candidateSha256 := sa.sha256
    candidateRows := r.newCount
    candidateBytes := r.newBytes
    oldRows := r.oldCount
    oldBytes := r.oldBytes
    deltaRows := r.deltaCount
    deltaBytes := r.deltaBytes
    deltaSha256 := hexdigest (nc.sha256 payload)
    deltaMaxBlockBytes := r.max
    deltaOversizedRows := r.oversized
  })

variable {nc} {oldFile payload : Bytes} {oldSha256 : JsString} {a b : Candidate} {record : Record}

/-- What a delta that was written is of. -/
theorem delta_eq_ok (h : delta nc oldFile oldSha256 a b = .ok (payload, record)) : ∃ old new d,
    inventoryRows oldFile = .ok old ∧ inventoryRows a.file = .ok new ∧ mergeDelta old new = .ok d ∧
      payload = utf8 d.lines.flatten ∧ record.deltaRows = d.deltaCount ∧ record.deltaSha256 = hexdigest (nc.sha256 payload) := by
  simp only [delta, bind_eq_ok] at h
  obtain ⟨-, -, sa, -, sb, -, -, -, -, -, -, -, -, -, -, -, old, hold, new, hnew, d, hmerge, -, -, h⟩ := h
  obtain ⟨rfl, rfl⟩ := Prod.mk.inj (Except.ok.inj h)
  exact ⟨old, new, d, hold, hnew, hmerge, rfl, rfl, rfl⟩

end LakeDiff

namespace LakeCapture

open LakeDiff EventLoop

variable {nc : NodeCrypto} {args : Args} {serve : Option JsString → Except JsString Bytes} {maxPages : Option Nat}
  {fuel fuel' : Nat} {p : Progress} {d : Disk} {rows : List Row} {file payload oldFile : Bytes} {oldSha256 : JsString}
  {a b : Candidate} {record : Record}

/-! ## Any runs -/

/-- Behind the last page, too, every page is taken as the next one. -/
theorem steps_path (nc : NodeCrypto) (args : Args) (serve : Option JsString → Except JsString Bytes) :
    Steps nc args serve (Path nc args serve) fun _ => True where
  start := .start
  goes := trivial
  path _ hp := hp
  page _ _ hp _ htake := .page hp htake
  truncated _ _ _ := trivial

/-- **A run that reports a complete capture** has written the rows of the pages it took, whatever runs were before it. -/
theorem sound_of_complete (calls : List Call) {count pages : Nat} {bytes : Number} {sha256 : JsString} {oldRows : Option Nat}
    (hrun : finish nc args serve maxPages fuel' (history nc args serve fuel calls) =
      (d, .ok (.complete count bytes sha256 oldRows pages))) :
    ∃ p n, Path nc args serve p ∧ p.more = false ∧ d = ⟨none, some (completed p.state n), some p.content⟩ ∧
      count = p.state.rows ∧ sha256 = p.state.sha256 := by
  have hdisk := @history_onDisk nc args serve fuel _ _ (steps_path nc args serve) calls fun _ _ _ _ _ => trivial
  obtain ⟨bound, hsafe⟩ := @safe_capture nc args serve maxPages fuel' _ _ _ (steps_path nc args serve) hdisk
    fun _ _ _ _ => trivial
  have hended := (@EventLoop.Task.Safe.finish _ _ _ _ _ _ _ _ _ noAnswer 0 hsafe).2
  change Ended nc args _ bound (finish nc args serve maxPages fuel' _).2 (finish nc args serve maxPages fuel' _).1 at hended
  rw [hrun] at hended
  obtain ⟨p, n, hp, hlast, -, hd, hresult, -⟩ := hended count bytes sha256 oldRows pages rfl
  obtain ⟨hcount, -, hsha, -⟩ := Result.complete.inj (Except.ok.inj hresult)
  exact ⟨p, n, hp, hlast, hd, hcount, hsha⟩

/-! ## Readers -/

/-- Both readers open the file, and have the rows. -/
def ReadersOpen (nc : NodeCrypto) (file : Bytes) (rows : List Row) : Prop :=
  Opens nc pyRow file rows ∧ Opens nc kotobaRow file rows

theorem readersOpen_rows (h : Ordered rows) : ReadersOpen nc (utf8 (rows.flatMap rowLine)) rows ↔ InReach rows ∧ InDigits rows := by
  obtain ⟨hkotoba, hpy⟩ := @opens_iff nc rows h.writable
  rw [ReadersOpen, flatMap_rowLine h.plain, hkotoba, hpy]
  exact and_iff_left_of_imp And.left

theorem ordered_fresh (h : Ordered rows) (old : List Row) : Ordered (fresh old rows) where
  increasing := h.increasing.filter _
  cid row hrow := h.cid row (List.mem_filter.mp hrow).1
  held row hrow := h.held row (List.mem_filter.mp hrow).1
  sized row hrow := h.sized row (List.mem_filter.mp hrow).1

/-- **What a capture writes, the readers open**, exactly when the captured CIDs are in their reach and the sizes are
printed as digits: for every listing, all runs that end in a complete capture, and every diff of it that is written. The
digests and the numbers of rows are those that are reported. -/
theorem readersOpen_iff (nc : NodeCrypto) (args : Args) (serve : Option JsString → Except JsString Bytes)
    (fuel fuel' : Nat) (maxPages : Option Nat) (calls : List Call) (d : Disk) (count pages : Nat) (bytes : Number)
    (sha256 : JsString) (oldRows : Option Nat)
    (hrun : finish nc args serve maxPages fuel' (history nc args serve fuel calls) =
      (d, .ok (.complete count bytes sha256 oldRows pages)))
    (a b : Candidate) (ha : d.output = some a.file) (oldFile : Bytes) (oldSha256 : JsString) (payload : Bytes)
    (record : Record) (hdelta : delta nc oldFile oldSha256 a b = .ok (payload, record)) :
    ∃ p old, Path nc args serve p ∧ p.more = false ∧ inventoryRows oldFile = .ok old ∧
      sha256 = hexdigest (nc.sha256 a.file) ∧ count = (capturedRows args p.pages).length ∧
      record.deltaSha256 = hexdigest (nc.sha256 payload) ∧
      record.deltaRows = (fresh old (capturedRows args p.pages)).length ∧
      (ReadersOpen nc a.file (capturedRows args p.pages) ∧ ReadersOpen nc payload (fresh old (capturedRows args p.pages)) ↔
        InReach (capturedRows args p.pages) ∧ InDigits (capturedRows args p.pages)) := by
  obtain ⟨p, n, hp, hlast, rfl, rfl, rfl⟩ := sound_of_complete calls hrun
  have hfile : a.file = p.content := (Option.some.inj ha).symm
  have hsound := sound_path hp
  obtain ⟨old, new, merged, hold, hnew, hmerge, rfl, hrows, hsha⟩ := delta_eq_ok hdelta
  have hread : inventoryRows p.content = .ok (capturedRows args p.pages) := by
    rw [hsound.text]
    exact inventoryRows_rows hsound.ordered
  rw [hfile, hread] at hnew
  obtain rfl := Except.ok.inj hnew
  obtain ⟨-, -, -, hexact⟩ := superset_delta (inventoryRows_increasing hold).1 hsound.ordered.increasing
  obtain ⟨hlines, -, hcount, -⟩ := hexact merged hmerge
  have hpayload : merged.lines.flatten = (fresh old (capturedRows args p.pages)).flatMap rowLine := by
    rw [hlines, List.flatMap_def]
  refine ⟨p, old, hp, hlast, hold, ?_, hsound.counted, hsha, hrows.trans hcount, ?_⟩
  · rw [hfile, hsound.sha256]
  · rw [hfile, hpayload, hsound.text, readersOpen_rows hsound.ordered, readersOpen_rows (ordered_fresh hsound.ordered old)]
    refine and_iff_left_of_imp ?_
    rintro ⟨hreach, hdigits⟩
    exact ⟨fun row hrow => hreach row (List.mem_filter.mp hrow).1, fun row hrow => hdigits row (List.mem_filter.mp hrow).1⟩

namespace Sample

/-- A hash that keeps everything. -/
def crypto : NodeCrypto := ⟨id, fun _ _ _ => false⟩

/-- A capture without a cutoff, on an empty old inventory. -/
def request : Args := ⟨js "https://yataverse.com/api/v1/lake/blocks", js "/lake/new.jsonl", none, [], []⟩

/-- A listing of one block. -/
def listing (cid : JsString) (_ : Option JsString) : Except JsString Bytes :=
  .ok (utf8 (js "\x7b\"ok\":true,\"blocks\":[\x7b\"cid\":\"" ++ cid ++ js "\",\"size\":1,\"uploaded\":\"\"\x7d],\"truncated?\":false\x7d"))

/-- A CID of a SHA-256. -/
def usual : JsString := js "bafkrei" ++ List.replicate 52 (unit 'a')

/-- A CID of a SHA-512: 110 characters. -/
def long : JsString := js "bafkrgq" ++ List.replicate 103 (unit 'a')

/-- The row of the block. -/
def row (cid : JsString) : Row := ⟨cid, 1⟩

/-- The file that holds it. -/
def written (cid : JsString) : Bytes := utf8 (rowLine (row cid))

/-- The checkpoint of the completed capture. -/
def state (cid : JsString) : Checkpoint :=
  completed ⟨request.apiUrl, request.output, none, [], .inProgress, none, 1, (written cid).length, 1, .int 1, cid, some cid,
    hexdigest (written cid), none⟩ 0

def candidate (cid : JsString) : Candidate := ⟨request.output, written cid, state cid⟩

/-- What the capture reports. -/
def result (cid : JsString) : Result := .complete 1 (.int 1) (hexdigest (written cid)) (some 0) 1

/-- What it leaves. -/
def disk (cid : JsString) : Disk := ⟨none, some (state cid), some (written cid)⟩

end Sample

theorem readersOpen_iff_sample : ∃ payload record,
    delta Sample.crypto [] [] (Sample.candidate Sample.usual) (Sample.candidate Sample.usual) = .ok (payload, record) ∧
      ∃ p old, Path Sample.crypto Sample.request (Sample.listing Sample.usual) p ∧ inventoryRows [] = .ok old ∧
        (ReadersOpen Sample.crypto (Sample.written Sample.usual) (capturedRows Sample.request p.pages) ∧
            ReadersOpen Sample.crypto payload (fresh old (capturedRows Sample.request p.pages)) ↔
          InReach (capturedRows Sample.request p.pages) ∧ InDigits (capturedRows Sample.request p.pages)) := by
  obtain ⟨hresult, hdisk, hdelta⟩ :
      (finish Sample.crypto Sample.request (Sample.listing Sample.usual) none 1 .empty).2.toOption =
          some (Sample.result Sample.usual) ∧
        (finish Sample.crypto Sample.request (Sample.listing Sample.usual) none 1 .empty).1 = Sample.disk Sample.usual ∧
        (delta Sample.crypto [] [] (Sample.candidate Sample.usual) (Sample.candidate Sample.usual)).toOption.isSome = true := by
    decide +kernel
  obtain ⟨⟨payload, record⟩, hdelta⟩ := Option.isSome_iff_exists.mp hdelta
  have hdelta := ok_of_toOption hdelta
  obtain ⟨p, old, hp, -, hold, -, -, -, -, hiff⟩ := readersOpen_iff Sample.crypto Sample.request (Sample.listing Sample.usual)
    1 1 none [] (Sample.disk Sample.usual) 1 1 (.int 1) (hexdigest (Sample.written Sample.usual)) (some 0)
    (Prod.ext hdisk (ok_of_toOption hresult)) (Sample.candidate Sample.usual) (Sample.candidate Sample.usual) rfl [] []
    payload record hdelta
  exact ⟨payload, record, hdelta, p, old, hp, hold, hiff⟩

/-- **A CID that the capture lets through, no reader takes**: the capture and the diff complete, and both files are
refused. -/
theorem long_cid_refused :
    (finish Sample.crypto Sample.request (Sample.listing Sample.long) none 1 .empty).2.toOption = some (Sample.result Sample.long) ∧
      (finish Sample.crypto Sample.request (Sample.listing Sample.long) none 1 .empty).1 = Sample.disk Sample.long ∧
      ((delta Sample.crypto [] [] (Sample.candidate Sample.long) (Sample.candidate Sample.long)).toOption.map Prod.fst) =
        some (Sample.written Sample.long) ∧
      (pyInventory Sample.crypto (Sample.written Sample.long) (hexdigest (Sample.written Sample.long)) 1).toOption.isSome = false ∧
      (openInventory Sample.crypto (Sample.written Sample.long) (hexdigest (Sample.written Sample.long)) 1).toOption.isSome = false := by
  decide +kernel

end LakeCapture
