import Yataverse.GraphHead.Canonical
import Yataverse.Machine.Run

/-!
# Archiving a CAR to the Filecoin tier

`archive!` claims the receipt file of a row range, uploads the CAR, asks the tier what has
become of it, and replaces the receipt. Any number of runs work on one receipt file.

- `carCid`, `receipt`, `Refusal`: the rules of `filecoin-archive`, and what a run refuses.
- `turn`: one step of a run. A receipt is written to a temporary file of the run's own,
  which a hard link (the claim) or a rename (the outcome) publishes.
- `step`: a run starts, takes a step or stops for good; or the tier moves a CAR on, from
  `queued` to `stored`.
-/

namespace Filecoin

open Function Js

/-! ## Rules -/

/-- `sha256-hex?`. -/
def sha256Hex (s : JsString) : Bool :=
  s.length == 64 && s.all fun u => inRange '0' '9' u || inRange 'a' 'f' u

/-- `hex->ints`. -/
def hexInts : JsString → Bytes
  | a :: b :: rest =>
    byte ((Json.hexValue a).getD 0 * 16 + (Json.hexValue b).getD 0) :: hexInts rest
  | _ => []

/-- `base32-alphabet` -/
def base32Alphabet : JsString := js "abcdefghijklmnopqrstuvwxyz234567"

/-- `base32`, with `bits` bits in `buffer` that are not yet written. -/
def base32 (bytes : Bytes) (buffer bits : Nat) : JsString :=
  if 5 ≤ bits then
    let shift := bits - 5
    base32Alphabet.getD (buffer >>> shift) 0 :: base32 bytes (buffer &&& (1 <<< shift - 1)) shift
  else
    match bytes with
    | b :: bytes => base32 bytes (buffer <<< 8 ||| b.toNat) (bits + 8)
    | [] => if 0 < bits then [base32Alphabet.getD (buffer <<< (5 - bits)) 0] else []
termination_by 9 * bytes.length + bits

/-- `car-cid`: the raw CIDv1 of a SHA-256 in hexadecimal. -/
def carCid (sha256 : JsString) : JsString := unit 'b' :: base32 ([0x01, 0x55, 0x12, 0x20] ++ hexInts sha256) 0 0

/-- The status in a receipt. -/
inductive Outcome where
  | pending
  | queued
  | stored
deriving DecidableEq

/-- A receipt. -/
structure Receipt where
  status : Outcome
  carCid : JsString
  sha256 : JsString
  bytes : Nat
  startRow : Nat
  endRow : Nat
  archivedAt : JsString
  inventorySha256 : Option JsString
  pieceCid : Option JsString
deriving DecidableEq

/-- What the tier knows about a CAR: `parse-status` of its answer. -/
structure Status where
  stored : Option Bool
  pieceCid : Option JsString

/-- `admissible-put-status?`: queued, or stored already. -/
def admissiblePutStatus (status : Nat) : Bool := status == 200 || status == 202

/-- Why a run refuses. -/
inductive Refusal where
  | invalidRange
  | invalidSha256
  | invalidInventorySha256
  | carNotAFile
  | carSha256Mismatch (actual : JsString)
  | emptyCar
  | receiptUnreadable
  | receiptConflict (existing : JsString)
  | tierRejected (status : Nat)
deriving DecidableEq

/-- A row range: the receipt file is the same for all of its runs. -/
structure Range where
  startRow : Nat
  endRow : Nat

/-- What a run is started with: the digest it is told, the CAR file by its own digest and
size, and whether it waits for the tier. -/
structure Job where
  sha256 : JsString
  car : Option (JsString × Nat)
  inventorySha256 : Option JsString
  waits : Bool

/-- The checks of `archive!` before the claim. -/
def refusal (range : Range) (job : Job) : Option Refusal :=
  if ¬ range.startRow < range.endRow then some .invalidRange
  else if ¬ sha256Hex job.sha256 then some .invalidSha256
  else if job.inventorySha256.any fun inv => !sha256Hex inv then some .invalidInventorySha256
  else
    match job.car with
    | none => some .carNotAFile
    | some (actual, size) =>
      if job.sha256 ≠ actual then some (.carSha256Mismatch actual)
      else if size = 0 then some .emptyCar
      else none

/-- `receipt`, with what all receipts of a run have in common. -/
def receipt (range : Range) (job : Job) (status : Outcome) (pieceCid : Option JsString)
    (archivedAt : JsString) : Receipt :=
  { status := status, carCid := carCid job.sha256, sha256 := job.sha256,
    bytes := (job.car.map Prod.snd).getD 0, startRow := range.startRow, endRow := range.endRow,
    archivedAt := archivedAt, inventorySha256 := job.inventorySha256, pieceCid := pieceCid }

/-- The receipt that a run starts with. -/
def claim (range : Range) (job : Job) (archivedAt : JsString) : Receipt :=
  receipt range job .pending none archivedAt

/-- Whether a run has seen that its CAR is stored: the tier says so, or the receipt did. -/
def seesStored (prior : Option Receipt) (st : Status) : Bool :=
  st.stored == some true || prior.any fun r => r.status == .stored

/-- The piece CID that a run has seen. -/
def seenPiece (prior : Option Receipt) (st : Status) : Option JsString :=
  st.pieceCid.or (prior.bind Receipt.pieceCid)

/-- The receipt that a run ends with. -/
def outcome (range : Range) (job : Job) (prior : Option Receipt) (st : Status)
    (archivedAt : JsString) : Receipt :=
  receipt range job (if seesStored prior st then .stored else .queued) (seenPiece prior st)
    archivedAt

/-! ## Runs -/

/-- What a file holds: a receipt, or a part of one. -/
inductive Content where
  | part
  | whole (r : Receipt)
deriving DecidableEq

/-- How a temporary file is to be published: by a hard link, which fails when the receipt
file exists, or by a rename over it. -/
inductive Publish where
  | claim
  | replace (prior : Option Receipt) (st : Status)

/-- Where a run is. -/
inductive Phase where
  | unborn
  /-- `write-json-tmp!`: the temporary file does not exist yet. -/
  | creating (r : Receipt) (how : Publish)
  /-- `write-json-tmp!`: the file exists and is being written. -/
  | writing (r : Receipt) (how : Publish)
  /-- The temporary file is written and synced. -/
  | publishing (r : Receipt) (how : Publish)
  /-- The claim was lost: the receipt is read. -/
  | reading
  | uploading (prior : Option Receipt)
  /-- The tier is asked for the status of the CAR. -/
  | asking (prior : Option Receipt)
  /-- `wait-stored`. -/
  | waiting (prior : Option Receipt)
  | done (r : Receipt)
  | refused (why : Refusal)
  /-- Failed or killed. -/
  | stopped

/-- What the tier holds of a CAR. -/
inductive Stage where
  | absent
  | queued
  | stored
deriving DecidableEq

/-- What the tier has of a CAR. -/
structure Tier where
  stage : Stage
  pieceCid : Option JsString

/-- The tier may go on from `t` to `t'`: a CAR that is stored stays stored, and keeps its
piece CID. -/
def Tier.goesTo (t t' : Tier) : Bool :=
  (t.stage == .absent || t'.stage == .stored || (t.stage == .queued && t'.stage == .queued)) &&
    (t.pieceCid.isNone || t.pieceCid == t'.pieceCid)

/-- The tier has been sent a CAR. -/
def Tier.put (t : Tier) : Tier := if t.stage = .absent then { t with stage := .queued } else t

/-- What the tier answers to `/status`. -/
def Tier.status (t : Tier) : Status :=
  match t.stage with
  | .absent => ⟨none, none⟩ -- not a 200
  | .queued => ⟨some false, t.pieceCid⟩
  | .stored => ⟨some true, t.pieceCid⟩

/-- The receipt file, the temporary files, the tier and the runs. -/
structure State (ι : Type) where
  file : Option Content
  temp : ι → Option Content
  tier : JsString → Tier
  phase : ι → Phase

/-- No run yet. The receipt file may be there from before. -/
def State.start {ι : Type} (file : Option Receipt) (tier : JsString → Tier) : State ι :=
  ⟨file.map .whole, fun _ => none, tier, fun _ => .unborn⟩

/-- What a step of a run meets: the time, the status of the upload (0 when `curl` fails),
whether the tier's answer arrives, and whether the deadline has passed. -/
structure Outside where
  now : JsString
  put : Nat
  answers : Bool
  late : Bool

/-- What happens next. -/
inductive Label (ι : Type) where
  | start (i : ι) (now : JsString)
  | turn (i : ι) (x : Outside)
  | stop (i : ι)
  | tier (cid : JsString) (t : Tier)

section Step

variable {ι : Type} [DecidableEq ι] (range : Range) (jobs : ι → Job)

/-- Run `i` goes on to `p`. -/
def State.goto (s : State ι) (i : ι) (p : Phase) : State ι := { s with phase := update s.phase i p }

/-- The temporary file of run `i` holds `c`. -/
def State.write (s : State ι) (i : ι) (c : Option Content) : State ι :=
  { s with temp := update s.temp i c }

/-- What the tier answers about the CAR of run `i`, if it does. -/
def State.status (s : State ι) (i : ι) (x : Outside) : Status :=
  if x.answers then (s.tier (carCid (jobs i).sha256)).status else ⟨none, none⟩

/-- Run `i` publishes its temporary file. -/
def publish (s : State ι) (i : ι) (r : Receipt) : Publish → State ι
  | .claim =>
    match s.file with
    | none => (({ s with file := s.temp i } : State ι).write i none).goto i (.uploading none)
    | some _ => (s.write i none).goto i .reading -- EEXIST
  | .replace _ _ => (({ s with file := s.temp i } : State ι).write i none).goto i (.done r)

/-- Run `i` has lost the claim and reads the receipt. -/
def readReceipt (s : State ι) (i : ι) : State ι :=
  match s.file with
  | some (.whole prior) =>
    if carCid (jobs i).sha256 ≠ prior.carCid then
      s.goto i (.refused (.receiptConflict prior.carCid))
    else s.goto i (.uploading (some prior))
  | _ => s.goto i (.refused .receiptUnreadable)

/-- Run `i` has the last status it asks for. -/
def conclude (s : State ι) (i : ι) (prior : Option Receipt) (st : Status) (now : JsString) : State ι :=
  s.goto i (.creating (outcome range (jobs i) prior st now) (.replace prior st))

/-- The next step of run `i`. -/
def turn (s : State ι) (i : ι) (x : Outside) : Option (State ι) :=
  match s.phase i with
  | .creating r how => some ((s.write i (some .part)).goto i (.writing r how))
  | .writing r how => some ((s.write i (some (.whole r))).goto i (.publishing r how))
  | .publishing r how => some (publish s i r how)
  | .reading => some (readReceipt jobs s i)
  | .uploading prior =>
    if admissiblePutStatus x.put then
      let cid := carCid (jobs i).sha256
      some (({ s with tier := update s.tier cid (s.tier cid).put } : State ι).goto i (.asking prior))
    else some (s.goto i (.refused (.tierRejected x.put)))
  | .asking prior =>
    let st := s.status jobs i x
    if (jobs i).waits ∧ st.stored ≠ some true then some (s.goto i (.waiting prior))
    else some (conclude range jobs s i prior st x.now)
  | .waiting prior =>
    let st := s.status jobs i x
    if st.stored = some true ∨ x.late then some (conclude range jobs s i prior st x.now)
    else some s
  | .unborn | .done _ | .refused _ | .stopped => none

/-- One step. -/
def step (s : State ι) : Label ι → Option (State ι)
  | .start i now =>
    match s.phase i with
    | .unborn =>
      match refusal range (jobs i) with
      | some why => some (s.goto i (.refused why))
      | none => some (s.goto i (.creating (claim range (jobs i) now) .claim))
    | _ => none
  | .turn i x => turn range jobs s i x
  | .stop i => some (s.goto i .stopped)
  | .tier cid t =>
    if (s.tier cid).goesTo t then some { s with tier := update s.tier cid t } else none

end Step

end Filecoin
