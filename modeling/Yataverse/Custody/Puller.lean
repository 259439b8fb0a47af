import Yataverse.GraphHead.Witness

/-!
# The custody puller

`custody_puller.cljk`: for each graph, read the committed head from the witnesses and
walk its chain back through `prev` to a document that is held already, fetching,
checking and recording each document on the way.

- `checkDoc`: what a document has to be.
- `Custodian`: the documents held, in the process and in the state file.
- `walk`, `pull`, `once`: the loop of `pull!`, `pull!`, and one round over all graphs.
- `Pull`: what a pull meets outside: how the witnesses answer and, for each CID it asks
  for, how its fetch ends and whether the process is killed there. Files are written.
- `rounds`: any number of rounds, in one process or in one after another.
-/

namespace Custody

open Js GraphHead

/-! ## Documents -/

/-- `check-doc`: the parsed document, or a refusal. -/
def checkDoc (nc : NodeCrypto) (graph : JsString) (seq : Number) (cid : Json) (data : Bytes)
    (signers : List JsString) : Except Err Json := do
  check (cid = .str (rawCid nc data)) (.refused (js "bytes do not hash to " ++ strOf cid))
  match parseJson data with
  | none => throw (.refused (js "not JSON"))
  | some doc =>
    check (doc.get (js "schema") = .str schema ∧ doc.get (js "graph") = .str graph ∧
        doc.get (js "seq") = .num seq)
      (.refused (js "not the seq " ++ numStr seq ++ js " document of " ++ graph))
    check (seq = .int 0 ↔ doc.get (js "prev") = .null)
      (.refused (js "seq " ++ numStr seq ++ js " with prev " ++ prStr (doc.get (js "prev"))))
    let _ ← verifyHead nc (doc.get (js "head")) graph signers
    return doc

/-! ## The state file -/

/-- The text `save-held!` writes: the CIDs, sorted, as a JSON array. -/
def heldText (held : List JsString) : JsString :=
  Json.print stringify (.arr ((sorted held).map .str))

/-- `read-held`: the CIDs in the state file, none when it is missing or unreadable. -/
def readHeld (file : Option JsString) : List JsString :=
  match file.bind Json.parse with
  | some (.arr xs) => xs.filterMap Json.str?
  | _ => []

/-- A document that a walk has fetched and checked. -/
structure Checked where
  graph : JsString
  seq : Number
  cid : JsString
  data : Bytes
deriving DecidableEq

/-- A `warrant` line: a document that was fetched and refused. -/
structure Warrant where
  graph : JsString
  seq : Number
  cid : Json
  reason : JsString
deriving DecidableEq

/-- The custodian: the `held` atom of the running process (none when no process runs),
the state file, the warrants printed and, for the record, every document that was
fetched and passed `checkDoc`. -/
structure Custodian where
  held : Option (List JsString)
  file : Option JsString
  warrants : List Warrant
  checked : List Checked

/-- Before the first round. -/
def Custodian.fresh : Custodian := ⟨none, none, [], []⟩

/-- The documents the process holds, read from the file when it has just started. -/
def Custodian.mem (s : Custodian) : List JsString := s.held.getD (readHeld s.file)

/-- Is the document `cid` held? -/
def Custodian.holds (s : Custodian) : Json → Bool
  | .str cid => s.mem.contains cid
  | _ => false

/-! ## One pull -/

/-- What a walk meets when it asks for a document: how `pin add` and `cat` end, and
whether the process is killed before the document is in the state file. -/
structure Visit where
  pin : Proc
  cat : Proc
  killed : Bool

/-- `fetch!`. -/
def fetch (v : Visit) (cid : Json) : Except Err Bytes := do
  check (v.pin.exited 0) (.unmeasured (js "pin add " ++ strOf cid ++ js ": " ++ trim v.pin.err))
  check (v.cat.exited 0) (.unmeasured (js "cat " ++ strOf cid ++ js ": " ++ trim v.cat.err))
  return v.cat.out

/-- How a pull ends. `running` is a walk that has not ended within the steps looked at. -/
inductive End where
  | returned (headSeq : Option Number) (new : Nat)
  | threw (e : Err)
  | killed
  | running
deriving DecidableEq

/-- What a walk leaves when it has checked a document: it is held, in the process and
in the file. -/
def record (s : Custodian) (c : Checked) : Custodian :=
  let held := conj s.mem c.cid
  { s with held := some held, file := some (heldText held), checked := c :: s.checked }

/-- What a walk leaves when it has refused a document. -/
def warrant (s : Custodian) (graph : JsString) (seq : Number) (cid : Json) (e : Err) : Custodian :=
  { s with warrants := ⟨graph, seq, cid, cut 200 (message e)⟩ :: s.warrants }

/-- The loop of `pull!`, for at most `steps` documents. -/
def walk (nc : NodeCrypto) (signers : List JsString) (graph : JsString) (headSeq : Number)
    (visit : Json → Visit) : Nat → Custodian → Number → Json → Nat → End × Custodian
  | steps, s, seq, cid, n =>
    if cid = .null ∨ s.holds cid then (.returned (some headSeq) n, s)
    else
      match steps with
      | 0 => (.running, s)
      | steps + 1 =>
        if (visit cid).killed then (.killed, { s with held := none })
        else
          match fetch (visit cid) cid with
          | .error e => (.threw e, s)
          | .ok data =>
            match checkDoc nc graph seq cid data signers with
            | .error e => (.threw e, warrant s graph seq cid e)
            | .ok doc =>
              walk nc signers graph headSeq visit steps
                (record s ⟨graph, seq, rawCid nc data, data⟩) (seq.add (-1))
                (doc.get (js "prev")) (n + 1)

/-- What one pull meets. `docs` is the chain that is committed for the graph when the
witnesses are asked, newest first; no code reads it. -/
structure Pull where
  graph : JsString
  verify : Proc
  visit : Json → Visit
  steps : Nat
  docs : List Bytes

/-- `pull!`. -/
def pull (nc : NodeCrypto) (signers : List JsString) (p : Pull) (s : Custodian) : End × Custodian :=
  match witnessHead p.verify with
  | .error e => (.threw e, s)
  | .ok none => (.returned none 0, s)
  | .ok (some (headSeq, headCid)) =>
    walk nc signers p.graph headSeq p.visit p.steps s headSeq (.str headCid) 0

/-! ## Rounds -/

/-- How a graph's pull changes the exit code of a round. -/
def worse (worst : Nat) (e : Err) : Nat :=
  if kind e = some .refused then 1 else if worst = 1 then 1 else 3

/-- `once!`: the pulls of a round in turn, from the exit code `worst`. The result is the
exit code, none when the process did not get to the end, and how each pull that was
made ended. -/
def once (nc : NodeCrypto) (signers : List JsString) :
    List Pull → Nat → Custodian → Option Nat × List (Pull × End) × Custodian
  | [], worst, s => (some worst, [], s)
  | p :: ps, worst, s =>
    match pull nc signers p s with
    | (.returned q n, s) =>
      let (code, ends, s) := once nc signers ps worst s
      (code, (p, .returned q n) :: ends, s)
    | (.threw e, s) =>
      let (code, ends, s) := once nc signers ps (worse worst e) s
      (code, (p, .threw e) :: ends, s)
    | (.killed, s) => (none, [(p, .killed)], s)
    | (.running, s) => (none, [(p, .running)], { s with held := none })

/-- One round: in a new process, or (with `--loop`) in the one of the round before. -/
structure Round where
  restart : Bool
  pulls : List Pull

/-- The state in which a round finds the custodian: its process has read the file. -/
def Round.enter (r : Round) (s : Custodian) : Custodian :=
  { s with held := some (if r.restart then readHeld s.file else s.mem) }

/-- A round. -/
def round (nc : NodeCrypto) (signers : List JsString) (r : Round) (s : Custodian) :
    Option Nat × List (Pull × End) × Custodian :=
  once nc signers r.pulls 0 (r.enter s)

/-- The custodian after any number of rounds. -/
def rounds (nc : NodeCrypto) (signers : List JsString) : List Round → Custodian → Custodian
  | [], s => s
  | r :: rs, s => rounds nc signers rs (round nc signers r s).2.2

end Custody
