import Yataverse.EventLoop.Run
import Yataverse.LakeHead.Settle
import Yataverse.Protocol.FirstWins
import Yataverse.Writer.Decide

/-!
# The writer

The asynchronous part of `yataverse_writer.cljk`: what a writer does with one request,
and any number of requests at any number of writers beside one inga.

- `current`: the document inga holds for a graph, as the witnesses prove it.
- `submit`: one run of `lake_head submit`.
- `writeStep`, `locked`, `write`: a decision and its submission; the retry on a fresh
  read; the queue of the writes to one graph.
- `handler`: the HTTP routes.
- `writers`: the requests `reqs`, each at its writer. inga commits, for each graph, one
  submission per sequence number, in order; what its witnesses show is up to the
  outside.

A process that is restarted is a new writer.
-/

namespace Writer

open Js GraphHead EventLoop LakeHead Function

/-- What the writer is configured with. -/
structure Opts where
  signer : List JsString
  pinCmd : List JsString
  syncPins : Nat
  landed : Nat

/-- `max-body`. -/
def maxBody : Nat := 16 * 1024

/-- `[seq cid doc]`: a document that inga holds. -/
structure Cur where
  seq : Number
  cid : JsString
  doc : Json
deriving DecidableEq

/-- What a writer keeps: the documents in `cache`, the last write in the queue of each
graph, and the files of `--out-dir`. -/
structure Memory (ι : Type) where
  cache : JsString → Option Cur
  tails : JsString → Option ι
  out : JsString → Option Bytes

/-- What a request waits for: an earlier write, a child process, or (inside `lake_head
submit`) a round of submissions and a look at what the witnesses report. -/
inductive Cmd (ι : Type) where
  | join (before : Option ι)
  | verify (graph : JsString)
  | cat (cid : JsString)
  | pin (cmd : JsString) (data : Bytes)
  | send (graph : JsString) (seq : Number) (cid : JsString)
  | poll (graph : JsString) (seq : Number) (cid : JsString)
deriving DecidableEq

/-- The answers. Inside `submit`, `none` is the timeout that kills the process. -/
abbrev Cmd.Reply {ι : Type} : Cmd ι → Type
  | join _ => Unit
  | verify _ => Proc
  | cat _ => Proc
  | pin _ _ => Proc
  | send _ _ _ => Option Unit
  | poll _ _ _ => Option (List Report)

/-- The chains of the requests `ι` at the writers `ω`. -/
abbrev Step (ω ι α : Type) : Type := Task (ω → Memory ι) (Cmd ι) Cmd.Reply Err α

/-- `{"seq" "cid" "sequence" "value"}`. -/
structure Answer where
  seq : Json
  cid : Json
  sequence : Json
  value : Json
deriving DecidableEq

section Memory

variable {ω ι : Type} [DecidableEq ω] (w : ω) (graph : JsString)

/-- `(swap! cache assoc graph c)`; with `none`, `dissoc`. -/
def setCache (c : Option Cur) (s : ω → Memory ι) : ω → Memory ι :=
  update s w { s w with cache := update (s w).cache graph c }

/-- `(swap! tails assoc graph p)`. -/
def setTail (i : ι) (s : ω → Memory ι) : ω → Memory ι :=
  update s w { s w with tails := update (s w).tails graph (some i) }

/-- `(.writeFileSync fs (.join path (:out-dir opts) (str cid ".json")) data)`. -/
def writeOut (cid : JsString) (data : Bytes) (s : ω → Memory ι) : ω → Memory ι :=
  update s w { s w with out := update (s w).out cid (some data) }

end Memory

section Tasks

variable {ω ι : Type} [DecidableEq ω] (nc : NodeCrypto) (opts : Opts) (w : ω)

/-! ## Reading -/

/-- The bytes of a document, from `--out-dir` or `--cat-cmd`. -/
def readData (cid : JsString) : Step ω ι (Option Bytes) := do
  match ← Task.reads fun s => (s w).out cid with
  | some data => return some data
  | none => do
    let r ← (Task.call (Cmd.cat cid) : Step ω ι Proc)
    return if r.exited 0 then some r.out else none

/-- The document that bytes are, `null` for none. -/
def docOfData (cid : JsString) : Option Bytes → Except Err Json
  | none => .ok .null
  | some data =>
    if cid = rawCid nc data then
      match parseJson data with
      | none => .error (.other (js "not JSON"))
      | some doc => .ok doc
    else .error (.refused (js "document bytes do not hash to " ++ cid))

/-- Throw what a pure function throws. -/
def lift {α : Type} : Except Err α → Step ω ι α
  | .ok a => .ret a
  | .error e => .throw e

/-- `read-doc`: the parsed document, `null` when it cannot be read. -/
def readDoc (cid : JsString) : Step ω ι Json := do
  let data ← readData w cid
  lift (docOfData nc cid data)

/-- The document must be the one that the head names. -/
def checkDoc (graph : JsString) (seq : Number) (cid : JsString) (doc : Json) : Except Err Cur :=
  if ¬ doc.truthy then
    .error (.unmeasured (js "document " ++ cid ++ js " for seq " ++ numStr seq ++
      js " is not readable"))
  else if doc.get (js "schema") = .str schema ∧ doc.get (js "graph") = .str graph ∧
      doc.get (js "seq") = .num seq then
    .ok ⟨seq, cid, doc⟩
  else
    .error (.refused (js "document " ++ cid ++ js " is not the seq " ++ numStr seq ++
      js " mirror of " ++ graph))

/-- `current`. -/
def current (graph : JsString) : Step ω ι (Option Cur) := do
  let p ← (Task.call (Cmd.verify graph) : Step ω ι Proc)
  match ← lift (witnessHead p) with
  | none => return none
  | some (seq, cid) => do
    let doc ← readDoc nc w cid
    let cur ← lift (checkDoc graph seq cid doc)
    return some cur

/-! ## `lake_head submit` -/

/-- `settle` after each of at most `n` polls; `again` is the next submission. -/
def polls (graph : JsString) (seq : Number) (cid : JsString) (again : Step ω ι Outcome) :
    Nat → Step ω ι Outcome
  | 0 => again
  | n + 1 => do
    match ← (Task.call (Cmd.poll graph seq cid) : Step ω ι (Option (List Report))) with
    | none => return .killed
    | some reports =>
      match settle seq cid (verdict reports opts.landed) with
      | some outcome => return outcome
      | none => polls graph seq cid again n

/-- `attempt`, for the last `n` submissions. -/
def attempts (graph : JsString) (seq : Number) (cid : JsString) : Nat → Step ω ι Outcome
  | 0 => return .gaveUp submissions
  | n + 1 => do
    match ← (Task.call (Cmd.send graph seq cid) : Step ω ι (Option Unit)) with
    | none => return .killed
    | some () => polls opts graph seq cid (attempts graph seq cid n) pollsPerSubmission

/-- `lake_head submit ... --landed`, from its arguments to its exit. -/
def submit (graph : JsString) (seq : Number) (cid : JsString) : Step ω ι Outcome :=
  if validArgs seq cid then attempts opts graph seq cid submissions else return .usage

/-! ## Writing -/

/-- Run the pin commands on the document and wait for all of them. -/
def runPins (data : Bytes) : List JsString → Step ω ι (List (JsString × Proc))
  | [] => return []
  | pin :: pins => do
    let r ← (Task.call (Cmd.pin pin data) : Step ω ι Proc)
    let rs ← runPins data pins
    return (pin, r) :: rs

/-- `(first (g/words cmd))`. -/
def firstWord (cmd : JsString) : JsString := (trim cmd).takeWhile fun u => !isWhite u

/-- Every pin command must have returned the CID. -/
def checkPins (cid : JsString) : List (JsString × Proc) → Except Err Unit
  | [] => .ok ()
  | (pin, r) :: rs =>
    if r.exited 0 ∧ cid = trim (ofUtf8 r.out) then checkPins cid rs
    else .error (.unmeasured (js "pin via " ++ firstWord pin ++ js " did not return " ++ cid))

/-- The answer that a head is committed, as `c` or as a document about to be. -/
def answerOf (seq cid head : Json) : Answer :=
  ⟨seq, cid, head.get (js "sequence"), head.get (js "value")⟩

/-- `(nth cur 0)`, `(nth cur 1 nil)` and `(nth cur 2 nil)`. -/
def seqOf (cur : Option Cur) : Json := (cur.map fun c => Json.num c.seq).getD .null

def cidOf (cur : Option Cur) : Json := (cur.map fun c => Json.str c.cid).getD .null

def docOf (cur : Option Cur) : Json := (cur.map Cur.doc).getD .null

/-- What a write does when its submission has ended. -/
def submitted (graph : JsString) (head : Json) (seq : Number) (cid : JsString) (data : Bytes)
    (outcome : Outcome) : Step ω ι Answer :=
  if outcome.code = 1 then do
    -- another writer took the sequence; it may have relayed this same head
    let now ← current nc w graph
    if now.isSome ∧ headKey ((docOf now).get (js "head")) = headKey head then do
      Task.modify (setCache w graph now)
      return answerOf (seqOf now) (cidOf now) head
    else throw (.conflict (headKey ((docOf now).get (js "head"))))
  else if outcome.code ≠ 0 then .throw (.unmeasured (cut 200 outcome.line))
  else
    match parseJson data with
    | none => .throw (.other (js "not JSON"))
    | some doc => do
      Task.modify (setCache w graph (some ⟨seq, cid, doc⟩))
      return answerOf (.num seq) (.str cid) head

/-- `write-step`: one decision and, if needed, one submit, from `cur`. -/
def writeStep (graph : JsString) (expected head : Json) (cur : Option Cur) : Step ω ι Answer := do
  match ← lift (decide expected head (docOf cur)) with
  | .commit => do
    Task.modify (setCache w graph cur)
    return answerOf (seqOf cur) (cidOf cur) head
  | .submit seq => do
    let data ← lift (mirrorDoc graph seq (cidOf cur) head)
    let cid := rawCid nc data
    Task.modify (writeOut w cid data)
    let results ← runPins data (opts.pinCmd.take opts.syncPins)
    lift (checkPins cid results)
    let outcome ← submit opts graph seq cid
    submitted nc w graph head seq cid data outcome

/-- What a retry compares: `(take 2 cur)`. -/
def position (cur : Option Cur) : Option (Number × JsString) := cur.map fun c => (c.seq, c.cid)

/-- What `.catch` does with a rejected step: before a conflict is answered, decide again
on a fresh read, since the cache may have been the stale party. -/
def retry (graph : JsString) (expected head : Json) (cur : Option Cur) (e : Err) :
    Step ω ι Answer := do
  if kind e = some .conflict then do
    let fresh ← current nc w graph
    if position fresh ≠ position cur then do
      Task.modify (setCache w graph none)
      writeStep nc opts w graph expected head fresh
    else throw e
  else throw e

/-- The function that `write!` has run in the queue of the graph. -/
def locked (graph : JsString) (expected head : Json) : Step ω ι Answer := do
  let cached ← Task.reads fun s => (s w).cache graph
  let cur ← match cached with
    | some c => pure (some c)
    | none => current nc w graph
  (writeStep nc opts w graph expected head cur).handle (retry nc opts w graph expected head cur)

/-- `write!`, with `serialized`. -/
def write (i : ι) (graph : JsString) (expected head : Json) : Step ω ι Answer := do
  let _ ← lift (verifyHead nc head graph opts.signer)
  let before ← Task.reads fun s => (s w).tails graph
  Task.modify (setTail w graph i)
  (Task.call (Cmd.join before) : Step ω ι Unit)
  locked nc opts w graph expected head

/-! ## HTTP -/

/-- A request: method, path, the query parameter `graph`, and the body. -/
structure Request where
  method : JsString
  path : JsString
  graph : Option JsString
  body : Bytes
deriving DecidableEq

/-- An answer. -/
structure Response where
  status : Nat
  body : Json
deriving DecidableEq

/-- `(reply res status {key v})`. -/
def reply (status : Nat) (key : JsString) (v : Json) : Response := ⟨status, .obj [(key, v)]⟩

/-- `(reply res 200 {"committed" ans})`. -/
def committed (ans : Answer) : Response :=
  reply 200 (js "committed") (.obj [(js "cid", ans.cid), (js "seq", ans.seq),
    (js "sequence", ans.sequence), (js "value", ans.value)])

/-- `answer-error`. -/
def answerError (e : Err) : Response :=
  match e with
  | .conflict current => reply 409 (js "conflict") current
  | .refused msg => reply 403 (js "refused") (.str (cut 200 msg))
  | e => reply 503 (js "unmeasured") (.str (cut 200 (message e)))

/-- The body of a POST: the graph, the expected head and the head, or why it is refused. -/
def parsed (body : Bytes) : Except JsString (JsString × Json × Json) :=
  if body = [] ∨ maxBody < body.length then .error (js "body must be 1..16384 bytes")
  else
    match parseJson body with
    | none => .error (js "not JSON")
    | some r =>
      if ¬ r.isObj then .error (js "body must be a JSON object")
      else
        match r.get (js "graph") with
        | .str graph =>
          if ¬ graphRe graph then .error (js "graph must be a CID")
          else if ¬ r.contains (js "head") then .error (js "head is required")
          else if ¬ validExpected (r.get (js "expected")) then
            .error (js "expected must be null or \x7bsequence[, value]\x7d")
          else .ok (graph, r.get (js "expected"), r.get (js "head"))
        | _ => .error (js "graph must be a CID")

/-- `GET /v1/graph-head`. -/
def getHead (graph : JsString) : Step ω ι Response := do
  let cur ← current nc w graph
  match cur with
  | some c => do
    Task.modify (setCache w graph cur)
    return ⟨200, .obj [(js "cid", .str c.cid), (js "document", c.doc), (js "seq", .num c.seq)]⟩
  | none => return reply 404 (js "absent") (.str graph)

/-- How a GET answers an exception. -/
def getError (e : Err) : Response :=
  if kind e = some .refused then reply 409 (js "refused") (.str (message e))
  else reply 503 (js "unmeasured") (.str (cut 200 (message e)))

/-- The rest of a POST once the writes before it have settled. -/
def afterJoin (graph : JsString) (expected head : Json) : Step ω ι Response :=
  ((locked nc opts w graph expected head).bind fun ans => .ret (committed ans)).handle
    fun e => .ret (answerError e)

/-- `handler`. -/
def handler (i : ι) (req : Request) : Step ω ι Response :=
  if req.method = js "GET" ∧ req.path = js "/health" then
    .ret ⟨200, .obj [(js "ok", .bool true), (js "service", .str (js "yataverse-writer"))]⟩
  else if req.method = js "GET" ∧ req.path = js "/v1/graph-head" then
    if graphRe (req.graph.getD []) then
      (getHead nc w (req.graph.getD [])).handle fun e => .ret (getError e)
    else .ret (reply 400 (js "refused") (.str (js "graph must be a CID")))
  else if req.method = js "POST" ∧ req.path = js "/v1/graph-head" then
    match parsed req.body with
    | .error msg => .ret (reply 400 (js "refused") (.str (cut 200 msg)))
    | .ok (graph, expected, head) =>
      ((write nc opts w i graph expected head).bind fun ans => .ret (committed ans)).handle
        fun e => .ret (answerError e)
  else .ret (reply 404 (js "refused") (.str (js "not found")))

end Tasks

/-- The compare-and-set of a request: the graph, the expected head and the head. -/
def posted (req : Request) : Option (JsString × Json × Json) :=
  if req.method = js "POST" ∧ req.path = js "/v1/graph-head" then (parsed req.body).toOption
  else none

/-! ## inga and the writers -/

/-- A submission: the request it comes from and the record it carries. -/
structure Message (ι : Type) where
  request : ι
  graph : JsString
  seq : Number
  cid : JsString
deriving DecidableEq

/-- The slot of the graph's log a submission is for. -/
def Message.slot {ι : Type} (m : Message ι) : Option Nat :=
  match m.seq with
  | .int n => if 0 ≤ n then some n.toNat else none
  | _ => none

/-- inga: for each graph the log of the committed submissions. -/
abbrev Lake (ι : Type) : Type := FirstWins.Arbiter JsString (Message ι)

/-- What is left open: how the world answers a command, and which submission is
committed next. -/
structure Outside (ι X : Type) where
  ask : Lake ι → (q : Cmd ι) → X → Option q.Reply
  pick : Lake ι → X → Option (Message ι)

section Writers

variable {ω ι X : Type} [DecidableEq ω] [DecidableEq ι] (o : Outside ι X)

/-- How a command of request `i` is answered. A submission counts as sent from the
moment its round is answered; whether it ever arrives is up to inga. -/
def exec (i : ι) (finished : ι → Bool) (e : Lake ι) : (q : Cmd ι) → X → Option (q.Reply × Lake ι)
  | .join before, _ => if before.all finished then some ((), e) else none
  | .verify graph, x => (o.ask e (.verify graph) x).map fun r => (r, e)
  | .cat cid, x => (o.ask e (.cat cid) x).map fun r => (r, e)
  | .pin cmd data, x => (o.ask e (.pin cmd data) x).map fun r => (r, e)
  | .send graph seq cid, x =>
    (o.ask e (.send graph seq cid) x).map fun r => (r, e.send ⟨i, graph, seq, cid⟩)
  | .poll graph seq cid, x => (o.ask e (.poll graph seq cid) x).map fun r => (r, e)

/-- Any number of requests at any number of writers. -/
def writers (nc : NodeCrypto) (opts : Opts) (reqs : ι → ω × Request) :
    Loop ι (ω → Memory ι) (Lake ι) (Cmd ι) X Cmd.Reply Err Response where
  spawn i := handler nc opts (reqs i).1 i (reqs i).2
  exec := exec o
  tick e x := (o.pick e x).bind fun m => e.commit Message.graph Message.slot m

/-- Nothing cached, nobody waiting, no files. -/
def Memory.empty : Memory ι := ⟨fun _ => none, fun _ => none, fun _ => none⟩

/-- No writer has done anything yet. -/
def begin : Cfg ι (ω → Memory ι) (Lake ι) (Cmd ι) Cmd.Reply Err Response :=
  .start (fun _ => .empty) .empty

/-- What a head that is shown to be `(seq, cid)` is taken for: a committed record, and
the last one, when `latest` is assumed of the witnesses. -/
def Shown (latest : Prop) (e : Lake ι) (graph : JsString) (seq : Number) (cid : JsString) : Prop :=
  ∃ (n : Nat) (m : Message ι), seq = .int n ∧ (e.log graph)[n]? = some m ∧ m.cid = cid ∧
    (latest → (e.log graph).length = n + 1)

/-- What is assumed of the witnesses: what `lake_head verify` proves and what a poll
reports is committed. -/
structure Outside.Honest (latest : Prop) : Prop where
  verify : ∀ e graph x p seq cid, o.ask e (.verify graph) x = some p →
    witnessHead p = .ok (some (seq, cid)) → Shown latest e graph seq cid
  poll : ∀ e graph seq cid x reports seq' cid', o.ask e (.poll graph seq cid) x = some (some reports) →
    .head seq' cid' ∈ reports → Shown latest e graph seq' cid'

omit [DecidableEq ι] in
theorem Outside.Honest.weaken {o : Outside ι X} {latest : Prop} (h : o.Honest latest) :
    o.Honest False where
  verify e graph x p seq cid ha hw := by
    obtain ⟨n, m, h₁, h₂, h₃, -⟩ := h.verify e graph x p seq cid ha hw
    exact ⟨n, m, h₁, h₂, h₃, False.elim⟩
  poll e graph seq cid x reports seq' cid' ha hr := by
    obtain ⟨n, m, h₁, h₂, h₃, -⟩ := h.poll e graph seq cid x reports seq' cid' ha hr
    exact ⟨n, m, h₁, h₂, h₃, False.elim⟩

end Writers

end Writer
