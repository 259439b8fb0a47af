import Yataverse.Js.Lines
import Yataverse.Js.Map
import Yataverse.Js.Parse
import Yataverse.Limiting.Budget
import Yataverse.RawBlockStore.Store

/-!
# The bridge to the first copy of the lake

A local server hands out the blocks of one inventory, which it fetches from a bucket. A budget bounds the bytes that it
fetches at a time.

- `inventorySizes`: `inventory-sizes`.
- `Stage`: how far a request is; `Stage.held` is what it holds of the budget.
- `step`: requests arrive, are let in, are answered by the bucket and end, in any order.
-/

namespace R2Origin

open Js GraphHead Lake Limiting

/-! ## The inventory -/

/-- A row of the inventory: its CID and its size. -/
def rowOf (line : JsString) : Option (JsString × Nat) :=
  match Json.parse line with
  | none | some .null => none
  | some row =>
    match row.get (js "cid"), row.get (js "bytes") with
    | .str cid, .num (.int size) => if cidRe cid = true ∧ 0 < size then some (cid, size.toNat) else none
    | _, _ => none

/-- The loop of `inventory-sizes`. -/
def sizesOf : List JsString → JsMap JsString Nat → Option (JsMap JsString Nat)
  | [], sizes => some sizes
  | line :: lines, sizes =>
    match rowOf line with
    | none => none
    | some (cid, size) => if sizes.has cid then none else sizesOf lines (sizes.set cid size)

/-- `inventory-sizes`: `none` where it throws. -/
def inventorySizes (nc : NodeCrypto) (file : Bytes) (expected : JsString) : Option (JsMap JsString Nat) :=
  if sha256Re expected then
    match sizesOf ((splitNewline (ofUtf8 file)).filter (· ≠ [])) .empty with
    | none => none
    | some sizes => if expected = hexdigest (nc.sha256 file) ∧ sizes.entries ≠ [] then some sizes else none
  else none

theorem rowOf_valid {line cid : JsString} {size : Nat} (h : rowOf line = some (cid, size)) :
    cidRe cid = true ∧ 0 < size := by
  unfold rowOf at h
  split at h
  · cases h
  · cases h
  · split at h
    · split_ifs at h with hrow
      obtain ⟨rfl, rfl⟩ := Prod.mk.inj (Option.some.inj h)
      exact ⟨hrow.1, by omega⟩
    · cases h

theorem sizesOf_valid : ∀ {lines : List JsString} {sizes sizes' : JsMap JsString Nat},
    (∀ e ∈ sizes.entries, cidRe e.1 = true ∧ 0 < e.2) → sizesOf lines sizes = some sizes' →
      ∀ e ∈ sizes'.entries, cidRe e.1 = true ∧ 0 < e.2
  | [], _, _, hvalid, h => Option.some.inj h ▸ hvalid
  | line :: lines, sizes, sizes', hvalid, h => by
    rw [sizesOf] at h
    split at h
    · cases h
    · rename_i cid size hrow
      split_ifs at h
      refine sizesOf_valid (fun e he => ?_) h
      rcases mem_setEntry he with rfl | he
      · exact rowOf_valid hrow
      · exact hvalid e he

/-- What is listed has a CID and a size. -/
theorem inventorySizes_valid {nc : NodeCrypto} {file : Bytes} {expected : JsString} {sizes : JsMap JsString Nat}
    (h : inventorySizes nc file expected = some sizes) : ∀ e ∈ sizes.entries, cidRe e.1 = true ∧ 0 < e.2 := by
  unfold inventorySizes at h
  split_ifs at h
  split at h
  · cases h
  · rename_i sizes' hsizes
    split_ifs at h
    obtain rfl := Option.some.inj h
    exact sizesOf_valid (by simp [JsMap.empty]) hsizes

/-! ## Requests -/

/-- What `make-origin` and `handler` are given. -/
structure Config where
  nc : NodeCrypto
  sizes : JsMap JsString Nat
  /-- `max-memory` -/
  limit : Nat
  valid : ∀ e ∈ sizes.entries, cidRe e.1 = true ∧ 0 < e.2

/-- Where a URL leads. -/
inductive Route where
  | health
  | block (cid : JsString)
  | other

def route (url : JsString) : Route :=
  if url = js "/healthz" then .health
  else if (js "/ipfs/").isPrefixOf url = true ∧ url.count (unit '/') = 2 then .block (url.drop 6)
  else .other

/-- How far a request is. -/
inductive Stage where
  | unborn
  /-- `acquire` has not resolved. -/
  | queued (size : Nat)
  /-- `acquire` has resolved. -/
  | granted (size : Nat)
  /-- The bucket has been asked; `again`, with a fresh token. -/
  | fetching (size : Nat) (again : Bool)
  /-- The chain has settled; `.finally` is to come. -/
  | settled (size : Nat) (body : Option Bytes)
  /-- `acquire` has rejected; `.finally` is to come. -/
  | rejected (size : Nat)
  | answered (status : Nat) (body : Bytes)

/-- What a request has taken of the budget. -/
def Stage.held : Stage → Option Nat
  | granted size | fetching size _ | settled size _ => some size
  | _ => none

/-- What the bucket answers: `none` where `fetch` rejects, and for a body that cannot be read. -/
abbrev Reply := Option (Nat × Option Bytes)

/-- What may happen. `token` is whether `token-fn` has one. -/
inductive Label (ι : Type) where
  | arrive (i : ι) (url : JsString)
  | start (i : ι) (token : Bool)
  | reply (i : ι) (r : Reply) (token : Bool)
  | finish (i : ι)

/-- A request comes. -/
def Label.isArrival {ι : Type} : Label ι → Bool
  | arrive .. => true
  | _ => false

/-- The server: what is used, who waits, and how far each request is, with its URL. -/
structure State (ι : Type) where
  budget : Budget ι
  stage : ι → Stage
  url : ι → JsString

def State.initial {ι : Type} : State ι := ⟨⟨0, []⟩, fun _ => .unborn, fun _ => []⟩

variable {ι : Type} [DecidableEq ι] (c : Config)

/-- `canary`: the first one of the smallest blocks. -/
def canary : Option JsString := ((c.sizes.entries.mergeSort fun e e' => e.2 ≤ e'.2).head?).map Prod.fst

/-- The block that a request is about. -/
def wanted (url : JsString) : Option JsString :=
  match route url with
  | .health => canary c
  | .block cid => some cid
  | .other => none

/-- The size of the block that a request is about. -/
def sizeOf (url : JsString) : Option Nat := (wanted c url).bind c.sizes.get

/-- `fail` -/
def fail (status : Nat) : Stage := .answered status (utf8 (natStr status ++ js "\n"))

/-- What is answered where the chain rejects. -/
def failed (url : JsString) : Stage :=
  match route url with
  | .health => fail 503
  | .block _ => fail 502
  | .other => fail 404

/-- What is answered where the inventory has no such block. -/
def unlisted (url : JsString) : Stage :=
  match route url with
  | .health => fail 503
  | .block _ | .other => fail 404

/-- What is answered with a verified body. -/
def served (url : JsString) (body : Bytes) : Stage :=
  match route url with
  | .health =>
    .answered 200 (utf8 (js "\x7b\"origin_verified\":true,\"inventory_blocks\":" ++ natStr c.sizes.entries.length ++ js "\x7d"))
  | .block _ => .answered 200 body
  | .other => fail 404

/-- The checks of a body. -/
def checked (url : JsString) (size : Nat) (body : Bytes) : Option Bytes :=
  match wanted c url with
  | none => none
  | some cid => if size = body.length ∧ (RawBlockStore.verifyCid c.nc .kotoba cid body).isOk then some body else none

/-- `resolve` for those that are let in. -/
def grant (stage : ι → Stage) (ws : List (ι × Nat)) : ι → Stage :=
  ws.foldl (fun stage w => Function.update stage w.1 (.granted w.2)) stage

/-- `drain`, with what it resolves. -/
def State.letIn (s : State ι) (r : Budget ι × List (ι × Nat)) : State ι :=
  { s with budget := r.1, stage := grant s.stage r.2 }

/-- A request comes with its URL. -/
def State.arrived (s : State ι) (i : ι) (url : JsString) : State ι := { s with url := Function.update s.url i url }

/-- One request goes on. -/
def State.goto (s : State ι) (i : ι) (stage : Stage) : State ι := { s with stage := Function.update s.stage i stage }

/-- What becomes of the answer of the bucket. -/
def afterReply (url : JsString) (size : Nat) (again : Bool) (r : Reply) (token : Bool) : Stage :=
  match r with
  | none => .settled size none
  | some (status, body) =>
    -- the token may be old: one more try with a new one
    if status = 401 ∧ again = false then if token then .fetching size true else .settled size none
    else if status = 200 then .settled size (body.bind (checked c url size))
    else .settled size none

/-- One step. -/
def step (s : State ι) : Label ι → Option (State ι)
  | .arrive i url =>
    match s.stage i with
    | .unborn =>
      match sizeOf c url with
      | none => some ((s.arrived i url).goto i (unlisted url))
      | some size =>
        -- `acquire` rejects it, and `finally` will release what it has not taken
        if c.limit < size then some ((s.arrived i url).goto i (.rejected size))
        else some (((s.arrived i url).goto i (.queued size)).letIn (s.budget.acquire c.limit (i, size)))
    | _ => none
  | .start i token =>
    match s.stage i with
    | .granted size => some (s.goto i (if token then .fetching size false else .settled size none))
    | _ => none
  | .reply i r token =>
    match s.stage i with
    | .fetching size again => some (s.goto i (afterReply c (s.url i) size again r token))
    | _ => none
  | .finish i =>
    match s.stage i with
    | .settled size body =>
      some ((s.goto i (body.elim (failed (s.url i)) (served c (s.url i)))).letIn (s.budget.release c.limit size))
    | .rejected size => some ((s.goto i (failed (s.url i))).letIn (s.budget.release c.limit size))
    | _ => none

end R2Origin
