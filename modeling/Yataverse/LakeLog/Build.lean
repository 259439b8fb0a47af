import Yataverse.Fallible.Fold
import Yataverse.Js.Lines
import Yataverse.Js.Property
import Yataverse.Lake.Cid
import Yataverse.Splitting.Chunks

/-!
# The projected log

`project_lake_log` writes the inventories of all epochs as pages, and a head that lists them.

- `rowText`, `pageData`: the JSON text of a page, built by hand.
- `addEpoch`: one epoch, checked against what the manifest says of it.
- `build`: all objects, `head.json` last.
- `build_eq_ok`: an accepted list, epoch by epoch.
-/

namespace LakeLog

open Js GraphHead Lake Fallible Splitting

/-! ## Input -/

/-- An epoch, as `parse-epoch` returns it. A number that was not parsed is `none`. -/
structure Epoch where
  epoch : Option Number
  path : JsString
  sha256 : Option JsString
  rows : Option Number
  inventory : Option JsString

/-- The head that is verified. -/
structure Head where
  seq : Option Number
  manifest : Option JsString
  bundle : Option JsString

/-- How many rows a page has: a whole number above 0 that a double holds. -/
structure PageRows where
  val : Nat
  pos : 0 < val
  exact : val ≤ 2 ^ 53

/-- `page-rows` -/
def pageRows : PageRows := ⟨200, by decide, by decide⟩

/-- A number inside a message. -/
def numText : Option Number → JsString
  | some x => numStr x
  | none => js "NaN"

/-- A string, or `null`. -/
def strOrNull : Option JsString → Json
  | some s => .str s
  | none => .null

/-! ## Pages -/

/-- `lake-log/pages/<sha>/`: where the pages of an inventory are. -/
def pagesAt (sha : JsString) : JsString := js "lake-log/pages/" ++ sha ++ js "/"

/-- `<n>.json`, there. -/
def pageKey (under : JsString) (n : Nat) : JsString := under ++ natStr n ++ js ".json"

def headKey : JsString := js "lake-log/head.json"

/-- `(remove str/blank? lines)`, parsed. -/
def parseLine (line : JsString) : Except Err Json :=
  match Json.parse line with
  | some v => .ok v
  | none => .error (.other (js "Unexpected token in JSON"))

/-- A row of a page. What is undefined leaves nothing. -/
def rowText : Json → Except Err JsString
  | .null => .error (.other (js "Cannot read properties of null (reading 'cid')"))
  | row => .ok (js "\x7b\"cid\":" ++ ((row.property (js "cid")).map Json.stringifyValue).getD [] ++
      js ",\"bytes\":" ++ ((row.property (js "bytes")).map Json.text).getD [] ++ js "\x7d")

/-- `(str/join "," texts)` -/
def joinComma : List JsString → JsString
  | [] => []
  | [s] => s
  | s :: t :: texts => s ++ unit ',' :: joinComma (t :: texts)

/-- The bytes of a page. -/
def pageData (page : List Json) : Except Err Bytes := do
  let texts ← page.mapM rowText
  return utf8 (unit '[' :: joinComma texts ++ [unit ']'])

/-- The object of a page. -/
def pageObject (under : JsString) (page : List Json × Nat) : Except Err (JsString × Bytes) := do
  let data ← pageData page.1
  return (pageKey under page.2, data)

/-- `(map-indexed ... (partition-all per-page rows))` -/
def pageObjects (under : JsString) (perPage : PageRows) (rows : List Json) : Except Err (List (JsString × Bytes)) :=
  (chunks perPage.val rows).zipIdx.mapM (pageObject under)

/-! ## The loop -/

/-- The accumulator of `build`. -/
structure Projection where
  objects : List (JsString × Bytes)
  listed : List Epoch
  total : Number

section

variable (nc : NodeCrypto) (files : JsString → Except Err Bytes) (perPage : PageRows)

def addEpoch (acc : Projection) (e : Epoch) : Except Err Projection := do
  let file ← files e.path
  require (e.sha256 = some (hexdigest (nc.sha256 file)))
    (.refused (js "epoch " ++ numText e.epoch ++ js ": inventory sha256 differs from the manifest"))
  let rows ← (inkedLines (ofUtf8 file)).mapM parseLine
  require (e.rows = some (.int rows.length))
    (.refused (js "epoch " ++ numText e.epoch ++ js ": " ++ natStr rows.length ++ js " rows, manifest says " ++
      numText e.rows))
  let objects ← pageObjects (pagesAt (hexdigest (nc.sha256 file))) perPage rows
  return ⟨acc.objects ++ objects, acc.listed ++ [e], acc.total.add rows.length⟩

/-- What the head says of an epoch. -/
def entryValue (e : Epoch) : Json :=
  .obj [(js "epoch", (e.epoch.map Json.num).getD .null), (js "inventory", strOrNull e.inventory),
    (js "page_rows", .num (.int perPage.val)), (js "prefix", .str (pagesAt (e.sha256.getD []))),
    (js "rows", (e.rows.map Json.num).getD .null), (js "sha256", strOrNull e.sha256)]

/-- The value of `head.json`. -/
def headValue (head : Head) (p : Projection) : Json :=
  .obj [(js "bundle", strOrNull head.bundle), (js "epochs", .arr (p.listed.map (entryValue perPage))),
    (js "manifest", strOrNull head.manifest), (js "rows", .num p.total),
    (js "seq", (head.seq.map Json.num).getD .null)]

/-- The numbers of so many epochs. -/
def epochNumbers (n : Nat) : List (Option Number) := (List.range n).map fun (i : Nat) => some (.int i)

/-- `build` -/
def build (epochs : List Epoch) (head : Head) : Except Err (List (JsString × Bytes)) := do
  let p ← epochs.foldlM (addEpoch nc files perPage) ⟨[], [], .int 0⟩
  require (p.listed.map Epoch.epoch = epochNumbers p.listed.length)
    (.refused (js "epochs must be given in log order from 0 without gaps"))
  require (head.seq = some (.int (p.listed.length - 1)))
    (.refused (js "head seq " ++ numText head.seq ++ js " does not match " ++ natStr p.listed.length ++ js " epochs"))
  let data ← canonical (headValue perPage head p)
  return p.objects ++ [(headKey, data)]

end

/-! ## Epoch by epoch -/

variable {nc : NodeCrypto} {files : JsString → Except Err Bytes} {perPage : PageRows} {epochs : List Epoch} {e : Epoch}
  {head : Head} {acc p : Projection} {objects : List (JsString × Bytes)}

/-- An epoch that was accepted, with its lines and its objects. -/
structure Accepted (nc : NodeCrypto) (files : JsString → Except Err Bytes) (perPage : PageRows) (e : Epoch)
    (file : Bytes) (rows : List Json) (objects : List (JsString × Bytes)) : Prop where
  found : files e.path = .ok file
  digest : e.sha256 = some (hexdigest (nc.sha256 file))
  lines : (inkedLines (ofUtf8 file)).mapM parseLine = .ok rows
  counted : e.rows = some (.int rows.length)
  paged : pageObjects (pagesAt (hexdigest (nc.sha256 file))) perPage rows = .ok objects

theorem addEpoch_eq_ok (h : addEpoch nc files perPage acc e = .ok p) : ∃ file rows objects,
    Accepted nc files perPage e file rows objects ∧
      p = ⟨acc.objects ++ objects, acc.listed ++ [e], acc.total.add rows.length⟩ := by
  simp only [addEpoch, bind_eq_ok, require_eq_ok] at h
  obtain ⟨file, hfile, _, hsha, rows, hlines, _, hrows, objects, hpages, hp⟩ := h
  exact ⟨file, rows, objects, ⟨hfile, hsha, hlines, hrows, hpages⟩, (Except.ok.inj hp).symm⟩

/-- What the loop has added: `parts` are the lines and the objects of each epoch. -/
theorem foldlM_addEpoch (h : epochs.foldlM (addEpoch nc files perPage) acc = .ok p) :
    ∃ parts : List (Bytes × List Json × List (JsString × Bytes)),
      List.Forall₂ (fun e part => Accepted nc files perPage e part.1 part.2.1 part.2.2) epochs parts ∧
        p.objects = acc.objects ++ parts.flatMap (fun part => part.2.2) ∧ p.listed = acc.listed ++ epochs ∧
        p.total = (parts.map fun part => part.2.1.length).foldl (fun total n => total.add n) acc.total := by
  induction epochs generalizing acc with
  | nil =>
    obtain rfl := Except.ok.inj h
    exact ⟨[], .nil, (List.append_nil _).symm, (List.append_nil _).symm, rfl⟩
  | cons e epochs ih =>
    obtain ⟨acc', hstep, h⟩ := foldlM_cons_ok h
    obtain ⟨file, rows, objects, haccepted, rfl⟩ := addEpoch_eq_ok hstep
    obtain ⟨parts, hparts, hobjects, hlisted, htotal⟩ := ih h
    refine ⟨(file, rows, objects) :: parts, .cons haccepted hparts, ?_, ?_, htotal⟩
    · rw [hobjects, List.flatMap_cons, List.append_assoc]
    · rw [hlisted, List.append_assoc, List.singleton_append]

/-- **An accepted list of epochs.** -/
theorem build_eq_ok (h : build nc files perPage epochs head = .ok objects) :
    ∃ (parts : List (Bytes × List Json × List (JsString × Bytes))) (total : Number) (data : Bytes),
      List.Forall₂ (fun e part => Accepted nc files perPage e part.1 part.2.1 part.2.2) epochs parts ∧
        total = (parts.map fun part => part.2.1.length).foldl (fun total n => total.add n) (.int 0) ∧
        epochs.map Epoch.epoch = epochNumbers epochs.length ∧ head.seq = some (.int (epochs.length - 1)) ∧
        canonical (headValue perPage head ⟨parts.flatMap fun part => part.2.2, epochs, total⟩) = .ok data ∧
        objects = parts.flatMap (fun part => part.2.2) ++ [(headKey, data)] := by
  simp only [build, bind_eq_ok, require_eq_ok] at h
  obtain ⟨⟨objects', listed, total⟩, hfold, _, horder, _, hseq, data, hdata, hobjects⟩ := h
  obtain ⟨parts, hparts, hobj, hlisted, htotal⟩ := foldlM_addEpoch hfold
  dsimp only at hobj hlisted htotal horder hseq hdata hobjects
  rw [List.nil_append] at hobj hlisted
  subst hobj hlisted
  exact ⟨parts, total, data, hparts, htotal, horder, hseq, hdata, (Except.ok.inj hobjects).symm⟩

end LakeLog
