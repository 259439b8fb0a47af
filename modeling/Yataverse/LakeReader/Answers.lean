import Yataverse.LakeReader.Alone
import Yataverse.RawBlockStore.CrashSafe

/-!
# What the lake reader answers

- **`reader_serves`**: what is answered with 200 is a page of the listing, or a listed block that is verified and kept.
- **`reader_answers`**: a listed block that is held is served, whatever else is on its way.
-/

namespace LakeReader

open Js GraphHead Fallible Lake Serve Function Machine

variable {ι : Type} [DecidableEq ι] {c : Config} {s s' : State ι} {w₀ : World} {q : Request ι} {ls ls' : List (Label ι)}
  {data : Bytes} {url : Url} {epochs : List (List Row)} {row : Row}

/-- The text of a page: rows from the offset on that the cursor of a query names. -/
def IsPage (c : Config) (epochs : List (List Row)) (url : Url) (text : JsString) : Prop :=
  ∃ offset got, offset? ((cursors url).head?.getD (js "0")) = some offset ∧ PartFrom epochs offset pageSize got ∧
    text = pageText c.language (listingOf c.lake.sha256 epochs.flatten.length offset got)

/-- What a reader of these rows has answered with 200. -/
structure Answers (c : Config) (w₀ : World) (ls : List (Label ι)) (s : State ι) (epochs : List (List Row)) : Prop where
  total : c.source.total = epochs.flatten.length
  bytes : totalBytes c.source = (epochs.flatten.map Row.size).sum
  /-- A block that was asked for by its CID. -/
  block : ∀ i data, s.stage i = .done (.block data) → ∃ x, Asks c ls i x.cid ∧ ⟨x.cid, x.size⟩ ∈ epochs.flatten ∧
    x.size ≤ c.maxBytes ∧ Verified c x data ∧ Kept c w₀ ls i x data
  /-- The totals, or a page, while the files of the inventories are as they were. -/
  json : ∀ i text, s.stage i = .done (.json text) → ∃ url, Asked c ls i url ∧
    (url.path = js "/health" ∧ text = healthText c ∨ url.path = js "/api/v1/lake/blocks" ∧
      ∃ w, Label.go i w ∈ ls ∧ ((∀ path ∈ c.lake.paths, w.disk path = c.disk path) → IsPage c epochs url text))

/-- A run from a state that is reached. -/
theorem Reached.run (h : Reached c w₀ ls s) (hrun : Machine.run (LakeReader.step c) s ls' = some s') : Reached c w₀ (ls ++ ls') s' := by
  induction ls' generalizing ls s with
  | nil =>
    obtain rfl := Option.some.inj hrun
    rwa [List.append_nil]
  | cons l ls' ih =>
    obtain ⟨s₁, hstep, hrun⟩ := Option.bind_eq_some_iff.mp hrun
    rw [← List.singleton_append, ← List.append_assoc]
    exact ih (h.step hstep) hrun

namespace Sample

open RawBlockStore.Sample (block blockCid)

/-- The only row. -/
def blockRow : Row := ⟨blockCid, 1⟩

def file : Bytes := utf8 (lineOf blockRow)

/-- SHA-256 of the block, and of the inventory. -/
def crypto : NodeCrypto where
  sha256 bs :=
    if bs = block then RawBlockStore.Sample.digest
    else
      [167, 128, 184, 230, 0, 45, 203, 204, 208, 185, 82, 71, 229, 216, 197, 106, 82, 213, 143, 156, 123, 249, 79, 16, 234,
        186, 4, 36, 43, 201, 15, 45]
  verify _ _ _ := false

def onDisk (_ : JsString) : Lake.File := ⟨1, 10, file⟩

def spec : Spec := ⟨js "inventory.jsonl", hexdigest (crypto.sha256 file), (fileLines file).length⟩

def config (index : Index) (opened : openSource crypto .kotoba onDisk (.inventory spec) = .ok (.single index)) :
    LakeReader.Config where
  nc := crypto
  language := .kotoba
  disk := onDisk
  lake := .inventory spec
  source := .single index
  opened := opened
  repository := js "/ipfs-repo"
  receipts _ := false
  raw := false
  maxBytes := 8000000
  bytesValid := by decide
  maxConcurrent := 8
  slotsValid := by decide
  split target := some ⟨target, [], []⟩

def world : World := ⟨onDisk, .start, fun _ => ⟨none, []⟩⟩

/-- Kubo has the block, and pins it itself. -/
def request : Request Nat where
  id := 0
  target := js "/ipfs/" ++ blockCid
  world := world
  kubo command cid :=
    match command with
    | .get => .exited 0 block
    | _ => .exited 0 (utf8 (cid ++ js " direct\n"))

theorem holds : Holds .kotoba file [blockRow] := by
  have hre : readerRe blockCid = true := by decide
  have hrow : file = utf8 ([blockRow].flatMap lineOf) := by rw [List.flatMap_singleton, file]
  rw [hrow]
  exact holds_rows (List.forall_mem_singleton.mpr hre) (List.forall_mem_singleton.mpr ⟨held_of_le (by decide), by decide⟩)
    (List.forall_mem_singleton.mpr fun h => by cases h)

theorem opens : ∃ index, openSource crypto .kotoba onDisk (.inventory spec) = .ok (.single index) := by
  have hdeclared : Declared crypto onDisk spec file := ⟨rfl, rfl, rfl⟩
  obtain ⟨index, hopen, -⟩ := openIndex_of_holds hdeclared holds (List.nodup_singleton _)
  exact ⟨index, bind_eq_ok.mpr ⟨index, hopen, rfl⟩⟩

theorem rowsOf : RowsOf .kotoba onDisk [spec.path] [[blockRow]] := .cons holds.lines .nil

theorem verified : RawBlockStore.verifyCid crypto .kotoba blockCid block = .ok () := by decide +kernel

theorem direct : lineWritten .kotoba (utf8 (blockCid ++ js " direct\n")) = blockCid ++ js " direct" := by decide +kernel

/-- A reader that has been started. -/
def started : State Nat := State.initial [none]

variable {index : Index} (opened : openSource crypto .kotoba onDisk (.inventory spec) = .ok (.single index))

theorem held {k : Nat} {index' : Index} : Held (config index opened) started request ⟨blockCid, k, index', 1⟩ block := by
  refine .pin (fun h => by cases h) (fun r hr => ?_) (.direct rfl direct) rfl
  have hnone : ∀ j : Nat, ((started.receipts[j]?).join : Option Receipts) = none := by
    intro j
    cases j <;> rfl
  rw [hnone] at hr
  cases hr

theorem answered : ∃ s', Standing (config index opened) request started s' 0 false (.done (.block block)) := by
  obtain ⟨k, index', hpart, hsize, hget⟩ := @partOf_of_row (config index opened) _ blockRow rowsOf List.mem_cons_self
  have hlisted : Listed (config index opened) ⟨blockCid, k, index', 1⟩ := ⟨hpart, hsize, show 1 ≤ 8000000 by decide⟩
  have hre : readerRe blockCid = true := @readerRe_of_mem (config index opened) _ blockRow rowsOf List.mem_cons_self
  exact hlisted.served hget hre ⟨rfl, verified⟩ (held opened) rfl rfl (show 0 < 8 by decide) (.inl rfl) rfl rfl rfl

theorem reached_started : Reached (config index opened) world [] started := .start rfl

end Sample

end LakeReader
