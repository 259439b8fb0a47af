import Yataverse.BlockIngest.Cid
import Yataverse.EventLoop.Run
import Mathlib.Data.List.AList

/-!
# The store over a Kubo CLI

The second part of `block_ingest.cljk`. The files of the service are read and written
synchronously; a command to Kubo is a child process and is awaited.

- `Files`: the hold files and head files of the state directory.
- `Cmd`: the commands to Kubo, each answered by how its process ends.
- `Step`: a promise chain over the two.
- `held`, `hold`, `release`, ...: the functions of `kubo-store`.
- `Kubo`: a Kubo that does what it is told.
-/

namespace BlockIngest

open Js GraphHead EventLoop

/-! ## Files -/

/-- The state directory: per signer suffix, the CIDs of `holds/<suffix>.json` and the
entries of `heads/<suffix>.json`. -/
structure Files where
  holds : AList fun _ : JsString => List JsString
  heads : AList fun _ : JsString => List (JsString × Json)

namespace Files

/-- No file. -/
def empty : Files := ⟨∅, ∅⟩

/-- `read-set`, also `:list`. -/
def readSet (f : Files) (suffix : JsString) : List JsString := (f.holds.lookup suffix).getD []

/-- `write!` of a hold file. -/
def writeSet (f : Files) (suffix : JsString) (cids : List JsString) : Files :=
  { f with holds := f.holds.insert suffix (sorted cids) }

/-- `:held?` of `file-holds`. -/
def held (f : Files) (suffix cid : JsString) : Bool := (f.readSet suffix).contains cid

/-- `:add!`. -/
def add (suffix cid : JsString) (f : Files) : Files :=
  f.writeSet suffix (conj (f.readSet suffix) cid)

/-- `:remove!`. -/
def remove (suffix cid : JsString) (f : Files) : Files :=
  f.writeSet suffix (disj (f.readSet suffix) cid)

/-- `:held-by-anyone?`. -/
def heldByAnyone (f : Files) (cid : JsString) : Bool :=
  f.holds.keys.any fun suffix => f.held suffix cid

/-- `read-all`, also `:heads`. -/
def readAll (f : Files) (suffix : JsString) : List (JsString × Json) :=
  (f.heads.lookup suffix).getD []

/-- `:head`: `null` when there is none. -/
def head (f : Files) (suffix name : JsString) : Json := Json.lookup name (f.readAll suffix)

/-- `:put-head!`. -/
def putHead (suffix name : JsString) (rec : Json) (f : Files) : Files :=
  { f with heads := f.heads.insert suffix (Json.assoc name rec (f.readAll suffix)) }

variable {f : Files} {suffix suffix' cid cid' name name' : JsString} {rec : Json}

@[simp] theorem heads_add : (f.add suffix cid).heads = f.heads := rfl
@[simp] theorem heads_remove : (f.remove suffix cid).heads = f.heads := rfl
@[simp] theorem holds_putHead : (f.putHead suffix name rec).holds = f.holds := rfl
@[simp] theorem head_add : (f.add suffix cid).head suffix' name = f.head suffix' name := rfl
@[simp] theorem head_remove : (f.remove suffix cid).head suffix' name = f.head suffix' name := rfl
@[simp] theorem held_putHead : (f.putHead suffix name rec).held suffix' cid = f.held suffix' cid := rfl

theorem readSet_writeSet {cids : List JsString} :
    (f.writeSet suffix cids).readSet suffix' =
      if suffix' = suffix then sorted cids else f.readSet suffix' := by
  unfold readSet writeSet
  split
  · subst suffix'
    rw [AList.lookup_insert]
    rfl
  · rename_i h
    rw [AList.lookup_insert_ne h]

theorem held_iff : f.held suffix cid = true ↔ cid ∈ f.readSet suffix := by
  simp [held]

/-- `add!` adds one CID to one signer's list. -/
theorem held_add : (f.add suffix cid).held suffix' cid' = true ↔
    (suffix' = suffix ∧ cid' = cid) ∨ f.held suffix' cid' = true := by
  rw [held_iff, held_iff, add, readSet_writeSet]
  split
  · subst suffix'
    simp
  · simp_all

/-- `remove!` removes one CID from one signer's list. -/
theorem held_remove : (f.remove suffix cid).held suffix' cid' = true ↔
    ¬ (suffix' = suffix ∧ cid' = cid) ∧ f.held suffix' cid' = true := by
  rw [held_iff, held_iff, remove, readSet_writeSet]
  split
  · subst suffix'
    simp [and_comm]
  · simp_all

theorem heldByAnyone_iff : f.heldByAnyone cid = true ↔ ∃ suffix, f.held suffix cid = true := by
  simp only [heldByAnyone, List.any_eq_true]
  constructor
  · rintro ⟨suffix, -, h⟩
    exact ⟨suffix, h⟩
  · rintro ⟨suffix, h⟩
    refine ⟨suffix, ?_, h⟩
    rw [← AList.mem_keys, ← AList.lookup_isSome]
    cases hl : f.holds.lookup suffix with
    | some _ => rfl
    | none => simp [held, readSet, hl] at h

/-- `put-head!` writes one head of one signer. -/
theorem head_putHead : (f.putHead suffix name rec).head suffix' name' =
    if suffix' = suffix ∧ name' = name then rec else f.head suffix' name' := by
  unfold head putHead readAll
  by_cases h : suffix' = suffix
  · subst h
    simp [AList.lookup_insert, Json.lookup_assoc]
  · simp [AList.lookup_insert_ne h, h]

end Files

/-! ## Kubo -/

/-- A hold: `/block-ingest/<suffix>/<cid>`, in MFS or in the signer's hold file. -/
structure Hold where
  suffix : JsString
  cid : JsString
deriving DecidableEq

/-- `hold-path`. -/
def holdPath (signer cid : JsString) : Hold := ⟨signer.drop 8, cid⟩

/-- The path of a hold. -/
def Hold.path (p : Hold) : JsString := js "/block-ingest/" ++ p.suffix ++ js "/" ++ p.cid

/-- The commands to Kubo. -/
inductive Cmd where
  | blockPut (codec : Codec) (buf : Bytes)
  | blockGet (cid : JsString)
  | pinAdd (cid : JsString)
  | pinRm (cid : JsString)
  | filesMkdir (suffix : JsString)
  | filesCp (p : Hold)
  | filesStat (p : Hold)
  | filesRm (p : Hold)
  | filesLs (suffix : JsString)
  | blockStat (timeoutS : Nat) (cid : JsString)
deriving DecidableEq

/-- A promise chain of the service. -/
abbrev Step (α : Type) := Task Files Cmd (fun _ => Proc) Err α

/-- Run a command. -/
def ipfs (c : Cmd) : Step Proc := Task.call c

/-- `(when-not c (throw e))`. -/
def ensure (c : Bool) (e : Err) : Step Unit := if c then .ret () else .throw e

/-- `pin!`. -/
def pin (cid : JsString) : Step Unit := do
  let r ← ipfs (.pinAdd cid)
  ensure (r.exited 0) (.unmeasured (js "pin add: " ++ trim r.err))

/-- Does `s` contain `t`? -/
def includes (s t : JsString) : Bool := s.tails.any t.isPrefixOf

/-- `mfs-hold!`. -/
def mfsHold (p : Hold) : Step Unit := do
  let _ ← ipfs (.filesMkdir p.suffix)
  let r ← ipfs (.filesCp p)
  ensure (r.exited 0 || includes r.err (js "already has entry"))
    (.unmeasured (js "files cp: " ++ trim r.err))

/-- `:hold!`. -/
def hold (p : Hold) : Step Unit :=
  if unixfs p.cid then mfsHold p
  else do
    pin p.cid
    Task.modify (Files.add p.suffix p.cid)

/-- `:put!`. -/
def put (codec : Codec) (buf : Bytes) : Step JsString := do
  let r ← ipfs (.blockPut codec buf)
  ensure (r.exited 0) (.unmeasured (js "block put: " ++ trim r.err))
  return trim (ofUtf8 r.out)

/-- `:held?`. -/
def held (p : Hold) : Step Bool :=
  if unixfs p.cid then do
    let r ← ipfs (.filesStat p)
    return r.exited 0
  else Task.reads fun f => f.held p.suffix p.cid

/-- `:release!`. -/
def release (p : Hold) : Step Bool :=
  if unixfs p.cid then do
    let r ← ipfs (.filesRm p)
    return r.exited 0
  else do
    Task.modify (Files.remove p.suffix p.cid)
    if ← Task.reads fun f => f.heldByAnyone p.cid then return true
    else do
      let _ ← ipfs (.pinRm p.cid)
      return true

/-- `:get`. -/
def getBlock (cid : JsString) : Step (Option Bytes) := do
  let r ← ipfs (.blockGet cid)
  return if r.exited 0 then some r.out else none

/-- The listing of a signer's holds: what `files ls` printed, with the hold file. -/
def listing (ls : Proc) (file : List JsString) : List JsString :=
  let entries := if ls.exited 0 then (splitLines (ofUtf8 ls.out)).filter rawCidRe else []
  sorted (entries.foldl conj file)

/-- `:holds`. -/
def holds (suffix : JsString) : Step (List JsString) := do
  let ls ← ipfs (.filesLs suffix)
  Task.reads fun f => listing ls (f.readSet suffix)

/-- `:hold-remote!`: hold a block that is, or will be, in Kubo. -/
def holdRemote (p : Hold) (timeoutS : Nat) : Step Unit := do
  let r ← ipfs (.blockStat timeoutS p.cid)
  ensure (r.exited 0) (.unmeasured (js "fetch " ++ p.cid ++ js ": " ++ trim r.err))
  hold p

/-! ## A Kubo that does what it is told -/

/-- The blocks a Kubo has, its direct pins, and the entries under `/block-ingest`. -/
structure Kubo where
  blocks : List (JsString × Bytes)
  pins : List JsString
  mfs : List Hold

/-- A fresh Kubo. -/
def Kubo.empty : Kubo := ⟨[], [], []⟩

/-- A process that has exited. -/
def exited (code : Int) (out : JsString) (err : JsString) : Proc := ⟨some code, utf8 out, err⟩

/-- What a command does and how its process ends. -/
def Kubo.exec (nc : NodeCrypto) (k : Kubo) : Cmd → Proc × Kubo
  | .blockPut codec buf =>
    (exited 0 (cidOf nc codec buf ++ js "\n") [],
      { k with blocks := (cidOf nc codec buf, buf) :: k.blocks })
  | .blockGet cid =>
    match k.blocks.lookup cid with
    | some buf => (⟨some 0, buf, []⟩, k)
    | none => (exited 1 [] (js "block was not found locally"), k)
  | .pinAdd cid => (exited 0 [] [], { k with pins := conj k.pins cid })
  | .pinRm cid =>
    (if cid ∈ k.pins then exited 0 [] [] else exited 1 [] (js "not pinned or pinned indirectly"),
      { k with pins := disj k.pins cid })
  | .filesMkdir _ => (exited 0 [] [], k)
  | .filesCp p =>
    if p ∈ k.mfs then (exited 1 [] (js "directory already has entry by that name"), k)
    else (exited 0 [] [], { k with mfs := p :: k.mfs })
  | .filesStat p => (if p ∈ k.mfs then exited 0 [] [] else exited 1 [] (js "file does not exist"), k)
  | .filesRm p =>
    (if p ∈ k.mfs then exited 0 [] [] else exited 1 [] (js "file does not exist"),
      { k with mfs := k.mfs.filter (· ≠ p) })
  | .filesLs suffix =>
    (exited 0 ((k.mfs.filter (·.suffix = suffix)).flatMap fun p => p.cid ++ js "\n") [], k)
  | .blockStat _ _ => (exited 0 [] [], k)

end BlockIngest
