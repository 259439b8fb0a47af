import Yataverse.EventLoop.Answered
import Yataverse.Js.Json

/-!
# The checkpoint of the replication

`state_load` and `state_save` of `replicate_lake.py`, and the files of the state directory.
The text of a file is what `json` reads and writes; what the checkpoint holds besides the
members that the program knows is kept as it is.

- `Document`, `State`: the object in the file, and a checkpoint that `state_load` accepts.
- `Codec`: `json.loads` and `json.dump`.
- `Files`: the checkpoint, its temporary file, and its backups.
- `stateLoad`, `stateSave`: as in the source.
-/

namespace Replicate

open Js EventLoop

/-! ## The object in the file -/

/-- A value of JSON, as Python has it. -/
inductive Value where
  | null
  | bool (b : Bool)
  | int (n : Int)
  | float (x : Number)
  | str (s : JsString)
  | other (text : JsString)
deriving DecidableEq

/-- `value == 1`. -/
def Value.isOne : Value → Bool
  | .int 1 | .bool true | .float (.int 1) => true
  | _ => false

variable (Rest : Type)

/-- A JSON object: the members that the program reads, and the others. -/
structure Document where
  schema : Option Value
  cursor : Option Value
  cycles : Option Value
  pagesTotal : Option Value
  newBlocksTotal : Option Value
  newBytesTotal : Option Value
  listingSource : Option Value
  others : Rest
deriving DecidableEq

/-- A checkpoint. -/
structure State where
  schema : { v : Value // v.isOne = true }
  cursor : Option JsString
  cycles : Nat
  pagesTotal : Nat
  newBlocksTotal : Nat
  newBytesTotal : Nat
  listingSource : Option Value
  others : Rest

variable {Rest}

/-- `None`, or a string. -/
def ofCursor : Option JsString → Value
  | none => .null
  | some s => .str s

/-- The object of a checkpoint. -/
def State.document (state : State Rest) : Document Rest where
  schema := some state.schema.1
  cursor := some (ofCursor state.cursor)
  cycles := some (.int state.cycles)
  pagesTotal := some (.int state.pagesTotal)
  newBlocksTotal := some (.int state.newBlocksTotal)
  newBytesTotal := some (.int state.newBytesTotal)
  listingSource := state.listingSource
  others := state.others

/-- The checkpoint that there is before the first one is saved. -/
def State.start (others : Rest) : State Rest := ⟨⟨.int 1, rfl⟩, none, 0, 0, 0, 0, none, others⟩

/-- What is raised. -/
inductive Error where
  | replication (message : String)
  | os
deriving DecidableEq

/-- A cursor is `None` or a string. -/
def cursor? : Value → Except Error (Option JsString)
  | .null => .ok none
  | .str s => .ok (some s)
  | _ => .error (.replication "checkpoint cursor is invalid")

/-- A counter is an integer, and not negative. -/
def counter? : Value → Except Error Nat
  | .int (.ofNat n) => .ok n
  | _ => .error (.replication "checkpoint counters are invalid")

/-- The checks of `state_load`. -/
def Document.check (d : Document Rest) : Except Error (State Rest) :=
  match d.schema, d.cursor, d.cycles, d.pagesTotal, d.newBlocksTotal, d.newBytesTotal with
  | some schema, some cursor, some cycles, some pagesTotal, some newBlocksTotal, some newBytesTotal =>
    if h : schema.isOne = true then do
      let cursor ← cursor? cursor
      let cycles ← counter? cycles
      let pagesTotal ← counter? pagesTotal
      let newBlocksTotal ← counter? newBlocksTotal
      let newBytesTotal ← counter? newBytesTotal
      return ⟨⟨schema, h⟩, cursor, cycles, pagesTotal, newBlocksTotal, newBytesTotal, d.listingSource, d.others⟩
    else .error (.replication "checkpoint has unknown schema")
  | _, _, _, _, _, _ => .error (.replication "checkpoint has unknown schema")

/-- A checkpoint passes the checks. -/
theorem check_document (state : State Rest) : state.document.check = .ok state := by
  obtain ⟨⟨schema, hschema⟩, cursor, cycles, pagesTotal, newBlocksTotal, newBytesTotal, listingSource, others⟩ := state
  dsimp only [Document.check, State.document]
  rw [dif_pos hschema]
  cases cursor <;> rfl

/-! ## Files -/

/-- The texts of JSON files: `loads` is `json.loads`, where the text is that of an object,
`dumps` is `json.dump` with the line end, and `start` the first bytes of a text. -/
structure Codec (Text Rest : Type) where
  loads : Text → Option (Document Rest)
  dumps : Document Rest → Text
  reads_back : ∀ d, loads (dumps d) = some d
  start : Nat → Text → Text

/-- The backups of a checkpoint: `checkpoint.pre-local-inventory.json`, and
`checkpoint.pre-inventory-<sha256>.json`. -/
inductive Backup where
  | preLocal
  | preInventory (sha256 : JsString)
deriving DecidableEq

variable {Text : Type}

/-- The state directory: `checkpoint.json`, `checkpoint.json.tmp` and the backups. -/
structure Files (Text : Type) where
  checkpoint : Option Text
  temp : Option Text
  backups : Backup → Option Text

/-- The temporary file gets a text. -/
def Files.putTemp (text : Text) (s : Files Text) : Files Text := { s with temp := some text }

/-- A backup gets a text. -/
def Files.putBackup (name : Backup) (text : Text) (s : Files Text) : Files Text :=
  { s with backups := fun b => if b = name then some text else s.backups b }

theorem Files.putTemp_putTemp (a b : Text) (s : Files Text) : putTemp a (putTemp b s) = putTemp a s := rfl

theorem Files.putBackup_putBackup (name : Backup) (a b : Text) (s : Files Text) :
    putBackup name a (putBackup name b s) = putBackup name a s := by
  unfold putBackup
  congr 1
  funext c
  by_cases h : c = name
  · rw [if_pos h, if_pos h]
  · rw [if_neg h, if_neg h]
    exact if_neg h

@[simp] theorem Files.putBackup_backups (name : Backup) (text : Text) (s : Files Text) :
    (putBackup name text s).backups name = some text := if_pos rfl

@[simp] theorem Files.putBackup_checkpoint (name : Backup) (text : Text) (s : Files Text) :
    (putBackup name text s).checkpoint = s.checkpoint := rfl

/-- The operations on them. -/
inductive Op where
  | openBackup
  | writeBackup
  | fsyncBackup
  | openTemp
  | writeTemp
  | fsyncTemp
  | replace
deriving DecidableEq

/-- What becomes of the operations of a call: `ok` says which of them are made, and `part` how
much of a text gets into its file where the writing is cut off. Nothing in the source catches
what they raise, so this is also a call that is killed there. -/
structure Fate where
  ok : Op → Bool
  part : Nat

/-- Nothing fails. -/
def Fate.fine : Fate := ⟨fun _ => true, 0⟩

abbrev Call (Text : Type) := Task (Files Text) Op (fun _ => Bool) Error

def perform (op : Op) : Call Text Unit := Task.attempt (fun _ => .os) op

/-- A computation of the tool. -/
def lift {α : Type} (x : Except Error α) : Call Text α :=
  match x with
  | .ok a => .ret a
  | .error e => .throw e

/-- A file is opened, and a text is written into it, or a part of the text. -/
def writeFile (fate : Fate) (codec : Codec Text Rest) (openOp writeOp fsyncOp : Op)
    (put : Text → Files Text → Files Text) (text : Text) : Call Text Unit := do
  perform openOp
  Task.modify (put (codec.start 0 text))
  .await writeOp fun ok =>
    if ok then .upd (put text) (.ret ())
    else .upd (put (codec.start fate.part text)) (.throw .os)
  perform fsyncOp

/-- What `state_load` makes of the checkpoint. One that is not there has the other members
`plain`. -/
def loadText (codec : Codec Text Rest) (plain : Rest) : Option Text → Except Error (State Rest)
  | none => .ok (State.start plain)
  | some text =>
    match codec.loads text with
    | none => .error (.replication "checkpoint unreadable")
    | some d => d.check

/-- `state_load`. -/
def stateLoad (codec : Codec Text Rest) (plain : Rest) : Call Text (State Rest) :=
  .get fun s => lift (loadText codec plain s.checkpoint)

/-- `state_save`. -/
def stateSave (fate : Fate) (codec : Codec Text Rest) (state : State Rest) : Call Text Unit := do
  writeFile fate codec .openTemp .writeTemp .fsyncTemp Files.putTemp (codec.dumps state.document)
  perform .replace
  Task.modify fun s => { s with checkpoint := s.temp, temp := none }

/-! ## Runs -/

section Runs

open Task

variable {ok : Op → Bool} {fate : Fate} {codec : Codec Text Rest} {plain : Rest} {s : Files Text} {state : State Rest}

/-- A saved checkpoint is read back. -/
theorem loadText_dumps : loadText codec plain (some (codec.dumps state.document)) = .ok state := by
  rw [loadText, codec.reads_back]
  exact check_document state

theorem eval_lift {α : Type} {x : Except Error α} : (lift x : Call Text α).eval ok s = (s, x) := by
  cases x <;> rfl

theorem eval_stateLoad : (stateLoad codec plain).eval ok s = (s, loadText codec plain s.checkpoint) := eval_lift

/-- A file is written over, whole or in part, or it is as it was. -/
theorem eval_writeFile {openOp writeOp fsyncOp : Op} {put : Text → Files Text → Files Text} {text : Text}
    (hput : ∀ a b s, put a (put b s) = put a s) :
    (writeFile fate codec openOp writeOp fsyncOp put text).eval fate.ok s =
      if fate.ok openOp = true then
        if fate.ok writeOp = true then (put text s, if fate.ok fsyncOp = true then .ok () else .error .os)
        else (put (codec.start fate.part text) s, .error .os)
      else (s, .error .os) := by
  rw [writeFile, bind_eq, eval_bind, perform, eval_attempt]
  by_cases ho : fate.ok openOp = true
  · rw [if_pos ho, if_pos ho]
    dsimp only
    rw [bind_eq, eval_bind, Task.modify, eval_upd, eval_ret]
    dsimp only
    rw [bind_eq, eval_bind, eval_await]
    by_cases hw : fate.ok writeOp = true
    · rw [if_pos hw, if_pos hw, eval_upd, eval_ret, hput]
      exact eval_attempt
    · rw [if_neg hw, if_neg hw, eval_upd, eval_throw, hput]
  · rw [if_neg ho, if_neg ho]

/-- `state_save` replaces the checkpoint, or touches only its temporary file. -/
theorem eval_stateSave {r : Files Text × Except Error Unit} (hr : (stateSave fate codec state).eval fate.ok s = r) :
    r.1.backups = s.backups ∧
    (r.1.checkpoint = s.checkpoint ∧ r.2 = .error .os ∨
      r.1.checkpoint = some (codec.dumps state.document) ∧ r.2 = .ok ()) := by
  rw [stateSave, bind_eq, eval_bind, eval_writeFile Files.putTemp_putTemp] at hr
  by_cases ho : fate.ok .openTemp = true
  · rw [if_pos ho] at hr
    by_cases hw : fate.ok .writeTemp = true
    · rw [if_pos hw] at hr
      by_cases hf : fate.ok .fsyncTemp = true
      · rw [if_pos hf] at hr
        dsimp only at hr
        rw [bind_eq, eval_bind, perform, eval_attempt] at hr
        by_cases hrep : fate.ok .replace = true
        · rw [if_pos hrep] at hr
          subst hr
          exact ⟨rfl, .inr ⟨rfl, rfl⟩⟩
        · rw [if_neg hrep] at hr
          subst hr
          exact ⟨rfl, .inl ⟨rfl, rfl⟩⟩
      · rw [if_neg hf] at hr
        subst hr
        exact ⟨rfl, .inl ⟨rfl, rfl⟩⟩
    · rw [if_neg hw] at hr
      subst hr
      exact ⟨rfl, .inl ⟨rfl, rfl⟩⟩
  · rw [if_neg ho] at hr
    subst hr
    exact ⟨rfl, .inl ⟨rfl, rfl⟩⟩

/-- Where nothing fails, the checkpoint is saved. -/
theorem eval_stateSave_fine : (stateSave .fine codec state).eval Fate.fine.ok s =
    ({ s with checkpoint := some (codec.dumps state.document), temp := none }, .ok ()) := by
  rw [stateSave, bind_eq, eval_bind, eval_writeFile Files.putTemp_putTemp]
  rfl

end Runs

end Replicate
