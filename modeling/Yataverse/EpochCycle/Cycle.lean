import Yataverse.Machine.Run
import Mathlib.Logic.Function.Basic

/-!
# The epoch cycle

`lake_epoch_cycle` cuts the next epoch of the lake in thirteen steps over one work
directory. A step that completed is recorded in `cycle-state.json` and not repeated, so a
run that stopped is resumed by calling `run!` again.

- `Instr`, `body`: a step as the list of what it does: external commands, the files of the
  work directory whose presence it looks at, and what it records.
- `step`: one instruction of the running process, the start of a process, its death.
- `Safe`: what every way through the rest of a step keeps, and what its end establishes.

The contents of the files are not modelled: that a command succeeds stands for its own
checks as well (the two CIDs are equal, the readback is complete, the log covers the
listing).
-/

namespace EpochCycle

open Function

/-- The steps. -/
inductive Name where
  | head | capture | diff | resolve | delta | xavier | jacob | cids | manifest | submit | bundle
  | check | reader
deriving DecidableEq

/-- The steps in their order. -/
def steps : List Name :=
  [.head, .capture, .diff, .resolve, .delta, .xavier, .jacob, .cids, .manifest, .submit, .bundle,
    .check, .reader]

/-- `inv`: what the delta step records of `inventory.jsonl`: how many rows, and which are
large. -/
structure Inv where
  rows : Nat
  large : List Nat

/-- What `cycle-state.json` holds of the control flow. -/
structure Saved where
  done : List Name
  cutoff : Bool
  inv : Option Inv

/-- The state of a new work directory. -/
def Saved.new : Saved := ⟨[], false, none⟩

/-- What a step finds: the files of the work directory, the import receipts on jacob, and
the reader there. -/
inductive Fact where
  /-- `candidate-a.done`, `candidate-b.done` -/
  | walkDone (b : Bool)
  | diffReceipt
  | logResolved
  | logResolvedBefore
  /-- `row-N-jacob-import.json` -/
  | imported (row : Nat)
  /-- The reader's plist names the epoch. -/
  | plistEntry
  /-- The reader has been restarted with it: its `/health` reports the log. -/
  | readerServes
deriving DecidableEq

abbrev World := Fact → Bool

/-- These facts come about, one after the other. -/
def World.after (w : World) (fs : List Fact) : World := fs.foldl (fun w f => update w f true) w

/-- The external commands. -/
inductive Command where
  | verify | captureInventory (b : Bool) | diffInventory | resolveLog | lakeEpochDelta
  | copy (host file : String) | startReader | replicate | verifyLeaves
  | makeDirs | listRawCids | exportLarge (row : Nat) | importLarge (row : Nat) | ship | audit | readback
  | add (host : String) | lakeEpochManifest | submit | bundle | verifyBundle
  | compareListing | printPlist | editPlist | health

/-- What a command does to what the steps find, in its order. -/
def Command.effects : Command → List Fact
  | .diffInventory => [.diffReceipt]
  | .resolveLog => [.logResolved]
  | .importLarge row => [.imported row]
  | .editPlist => [.plistEntry, .readerServes]
  | _ => []

/-- One thing a step does. -/
inductive Instr where
  /-- A command whose failure throws. -/
  | call (c : Command)
  /-- A command whose failure is ignored (`:check? false`). -/
  | attempt (c : Command)
  /-- A command that is not run where the fact holds already. -/
  | callUnless (f : Fact) (c : Command)
  /-- Refuse without the fact. -/
  | need (f : Fact)
  | write (f : Fact)
  /-- `renameSync`, which throws where the file is missing. -/
  | rename (f g : Fact)
  /-- The cutoff is chosen once, and saved at once. -/
  | recordCutoff
  /-- The rows of `inventory.jsonl` go into the state. -/
  | recordInv

/-- `add-both!` -/
def addBoth (file : String) : List Instr :=
  [.call (.copy "xavier" file), .call (.copy "jacob" file), .call (.add "xavier"), .call (.add "jacob")]

/-- What `step-jacob` does for a large row. -/
def largeRow (row : Nat) : List Instr :=
  [.callUnless (.imported row) (.exportLarge row), .callUnless (.imported row) (.copy "jacob" "recovery.car"),
    .callUnless (.imported row) (.copy "jacob" "recovery.car.json"),
    .callUnless (.imported row) (.importLarge row)]

/-- The rows of the recorded inventory that are too large for a CAR. -/
def Saved.large (m : Saved) : List Nat := (m.inv.map Inv.large).getD []

/-- `step-fns`: what a step does, when it starts with the state `m`. The commands that run
in a `finally`, and the tunnel, concern no fact. -/
def body (m : Saved) : Name → List Instr
  | .head => [.call .verify]
  | .capture =>
    [.recordCutoff, .callUnless (.walkDone false) (.captureInventory false), .write (.walkDone false),
      .callUnless (.walkDone true) (.captureInventory true), .write (.walkDone true)]
  | .diff => [.attempt .diffInventory, .need .diffReceipt]
  | .resolve => [.call .resolveLog]
  | .delta => [.call .lakeEpochDelta, .recordInv]
  | .xavier =>
    [.call (.copy "xavier" "inventory.jsonl"), .call (.copy "xavier" "verify_lake_leaves.py"),
      .call (.copy "xavier" "raw_block_store.py"), .call (.copy "xavier" "serve_lake.py"),
      .call .startReader, .call .replicate, .call .verifyLeaves]
  | .jacob =>
    [.call (.copy "jacob" "inventory.jsonl"), .call .makeDirs, .call (.copy "xavier" "raw_block_store.py"),
      .call .listRawCids, .call (.copy "xavier" "export_large_lake_block.py")] ++
    m.large.flatMap largeRow ++ [.call .ship, .call .audit, .call .readback]
  | .cids => addBoth "inventory.jsonl"
  | .manifest => .call .lakeEpochManifest :: addBoth "manifest.json"
  | .submit => [.call .submit]
  | .bundle => [.call .bundle, .call .verifyBundle] ++ addBoth "bundle.json"
  | .check => [.rename .logResolved .logResolvedBefore, .call .resolveLog, .call .compareListing]
  | .reader =>
    [.call .printPlist, .callUnless .plistEntry .editPlist, .need .readerServes, .call .health]

/-! ## An instruction -/

/-- How the outside answers an instruction: whether its command succeeds, how many of its
effects a failed command has had and the exit code of the failure, and the delta's rows. -/
structure Reply where
  ok : Bool
  reached : Nat
  code : Nat
  inv : Inv

/-- Every command succeeds. -/
def Reply.success (inv : Inv) : Reply := ⟨true, 0, 0, inv⟩

/-- What an instruction leaves: what the steps find, the state in memory, whether it saves
it, and the exit code if it throws. -/
structure Result where
  world : World
  mem : Saved
  save : Bool
  threw : Option Nat

/-- A command is run. -/
def Command.run (c : Command) (r : Reply) (w : World) : World :=
  w.after (if r.ok then c.effects else c.effects.take r.reached)

/-- A failed command throws, with 1 or 3. -/
def Reply.threw (r : Reply) : Option Nat := if r.ok then none else some (if r.code = 1 then 1 else 3)

/-- One instruction. -/
def Instr.run (i : Instr) (r : Reply) (w : World) (m : Saved) : Result :=
  match i with
  | .call c => ⟨c.run r w, m, false, r.threw⟩
  | .attempt c => ⟨c.run r w, m, false, none⟩
  | .callUnless f c => if w f then ⟨w, m, false, none⟩ else ⟨c.run r w, m, false, r.threw⟩
  | .need f => ⟨w, m, false, if w f then none else some 1⟩
  | .write f => ⟨update w f true, m, false, none⟩
  | .rename f g =>
    if w f then ⟨update (update w g true) f false, m, false, none⟩ else ⟨w, m, false, some 3⟩
  | .recordCutoff => if m.cutoff then ⟨w, m, false, none⟩ else ⟨w, { m with cutoff := true }, true, none⟩
  | .recordInv => ⟨w, { m with inv := some r.inv }, false, none⟩

/-! ## The machine -/

/-- A process in a step: the state in memory, where `--until` stops it, the step, what is
left of it, and the steps behind it. -/
structure Proc where
  mem : Saved
  stop : Option Name
  name : Name
  todo : List Instr
  rest : List Name

/-- What the steps find, the state file, the process if one runs, and the exit code of the
last one that exited. -/
structure State where
  world : World
  disk : Saved
  proc : Option Proc
  exit : Option Nat

/-- A new work directory; jacob may hold large blocks already. -/
def State.start (imported : Nat → Bool) : State where
  world
    | .imported row => imported row
    | _ => false
  disk := .new
  proc := none
  exit := none

/-- The process exits. -/
def exited (w : World) (disk : Saved) (code : Nat) : State := ⟨w, disk, none, some code⟩

/-- The loop of `run!`: the next step that is not done, or the end. -/
def enter (w : World) (disk mem : Saved) (stop : Option Name) : List Name → State
  | [] => exited w disk 0 -- COMMITTED
  | n :: rest =>
    if mem.done.contains n then enter w disk mem stop rest
    else ⟨w, disk, some ⟨mem, stop, n, body mem n, rest⟩, none⟩

/-- A step has completed: it is recorded and saved, and the loop goes on or ends. -/
def Proc.finish (p : Proc) (w : World) : State :=
  let mem := { p.mem with done := p.mem.done ++ [p.name] }
  if p.name = .delta ∧ mem.inv.map Inv.rows = some 0 then exited w mem 0 -- NOTHING
  else if some p.name = p.stop then exited w mem 0
  else enter w mem mem p.stop p.rest

/-- The process runs its next instruction. An exception saves the state and exits. -/
def Proc.next (p : Proc) (r : Reply) (s : State) : State :=
  match p.todo with
  | [] => p.finish s.world
  | i :: is =>
    let res := i.run r s.world p.mem
    match res.threw with
    | some code => exited res.world res.mem code
    | none =>
      ⟨res.world, if res.save then res.mem else s.disk, some { p with mem := res.mem, todo := is }, none⟩

/-- What happens next: `run!` is called, its process goes on, or it is killed. -/
inductive Label where
  | invoke (stop : Option Name)
  | next (r : Reply)
  | kill

/-- One step of the machine. -/
def step (s : State) : Label → Option State
  | .invoke stop => if s.proc.isNone then some (enter s.world s.disk s.disk stop steps) else none
  | .next r => s.proc.map fun p => p.next r s
  | .kill => if s.proc.isSome then some { s with proc := none, exit := none } else none

/-! ## The order of the steps -/

/-- The process that begins the first of the remaining steps, if there is one. -/
def begin (w : World) (disk mem : Saved) (stop : Option Name) : List Name → State
  | [] => exited w disk 0
  | n :: rest => ⟨w, disk, some ⟨mem, stop, n, body mem n, rest⟩, none⟩

/-- The recorded steps are the first ones, and a process is in the step behind them. -/
structure InOrder (s : State) : Prop where
  disk : ∃ rest, s.disk.done ++ rest = steps
  proc : ∀ p, s.proc = some p → p.mem.done = s.disk.done ∧ p.mem.done ++ p.name :: p.rest = steps

section

variable {s s' : State} {w : World} {disk mem : Saved} {stop : Option Name} {pre rest : List Name}
  {p : Proc} {i : Instr} {r : Reply} {m : Saved}

theorem enter_append (h : ∀ n ∈ pre, n ∈ mem.done) :
    enter w disk mem stop (pre ++ rest) = enter w disk mem stop rest := by
  induction pre with
  | nil => rfl
  | cons n pre ih =>
    rw [List.cons_append, enter, if_pos (List.contains_iff_mem.mpr (h n (.head pre)))]
    exact ih fun k hk => h k (.tail n hk)

theorem steps_nodup : steps.Nodup := by decide

/-- The loop begins the first step that is not recorded. -/
theorem enter_rest (h : mem.done ++ rest = steps) : enter w disk mem stop rest = begin w disk mem stop rest := by
  cases rest with
  | nil => rfl
  | cons n rest =>
    have hn : n ∉ mem.done := by
      have := steps_nodup
      rw [← h] at this
      exact fun hd => (List.nodup_append.mp this).2.2 n hd n (.head rest) rfl
    rw [enter, if_neg (mt List.contains_iff_mem.mp hn), begin]

theorem enter_steps (h : mem.done ++ rest = steps) : enter w disk mem stop steps = begin w disk mem stop rest := by
  rw [← enter_rest h, ← h]
  exact enter_append fun _ hn => hn

@[simp] theorem begin_disk : (begin w disk mem stop rest).disk = disk := by cases rest <;> rfl

@[simp] theorem begin_world : (begin w disk mem stop rest).world = w := by cases rest <;> rfl

theorem begin_proc (hp : (begin w disk mem stop rest).proc = some p) :
    ∃ n rest', rest = n :: rest' ∧ p = ⟨mem, stop, n, body mem n, rest'⟩ := by
  cases rest with
  | nil => cases hp
  | cons n rest => exact ⟨n, rest, rfl, (Option.some.inj hp).symm⟩

theorem InOrder.start {imported : Nat → Bool} : InOrder (State.start imported) where
  disk := ⟨steps, rfl⟩
  proc p hp := by cases hp

theorem InOrder.begin (h : mem.done ++ rest = steps) (hd : mem.done = disk.done) :
    InOrder (begin w disk mem stop rest) where
  disk := ⟨rest, by rw [begin_disk, ← hd, h]⟩
  proc p hp := by
    obtain ⟨n, rest', rfl, rfl⟩ := begin_proc hp
    exact ⟨by rw [begin_disk, hd], h⟩

theorem InOrder.exited {code : Nat} (h : ∃ rest, disk.done ++ rest = steps) : InOrder (exited w disk code) where
  disk := h
  proc p hp := by cases hp

@[simp] theorem Instr.run_done : (i.run r w m).mem.done = m.done := by
  cases i <;> simp only [Instr.run] <;> split <;> rfl

theorem InOrder.next (h : InOrder s) (hp : s.proc = some p) (r : Reply) : InOrder (p.next r s) := by
  obtain ⟨hd, hsplit⟩ := h.proc p hp
  unfold Proc.next
  cases p.todo with
  | nil =>
    have hrest : (p.mem.done ++ [p.name]) ++ p.rest = steps := by rw [List.append_assoc, ← hsplit]; rfl
    dsimp only
    unfold Proc.finish
    dsimp only
    split
    · exact .exited ⟨p.rest, hrest⟩
    · split
      · exact .exited ⟨p.rest, hrest⟩
      · rw [enter_rest hrest]
        exact .begin hrest rfl
  | cons i is =>
    dsimp only
    split
    · exact .exited ⟨p.name :: p.rest, by rw [Instr.run_done, hsplit]⟩
    · refine ⟨?_, ?_⟩
      · refine ⟨p.name :: p.rest, ?_⟩
        dsimp only
        split
        · rw [Instr.run_done, hsplit]
        · rw [← hd, hsplit]
      · intro q hq
        obtain rfl := Option.some.inj hq
        refine ⟨?_, ?_⟩
        · dsimp only
          split
          · rfl
          · rw [Instr.run_done, hd]
        · rw [Instr.run_done, hsplit]

/-- **Every step** keeps the order. -/
theorem InOrder.step {a : Label} (h : InOrder s) (hs : step s a = some s') : InOrder s' := by
  cases a with
  | invoke stop =>
    obtain ⟨-, hs⟩ := Option.ite_none_right_eq_some.mp hs
    obtain rfl := Option.some.inj hs
    obtain ⟨rest, hrest⟩ := h.disk
    rw [enter_steps hrest]
    exact .begin hrest rfl
  | next r =>
    obtain ⟨p, hp, rfl⟩ := Option.map_eq_some_iff.mp hs
    exact h.next hp r
  | kill =>
    obtain ⟨-, hs⟩ := Option.ite_none_right_eq_some.mp hs
    obtain rfl := Option.some.inj hs
    exact ⟨h.disk, fun p hp => by cases hp⟩

end

/-! ## What a step keeps -/

/-- Every way through the instructions keeps `E`, also where one throws, and its end
establishes `Q`. -/
def Safe (E Q : World → Prop) : List Instr → World → Saved → Prop
  | [], w, _ => E w ∧ Q w
  | i :: is, w, m => E w ∧ ∀ r, E (i.run r w m).world ∧
      ((i.run r w m).threw = none → Safe E Q is (i.run r w m).world (i.run r w m).mem)

variable {E Q : World → Prop} {is : List Instr} {i : Instr} {w w' : World} {m : Saved} {r : Reply}

theorem Safe.now (h : Safe E Q is w m) : E w := by
  cases is with
  | nil => exact h.1
  | cons i is => exact h.1

theorem Safe.imp {Q' : World → Prop} (hQ : ∀ w, Q w → Q' w) (h : Safe E Q is w m) : Safe E Q' is w m := by
  induction is generalizing w m with
  | nil => exact ⟨h.1, hQ w h.2⟩
  | cons i is ih => exact ⟨h.1, fun r => ⟨(h.2 r).1, fun ht => ih ((h.2 r).2 ht)⟩⟩

@[simp] theorem threw_eq_none : r.threw = none ↔ r.ok = true := by
  unfold Reply.threw
  split <;> simp_all

theorem Safe.call {c : Command} (hE : E w)
    (h : ∀ r, E (c.run r w) ∧ (r.ok = true → Safe E Q is (c.run r w) m)) :
    Safe E Q (.call c :: is) w m :=
  ⟨hE, fun r => ⟨(h r).1, fun ht => (h r).2 (threw_eq_none.mp ht)⟩⟩

/-- A command that does nothing to what the steps find. -/
theorem Safe.call_idle {c : Command} (hc : c.effects = []) (h : Safe E Q is w m) :
    Safe E Q (.call c :: is) w m := by
  have hrun : ∀ r, c.run r w = w := by
    intro r
    unfold Command.run
    rw [hc, List.take_nil, ite_self]
    rfl
  refine .call h.now fun r => ?_
  rw [hrun r]
  exact ⟨h.now, fun _ => h⟩

theorem Safe.callUnless {f : Fact} {c : Command} (hE : E w) (hskip : w f = true → Safe E Q is w m)
    (h : w f = false → ∀ r, E (c.run r w) ∧ (r.ok = true → Safe E Q is (c.run r w) m)) :
    Safe E Q (.callUnless f c :: is) w m := by
  refine ⟨hE, fun r => ?_⟩
  unfold Instr.run
  dsimp only
  cases hf : w f with
  | true => exact ⟨hE, fun _ => hskip hf⟩
  | false => exact ⟨(h hf r).1, fun ht => (h hf r).2 (threw_eq_none.mp ht)⟩

theorem Safe.need {f : Fact} (hE : E w) (h : w f = true → Safe E Q is w m) :
    Safe E Q (.need f :: is) w m := by
  refine ⟨hE, fun r => ⟨hE, fun ht => h ?_⟩⟩
  simpa [Instr.run] using ht

theorem Safe.rename {f g : Fact} (hE : E w)
    (h : w f = true → Safe E Q is (update (update w g true) f false) m) :
    Safe E Q (.rename f g :: is) w m := by
  refine ⟨hE, fun r => ?_⟩
  unfold Instr.run
  dsimp only
  cases hf : w f with
  | true => exact ⟨(h hf).now, fun _ => h hf⟩
  | false => exact ⟨hE, fun ht => by simp at ht⟩

/-- A fact that an instruction may change. -/
def Instr.touches (f : Fact) : Instr → Bool
  | .call c | .attempt c | .callUnless _ c => c.effects.contains f
  | .write g => f = g
  | .rename g h => f = g || f = h
  | .need _ | .recordCutoff | .recordInv => false

@[simp] theorem after_nil : w.after [] = w := rfl

@[simp] theorem after_cons {f : Fact} {fs : List Fact} : w.after (f :: fs) = World.after (update w f true) fs := rfl

theorem after_of_not_mem {f : Fact} {fs : List Fact} (h : f ∉ fs) : w.after fs f = w f := by
  induction fs generalizing w with
  | nil => rfl
  | cons g fs ih =>
    rw [after_cons, ih fun hf => h (.tail g hf)]
    refine update_of_ne ?_ ..
    rintro rfl
    exact h (.head fs)

theorem Command.run_of_not_mem {c : Command} {f : Fact} (h : f ∉ c.effects) : c.run r w f = w f := by
  unfold Command.run
  split
  · exact after_of_not_mem h
  · exact after_of_not_mem fun hf => h (List.mem_of_mem_take hf)

/-- An instruction leaves alone what it does not touch. -/
theorem Instr.run_of_not_touches {f : Fact} (h : i.touches f = false) : (i.run r w m).world f = w f := by
  cases i with
  | call c | attempt c =>
    exact Command.run_of_not_mem (by simpa [Instr.touches] using h)
  | callUnless g c =>
    have hc : f ∉ c.effects := by simpa [Instr.touches] using h
    unfold Instr.run
    dsimp only
    split
    · rfl
    · exact Command.run_of_not_mem hc
  | need g => rfl
  | write g =>
    have hfg : f ≠ g := by simpa [Instr.touches] using h
    exact update_of_ne hfg ..
  | rename g k =>
    have hfg : f ≠ g ∧ f ≠ k := by simpa [Instr.touches] using h
    unfold Instr.run
    dsimp only
    split
    · show update (update w k true) g false f = w f
      rw [update_of_ne hfg.1, update_of_ne hfg.2]
    · rfl
  | recordCutoff =>
    unfold Instr.run
    dsimp only
    split <;> rfl
  | recordInv => rfl

/-- Instructions that touch none of the facts `E` speaks about. -/
theorem Safe.quiet {fs : List Fact} (hE : ∀ w w' : World, (∀ f ∈ fs, w' f = w f) → E w → E w')
    (hq : ∀ i ∈ is, ∀ f ∈ fs, i.touches f = false) (h : E w) : Safe E E is w m := by
  induction is generalizing w m with
  | nil => exact ⟨h, h⟩
  | cons i is ih =>
    refine ⟨h, fun r => ?_⟩
    have hi : E (i.run r w m).world :=
      hE w _ (fun f hf => Instr.run_of_not_touches (hq i (.head is) f hf)) h
    exact ⟨hi, fun _ => ih (fun j hj => hq j (.tail i hj)) hi⟩

end EpochCycle
