import Yataverse.Replicate.Simulate

/-!
# The replication skips no row

Calls of `run_batch` one after the other, each with its own budgets, each killed anywhere or run
to its end, whatever Kubo, the source and the files answer and whatever other processes do to the
repository.

- `Invocation`: a call, and when it is killed.
- `safe_runBatch`: at every moment of a call the disk stands for a sound progress.
- **`never_skips`**: the rows in front of the saved cursor are durable, all rows are once a cycle
  has been counted, and every receipt is of a durable block.
-/

namespace Replicate.Batch

open Js GraphHead Lake EventLoop EventLoop.Task

section Calls

variable {Text Rest : Type} [DecidableEq Text] {site : Site Text Rest} {d : Disk Text} {args : Args} {part : Nat}

/-- A call of the program: its arguments, how much of a text a failed write leaves, what the
outside answers, and after how many operations it is killed, if it is. -/
structure Invocation where
  args : Args
  part : Nat
  answer : Nat → (c : Command) → Answer c
  killed : Option Nat

/-- The disk that a call leaves. -/
def Invocation.leaves (site : Site Text Rest) (call : Invocation) (d : Disk Text) : Disk Text :=
  match call.killed with
  | some n => ((runBatch site call.part call.args).upTo call.answer n 0 d).1
  | none => ((runBatch site call.part call.args).finish call.answer 0 d).1

/-- The disk behind a list of calls. -/
def afterCalls (site : Site Text Rest) (calls : List Invocation) (d : Disk Text) : Disk Text :=
  calls.foldl (fun d call => call.leaves site d) d

/-- A disk that stands for a progress without a gap. -/
def Gapless (site : Site Text Rest) (d : Disk Text) : Prop :=
  ∃ p, Tracks site d p ∧ p.Sound site.blocks site.inventory.entries

omit [DecidableEq Text] in
theorem Simulates.keeps_gapless {d' : Disk Text} (h : Simulates site d d') (hd : Gapless site d) : Gapless site d' := by
  obtain ⟨p, hp, hsound⟩ := hd
  obtain ⟨q, hreach, hq⟩ := h p hp
  exact ⟨q, hq, hreach.sound hsound⟩

omit [DecidableEq Text] in
/-- A cursor outside the inventory is refused by the reader. -/
theorem safe_outside {state : State Rest} {k : Nat} (hposition : Inventory.position state.cursor = some k)
    (hk : ¬k < site.inventory.entries.length) :
    (batchFrom site part args state).Safe (Quiet d) (Ends True fun _ _ => True) d := by
  refine Safe.quiet_seq safe_preflight fun kubo d₁ _ _ => ?_
  cases args.maxPages with
  | zero => exact safe_ret trivial
  | succ turns =>
    have hpage : ∃ message, site.inventory.page k = .error message := by
      refine ⟨"cursor outside inventory", ?_⟩
      have hrows : site.inventory.rows k pageSize = .error "cursor outside inventory" := by
        rw [Inventory.rows, Fallible.require, if_neg hk]
        rfl
      rw [Inventory.page, hrows]
      rfl
    have hlisting : (fetchListing site.inventory state.cursor).Safe (Quiet d₁) (Ends True fun _ _ => False) d₁ := by
      refine Safe.quiet_seq (safe_request rfl) fun _ d₂ _ _ => ?_
      obtain ⟨message, hmessage⟩ := hpage
      rw [served_sent hposition, hmessage]
      exact ⟨.refl _, .inr trivial⟩
    have hturn : (onePage site part args ⟨state, kubo, 0, 0, 0, 0⟩).Safe (Quiet d₁) (Ends True fun _ _ => False) d₁ :=
      Safe.quiet_seq hlisting fun _ _ _ hf => hf.elim
    exact Safe.quiet_seq hturn fun _ _ _ hf => hf.elim

omit [DecidableEq Text] in
/-- The disk with another checkpoint that is no further. -/
theorem gapless_files {files : Files Text} {state state' : State Rest} (hd : Gapless site d)
    (hload : loadText site.codec site.plain d.files.checkpoint = .ok state)
    (hload' : loadText site.codec site.plain files.checkpoint = .ok state') (hmarked : Marked site.inventory state')
    (hcursor : state'.cursor = state.cursor) (hcycles : state'.cycles = state.cycles) :
    Gapless site { d with files := files } := by
  obtain ⟨p, ⟨old, k, hold, -, hposition, rfl⟩, hsound⟩ := hd
  obtain rfl := Except.ok.inj (hload.symm.trans hold)
  refine ⟨_, ⟨state', k, hload', hmarked, hcursor ▸ hposition, rfl⟩, ?_⟩
  rw [progressOf, hcycles]
  exact hsound

/-- **At every moment of a call** the disk is without a gap. -/
theorem safe_runBatch (hpinned : Pinned site.inventory.sha256 args.listing) (hd : Gapless site d) :
    (runBatch site part args).Safe (Gapless site) (fun _ _ => True) d := by
  obtain ⟨_, ⟨state, k, hload, hmarked, hposition, -⟩, -⟩ := id hd
  have hprepare := @safe_prepare Text Rest site d state _ args part hload
  refine Safe.bind (hprepare.imp ?_ fun _ _ h => h) (fun _ _ _ => trivial) ?_
  · rintro d' ⟨files, rfl, hsame | ⟨plan, hplan, hnew⟩⟩
    · exact (simulates_files hsame).keeps_gapless hd
    · exact gapless_files hd hload hnew (.inl (hpinned.apply hplan).1) (hpinned.apply_cursor hmarked hplan)
        plan.apply_cycles
  · rintro _ d₁ hd₁ ⟨plan, hplan, rfl, hload₁⟩
    have hposition₁ : Inventory.position (plan.apply state).cursor = some k := by
      rw [hpinned.apply_cursor hmarked hplan]
      exact hposition
    obtain ⟨hsource, hnumeric⟩ := hpinned.apply hplan
    by_cases hk : k < site.inventory.entries.length
    · exact (safe_batchFrom hload₁ ⟨hsource, hnumeric, hposition₁⟩ hk).imp
        (fun d' h => h.simulates.keeps_gapless hd₁) fun _ _ _ => trivial
    · exact (safe_outside hposition₁ hk).imp (fun d' h => h.simulates.keeps_gapless hd₁) fun _ _ _ => trivial

theorem Invocation.keeps_gapless {call : Invocation} (hpinned : Pinned site.inventory.sha256 call.args.listing)
    (hd : Gapless site d) : Gapless site (call.leaves site d) := by
  have hsafe : (runBatch site call.part call.args).Safe (Gapless site) (fun _ _ => True) d := safe_runBatch hpinned hd
  rw [leaves]
  cases call.killed with
  | some n => exact hsafe.upTo.1
  | none => exact hsafe.finish.1

theorem afterCalls_gapless {calls : List Invocation}
    (hpinned : ∀ call ∈ calls, Pinned site.inventory.sha256 call.args.listing) (hd : Gapless site d) :
    Gapless site (afterCalls site calls d) := by
  induction calls generalizing d with
  | nil => exact hd
  | cons call calls ih =>
    refine ih (fun c hc => hpinned c (List.mem_cons_of_mem _ hc)) ?_
    exact Invocation.keeps_gapless (hpinned call (List.mem_cons_self ..)) hd

/-- **No row is skipped**: from a fresh checkpoint on, and behind any calls, the rows in front of the
saved cursor are durable with their sizes, all rows are from the first counted cycle on, and every
receipt is of a durable block. -/
theorem never_skips (site : Site Text Rest) (calls : List Invocation) (d : Disk Text)
    (hpinned : ∀ call ∈ calls, Pinned site.inventory.sha256 call.args.listing)
    (hfresh : d.files.checkpoint = none) (hreceipts : d.receipts = []) :
    ∃ state k, loadText site.codec site.plain (afterCalls site calls d).files.checkpoint = .ok state ∧
      Inventory.position state.cursor = some k ∧
      (∀ row ∈ site.inventory.entries.take k, (afterCalls site calls d).store.Durable site.blocks row) ∧
      (0 < state.cycles → ∀ row ∈ site.inventory.entries, (afterCalls site calls d).store.Durable site.blocks row) ∧
      ∀ line ∈ (afterCalls site calls d).receipts,
        (afterCalls site calls d).store.Durable site.blocks ⟨line.receipt.cid, line.receipt.bytes⟩ := by
  have hstart : Gapless site d := by
    refine ⟨⟨0, 0, d.store, []⟩, ⟨State.start site.plain, 0, ?_, .inr ⟨rfl, rfl⟩, rfl, ?_⟩, .start⟩
    · rw [hfresh]
      rfl
    · rw [progressOf, hreceipts]
      rfl
  obtain ⟨_, ⟨state, k, hload, -, hposition, rfl⟩, hsound⟩ := afterCalls_gapless hpinned hstart
  exact ⟨state, k, hload, hposition, hsound.before, hsound.cycles, hsound.receipts⟩

end Calls

namespace Sample

def cid : JsString := js "QmYwAPJzv5CZsnA625s3Xf2nemtYgPpHdWEz79ojWKPBdG"

def block : Bytes := [1, 2, 3]

/-- An inventory of one block. -/
def site : Site Replicate.Sample.Piece Unit where
  codec := Replicate.Sample.codec
  plain := ()
  blocks := ⟨fun _ => block, fun cid _ => cid, fun _ => []⟩
  inventory := ⟨Replicate.Sample.pin, [⟨cid, 3⟩], List.nodup_singleton _⟩

def args : Args where
  listing := Replicate.Sample.args
  client := .cli
  rawStore := false
  maxPages := 1
  maxNewBytes := 100
  maxBlockBytes := 100
  minFreeBytes := 0
  fetchWorkers := 4
  maxPrefetchBytes := 100

/-- Everything succeeds, and no other process acts. -/
def fine (_ : Nat) : (c : Command) → Answer c
  | .others => ⟨id, Store.Grows.refl⟩
  | .query _ | .file _ => true
  | .repoStat => .fields 0 1000
  | .diskUsage => some 1000
  | .cidFormat _ => .supported
  | .pinAdd _ => .done
  | .rawPut _ _ | .appendReceipt _ => .done
  | .fetch _ _ => some block

/-- No checkpoint, and nothing pinned. -/
def fresh : Disk Replicate.Sample.Piece := ⟨⟨none, none, fun _ => none⟩, [], ⟨fun _ _ => false, fun _ => none⟩⟩

/-- A call that is killed while it copies, and one that runs to its end. -/
def calls : List Invocation := [⟨args, 0, fine, some 40⟩, ⟨args, 0, fine, none⟩]

theorem pinned : Pinned site.inventory.sha256 args.listing :=
  ⟨rfl, by decide +kernel, rfl, _, rfl⟩

end Sample

/-- A killed call, and the one that follows it. -/
theorem never_skips_killed : ∃ state k,
    loadText Sample.site.codec Sample.site.plain (afterCalls Sample.site Sample.calls Sample.fresh).files.checkpoint =
      .ok state ∧ Inventory.position state.cursor = some k ∧
    (∀ row ∈ Sample.site.inventory.entries.take k,
      (afterCalls Sample.site Sample.calls Sample.fresh).store.Durable Sample.site.blocks row) ∧
    (0 < state.cycles → ∀ row ∈ Sample.site.inventory.entries,
      (afterCalls Sample.site Sample.calls Sample.fresh).store.Durable Sample.site.blocks row) ∧
    ∀ line ∈ (afterCalls Sample.site Sample.calls Sample.fresh).receipts,
      (afterCalls Sample.site Sample.calls Sample.fresh).store.Durable Sample.site.blocks
        ⟨line.receipt.cid, line.receipt.bytes⟩ := by
  refine never_skips Sample.site Sample.calls Sample.fresh (fun call hcall => ?_) rfl rfl
  have hargs : ∀ call ∈ Sample.calls, call.args = Sample.args := by
    intro call hcall
    rcases List.mem_cons.mp hcall with rfl | hcall
    · rfl
    · obtain rfl := List.mem_singleton.mp hcall
      rfl
  rw [hargs call hcall]
  exact Sample.pinned

end Replicate.Batch
