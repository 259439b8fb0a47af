import Yataverse.Replicate.Durable

/-!
# Bounded batches finish the lake

Calls of `run_batch` one after the other, each with budgets that admit every block. A call that
does not complete the cycle has copied a block that was not stored in that way before, or has
moved the cursor on, and both can happen only so many times.

- `Fits`: the arguments of a call admit every block of the inventory.
- `StartsAt`: the offset at which a call starts.
- `safe_call`: one call.
- `remaining`: what is missing, and the rows behind the cursor.
- **`finishes`**: the bounds of every call, and the call that completes the cycle.
-/

namespace Replicate.Batch

open Js GraphHead Lake EventLoop EventLoop.Task

section Calls

variable {Text Rest : Type} [DecidableEq Text]

/-- The arguments of a call are those of the inventory, with budgets that admit every block. -/
structure Fits (site : Site Text Rest) (args : Args) : Prop where
  pinned : Pinned site.inventory.sha256 args.listing
  budgets : args.maxBlockBytes ≤ min args.maxNewBytes args.maxPrefetchBytes
  blocks : ∀ row ∈ site.inventory.entries, row.size ≤ args.maxBlockBytes
  pages : 1 ≤ args.maxPages

/-- A call whose checks of the checkpoint put the cursor at an offset. -/
def StartsAt (site : Site Text Rest) (args : Args) (d : Disk Text) (k : Nat) : Prop :=
  ∃ state plan, loadText site.codec site.plain d.files.checkpoint = .ok state ∧
    planOf args.listing state = .ok plan ∧ plan.Ready d.files ∧
    Inventory.position (plan.apply state).cursor = some k

/-- The saved cursor is at an offset. -/
def SavedAt (site : Site Text Rest) (d : Disk Text) (k : Nat) : Prop :=
  ∃ state, loadText site.codec site.plain d.files.checkpoint = .ok state ∧ Inventory.position state.cursor = some k

/-- How a call ends that is not killed, and the disk it leaves. -/
def Invocation.ends (site : Site Text Rest) (call : Invocation) (d : Disk Text) : Disk Text × Except Refusal Result :=
  (runBatch site call.part call.args).finish call.answer 0 d

/-- The disk before the call `n`. -/
def diskAt (site : Site Text Rest) (calls : Nat → Invocation) (start : Disk Text) : Nat → Disk Text
  | 0 => start
  | n + 1 => ((calls n).ends site (diskAt site calls start n)).1

/-- A failing source, Kubo, raw store, capacity check or file operation. -/
def Failed (r : Except Refusal Result) : Prop := ∃ e, r = .error e ∧ e.failing = true

/-- The call that completes the cycle. -/
def Complete (r : Except Refusal Result) : Prop := ∃ result, r = .ok result ∧ result.status = .cycleComplete

/-- What is missing of the rows, and the rows behind the cursor. -/
def remaining (site : Site Text Rest) (d : Disk Text) (k : Nat) : Nat :=
  d.store.missing site.inventory.entries + (site.inventory.entries.length - k)

section Call

variable {site : Site Text Rest} {args : Args} {part : Nat} {d d' : Disk Text} {k : Nat} {result : Result}

omit [DecidableEq Text] in
theorem Fits.not_large (h : Fits site args) : ¬Large site args := by
  rintro ⟨row, hrow, hlarge⟩
  have hsize := h.blocks row hrow
  have hbudgets := le_min_iff.mp h.budgets
  omega

omit [DecidableEq Text] in
/-- Where the budget is used up, something has been copied. -/
theorem Fits.newBlocks_pos (h : Fits site args) {s₀ : Store} {n : Nat} (hclosed : Closed site args s₀ n result k d)
    (hfull : Exhausted site args result.newBytes) : 0 < result.newBlocks := by
  obtain ⟨row, -, hsize, hmore⟩ := hfull
  have hbudgets := le_min_iff.mp h.budgets
  have hblocks := hclosed.blocks
  have hbytes := hclosed.bytes
  by_contra hzero
  have hnil : received n d = [] := List.length_eq_zero_iff.mp (by omega)
  rw [spentBytes, hnil] at hbytes
  have : result.newBytes = 0 := hbytes.symm
  omega

/-- **One call**: at every moment it is within its budget, and it ends as the loop over its pages
does, or fails. -/
theorem safe_call (hfits : Fits site args) (hstart : StartsAt site args d k) (hk : k < site.inventory.entries.length) :
    (runBatch site part args).Safe
      (fun d' => spentBytes d.receipts.length d' ≤ args.maxNewBytes ∧ d.store.Grows d'.store)
      (Ends False fun result d' => Ended site args d.store d.receipts.length k args.maxPages result d') d := by
  obtain ⟨state, plan, hload, hplan, hready, hposition⟩ := hstart
  have hspent : ∀ files : Files Text, spentBytes d.receipts.length { d with files := files } = 0 := by
    intro files
    rw [spentBytes, received, List.drop_length]
    rfl
  have hprepare := @safe_prepare Text Rest site d state _ args part hload
  refine Safe.bind (hprepare.held.imp ?_ fun _ _ h => h) ?_ ?_
  · rintro d' ⟨files, rfl, -⟩
    exact ⟨by rw [hspent]; exact Nat.zero_le _, .refl _⟩
  · rintro e d' ⟨-, hfail | hno⟩
    · exact .inl hfail
    · exact absurd ⟨plan, hplan, hready⟩ hno
  · rintro _ d₁ - ⟨⟨files, rfl, -⟩, plan', hplan', rfl, hload₁⟩
    obtain rfl := Except.ok.inj (hplan.symm.trans hplan')
    obtain ⟨hsource, hnumeric⟩ := hfits.pinned.apply hplan
    refine (safe_batchFrom hload₁ ⟨hsource, hnumeric, hposition⟩ hk).imp (fun d' h => ⟨h.spent, h.grows⟩) ?_
    intro r d' hr
    cases r with
    | ok result => exact hr
    | error e => exact .inl (hr.resolve_right hfits.not_large)

omit [DecidableEq Text] in
/-- A call on the inventory starts where the last one has saved its cursor. -/
theorem Placed.startsAt {state : State Rest} (h : Placed site.inventory state k) (hfits : Fits site args)
    (hload : loadText site.codec site.plain d.files.checkpoint = .ok state) : StartsAt site args d k :=
  ⟨state, .keep, hload, hfits.pinned.keeps h.marker h.numeric, trivial, h.position⟩

end Call

/-- What a call that returns has done. -/
structure Done (site : Site Text Rest) (args : Args) (d d' : Disk Text) (result : Result) : Prop where
  /-- The receipts of the call are those of its blocks. -/
  bytes : spentBytes d.receipts.length d' = result.newBytes
  blocks : (received d.receipts.length d').length = result.newBlocks
  budget : result.newBytes ≤ args.maxNewBytes
  /-- A call that ends at the byte budget has copied a block. -/
  byteBudget : result.status = .byteBudget → 1 ≤ result.newBlocks
  /-- A call that ends at the page limit has moved the saved cursor on by a page. -/
  pageLimit : result.status = .pageLimit → ∀ k, StartsAt site args d k → ∃ k', SavedAt site d' k' ∧ k + pageSize ≤ k'

section Runs

variable {site : Site Text Rest} {call : Invocation} {d : Disk Text} {k : Nat}

/-- **A call that returns.** -/
theorem Invocation.done (hfits : Fits site call.args) (hstart : StartsAt site call.args d k)
    (hk : k < site.inventory.entries.length) {result : Result} (hr : (call.ends site d).2 = .ok result) :
    Done site call.args d (call.ends site d).1 result ∧
      ∃ k', k' < site.inventory.entries.length ∧
        (∀ args, Fits site args → StartsAt site args (call.ends site d).1 k') ∧
        (result.status ≠ .cycleComplete → remaining site (call.ends site d).1 k' < remaining site d k) := by
  have hsafe := @safe_call Text Rest _ site call.args call.part d k hfits hstart hk
  obtain ⟨⟨-, hgrows⟩, hend⟩ := @Safe.finish _ _ _ _ _ _ _ _ _ call.answer 0 hsafe
  change d.store.Grows (call.ends site d).1.store at hgrows
  change Ends False _ (call.ends site d).2 (call.ends site d).1 at hend
  rw [hr] at hend
  have hended : Ended site call.args d.store d.receipts.length k call.args.maxPages result (call.ends site d).1 := hend
  generalize (call.ends site d).1 = d' at hgrows hended ⊢
  have hless : d'.store.missing site.inventory.entries ≤ d.store.missing site.inventory.entries := hgrows.missing_le
  unfold Ended at hended
  cases hstatus : result.status with
  | byteBudget =>
    rw [hstatus] at hended
    obtain ⟨⟨k', hle, hlt, hclosed⟩, hfull⟩ := hended
    have hnew := hfits.newBlocks_pos hclosed hfull
    obtain ⟨state, hload, hplaced⟩ := hclosed.saved
    refine ⟨⟨hclosed.bytes, hclosed.blocks, hclosed.budget, fun _ => hnew, fun h => ?_⟩, k', hlt,
      fun args hargs => hplaced.startsAt hargs hload, fun _ => ?_⟩
    · rw [hstatus] at h
      cases h
    · obtain ⟨row, hrow, hflip⟩ := hclosed.flipped hnew
      have hlt := hflip.missing_lt hgrows hrow
      unfold remaining
      omega
  | pageLimit =>
    rw [hstatus] at hended
    obtain ⟨hlt, hclosed⟩ := hended
    obtain ⟨state, hload, hplaced⟩ := hclosed.saved
    have hpages : pageSize ≤ call.args.maxPages * pageSize := Nat.le_mul_of_pos_left _ hfits.pages
    have hsize : 0 < pageSize := by decide
    refine ⟨⟨hclosed.bytes, hclosed.blocks, hclosed.budget, fun h => ?_, fun _ k₀ hk₀ => ?_⟩, _, hlt,
      fun args hargs => hplaced.startsAt hargs hload, fun _ => ?_⟩
    · rw [hstatus] at h
      cases h
    · obtain ⟨state₀, plan₀, hload₀, hplan₀, -, hposition₀⟩ := hk₀
      obtain ⟨state₁, plan₁, hload₁, hplan₁, -, hposition₁⟩ := hstart
      obtain rfl := Except.ok.inj (hload₀.symm.trans hload₁)
      obtain rfl := Except.ok.inj (hplan₀.symm.trans hplan₁)
      obtain rfl := Option.some.inj (hposition₀.symm.trans hposition₁)
      exact ⟨_, ⟨state, hload, hplaced.position⟩, by omega⟩
    · unfold remaining
      omega
  | cycleComplete =>
    rw [hstatus] at hended
    have hclosed : Closed site call.args d.store d.receipts.length result 0 d' := hended
    obtain ⟨state, hload, hplaced⟩ := hclosed.saved
    refine ⟨⟨hclosed.bytes, hclosed.blocks, hclosed.budget, fun h => ?_, fun h => ?_⟩, 0, by omega,
      fun args hargs => hplaced.startsAt hargs hload, fun h => absurd rfl h⟩
    · rw [hstatus] at h
      cases h
    · rw [hstatus] at h
      cases h

/-- A call that does not return fails. -/
theorem Invocation.ok_or_failed (hfits : Fits site call.args) (hstart : StartsAt site call.args d k)
    (hk : k < site.inventory.entries.length) : (∃ result, (call.ends site d).2 = .ok result) ∨ Failed (call.ends site d).2 := by
  have hsafe := @safe_call Text Rest _ site call.args call.part d k hfits hstart hk
  obtain ⟨-, hend⟩ := @Safe.finish _ _ _ _ _ _ _ _ _ call.answer 0 hsafe
  change Ends False _ (call.ends site d).2 _ at hend
  cases hr : (call.ends site d).2 with
  | ok result => exact .inl ⟨result, rfl⟩
  | error e =>
    rw [hr] at hend
    exact .inr ⟨e, rfl, hend.resolve_right id⟩

variable {calls : Nat → Invocation} {start : Disk Text}

/-- Behind calls that do not fail, the next one has a place to start. -/
theorem startsAt_diskAt (hfits : ∀ n, Fits site (calls n).args)
    (hready : ∃ k, k < site.inventory.entries.length ∧ StartsAt site (calls 0).args start k) (n : Nat)
    (hfine : ∀ m < n, ¬Failed ((calls m).ends site (diskAt site calls start m)).2) :
    ∃ k, k < site.inventory.entries.length ∧ StartsAt site (calls n).args (diskAt site calls start n) k := by
  induction n with
  | zero => exact hready
  | succ n ih =>
    obtain ⟨k, hk, hstart⟩ := ih fun m hm => hfine m (Nat.lt_succ_of_lt hm)
    obtain ⟨result, hr⟩ := ((calls n).ok_or_failed (hfits n) hstart hk).resolve_right (hfine n (Nat.lt_succ_self n))
    obtain ⟨-, k', hk', hnext, -⟩ := (calls n).done (hfits n) hstart hk hr
    exact ⟨k', hk', hnext _ (hfits (n + 1))⟩

/-- Calls that do not complete the cycle leave less and less to do. -/
theorem remaining_diskAt (hfits : ∀ n, Fits site (calls n).args)
    (hready : ∃ k, k < site.inventory.entries.length ∧ StartsAt site (calls 0).args start k) (n : Nat)
    (hfine : ∀ m < n, ¬Failed ((calls m).ends site (diskAt site calls start m)).2)
    (hmore : ∀ m < n, ¬Complete ((calls m).ends site (diskAt site calls start m)).2) :
    ∃ k, k < site.inventory.entries.length ∧ StartsAt site (calls n).args (diskAt site calls start n) k ∧
      remaining site (diskAt site calls start n) k + n ≤ 4 * site.inventory.entries.length := by
  induction n with
  | zero =>
    obtain ⟨k, hk, hstart⟩ := hready
    have hbound : start.store.missing site.inventory.entries ≤ 3 * site.inventory.entries.length :=
      start.store.missing_bound
    refine ⟨k, hk, hstart, ?_⟩
    change start.store.missing _ + _ + 0 ≤ _
    omega
  | succ n ih =>
    obtain ⟨k, hk, hstart, hle⟩ := ih (fun m hm => hfine m (Nat.lt_succ_of_lt hm)) fun m hm => hmore m (Nat.lt_succ_of_lt hm)
    obtain ⟨result, hr⟩ := ((calls n).ok_or_failed (hfits n) hstart hk).resolve_right (hfine n (Nat.lt_succ_self n))
    obtain ⟨-, k', hk', hnext, hless⟩ := (calls n).done (hfits n) hstart hk hr
    have hstatus : result.status ≠ .cycleComplete := fun h => hmore n (Nat.lt_succ_self n) ⟨result, hr, h⟩
    refine ⟨k', hk', hnext _ (hfits (n + 1)), ?_⟩
    have := hless hstatus
    change remaining site ((calls n).ends site (diskAt site calls start n)).1 k' + (n + 1) ≤ _
    omega

end Runs

/-- **Bounded batches finish the lake**: while no call has failed, every call keeps to its budget at
every moment, one that ends at the byte budget has copied a block, and one that ends at the page
limit has moved the cursor on. If no call fails before the cycle is complete, it is complete after
at most four calls for every row. -/
theorem finishes (site : Site Text Rest) (calls : Nat → Invocation) (start : Disk Text)
    (hfits : ∀ n, Fits site (calls n).args)
    (hready : ∃ k, k < site.inventory.entries.length ∧ StartsAt site (calls 0).args start k) :
    (∀ n, (∀ m < n, ¬Failed ((calls m).ends site (diskAt site calls start m)).2) →
      (∀ moment, spentBytes (diskAt site calls start n).receipts.length
        ((runBatch site (calls n).part (calls n).args).upTo (calls n).answer moment 0 (diskAt site calls start n)).1 ≤
          (calls n).args.maxNewBytes) ∧
      ∀ result, ((calls n).ends site (diskAt site calls start n)).2 = .ok result →
        Done site (calls n).args (diskAt site calls start n) (diskAt site calls start (n + 1)) result) ∧
    ((∀ n, (∀ m < n, ¬Complete ((calls m).ends site (diskAt site calls start m)).2) →
        ¬Failed ((calls n).ends site (diskAt site calls start n)).2) →
      ∃ n < 4 * site.inventory.entries.length, Complete ((calls n).ends site (diskAt site calls start n)).2) := by
  constructor
  · intro n hfine
    obtain ⟨k, hk, hstart⟩ := startsAt_diskAt hfits hready n hfine
    have hsafe := @safe_call Text Rest _ site (calls n).args (calls n).part _ k (hfits n) hstart hk
    exact ⟨fun moment => (hsafe.upTo).1.1, fun result hr => ((calls n).done (hfits n) hstart hk hr).1⟩
  · intro hfine
    by_contra hno
    have hmore : ∀ m < 4 * site.inventory.entries.length,
        ¬Complete ((calls m).ends site (diskAt site calls start m)).2 := fun m hm h => hno ⟨m, hm, h⟩
    obtain ⟨k, hk, -, hle⟩ := remaining_diskAt hfits hready (4 * site.inventory.entries.length)
      (fun m hm => hfine m fun m' hm' => hmore m' (hm'.trans hm)) hmore
    unfold remaining at hle
    omega

end Calls

namespace Sample

/-- The same call again and again. -/
def again (_ : Nat) : Invocation := ⟨args, 0, fine, none⟩

theorem fits : Fits site args := by
  refine ⟨pinned, by decide, fun row hrow => ?_, by decide⟩
  obtain rfl := List.mem_singleton.mp hrow
  decide

theorem ready : ∃ k, k < site.inventory.entries.length ∧ StartsAt site args fresh k :=
  ⟨0, by decide, State.start (), .migrate .preLocal _ none _, rfl, pinned.planOf_first rfl rfl,
    fun _ h => (by cases h), rfl⟩

/-- The first call completes the cycle. -/
theorem complete : Complete ((again 0).ends site (diskAt site again fresh 0)).2 := by
  have h : (match ((again 0).ends site fresh).2 with
      | .ok result => decide (result.status = .cycleComplete)
      | .error _ => false) = true := by decide +kernel
  split at h
  · rename_i result hr
    exact ⟨result, hr, of_decide_eq_true h⟩
  · cases h

end Sample

/-- An inventory of one block that is not pinned. -/
theorem finishes_one : ∃ n < 4 * Sample.site.inventory.entries.length,
    Complete ((Sample.again n).ends Sample.site (diskAt Sample.site Sample.again Sample.fresh n)).2 := by
  refine (finishes Sample.site Sample.again Sample.fresh (fun _ => Sample.fits) Sample.ready).2 fun n hmore => ?_
  cases n with
  | zero =>
    rintro ⟨e, he, -⟩
    obtain ⟨result, hr, -⟩ := Sample.complete
    rw [hr] at he
    cases he
  | succ n => exact absurd Sample.complete (hmore 0 (Nat.succ_pos n))

end Replicate.Batch
