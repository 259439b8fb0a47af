import Yataverse.Replicate.Batch
import Yataverse.Replicate.Progress
import Yataverse.Replicate.Saved

/-!
# The batches carry the replication out

Every operation of `run_batch` on the disk is a step of the replication, or none: the cursor is
saved when the blocks of a page have been checked or stored, and not before.

- `Tracks`: the progress that a disk stands for.
- `Along`: what a computation of a batch does to the disk, at every moment.
- `Going`: what holds between two blocks or pages.
- `Ended`: how the loop over the pages ends.
- **`safe_batchFrom`**: the call behind the checks of the checkpoint.
-/

namespace Replicate.Batch

open Js GraphHead Lake EventLoop EventLoop.Task Relation

variable {Text Rest α β : Type} (site : Site Text Rest)

/-! ## The progress on a disk -/

/-- A checkpoint of the inventory, or one without a cursor that belongs to none yet. -/
def Marked (inventory : Lake.Inventory) (state : State Rest) : Prop :=
  state.listingSource = some (.str (localMarker inventory.sha256)) ∨ state.listingSource = none ∧ state.cursor = none

/-- The progress that a checkpoint, the store and the receipts come to. -/
def progressOf (d : Disk Text) (state : State Rest) (offset : Nat) : Progress :=
  ⟨offset, state.cycles, d.store, d.receipts⟩

/-- A disk stands for a progress. -/
def Tracks (d : Disk Text) (p : Progress) : Prop :=
  ∃ state k, loadText site.codec site.plain d.files.checkpoint = .ok state ∧ Marked site.inventory state ∧
    Inventory.position state.cursor = some k ∧ p = progressOf d state k

/-- From one disk to another, the replication goes on. -/
def Simulates (d d' : Disk Text) : Prop :=
  ∀ p, Tracks site d p → ∃ q, Reach site.blocks site.inventory.entries p q ∧ Tracks site d' q

/-- The receipts behind the first `n`. -/
def received (n : Nat) (d : Disk Text) : List Receipt := (d.receipts.drop n).map ReceiptLine.receipt

/-- The bytes in these receipts. -/
def spentBytes (n : Nat) (d : Disk Text) : Nat := ((received n d).map Receipt.bytes).sum

/-- What a computation of a batch leads to: the replication goes on, the store grows, and the
receipts of the call are within the budget. -/
structure Along (n budget : Nat) (d d' : Disk Text) : Prop where
  simulates : Simulates site d d'
  grows : d.store.Grows d'.store
  spent : spentBytes n d' ≤ budget

variable {site} {n budget : Nat} {d d' d'' : Disk Text} {B : Prop} {state state' : State Rest} {k : Nat}

theorem Simulates.refl (d : Disk Text) : Simulates site d d := fun p h => ⟨p, .refl, h⟩

theorem Simulates.trans (h : Simulates site d d') (h' : Simulates site d' d'') : Simulates site d d'' := by
  intro p hp
  obtain ⟨q, hpq, hq⟩ := h p hp
  obtain ⟨r, hqr, hr⟩ := h' q hq
  exact ⟨r, hpq.trans hqr, hr⟩

theorem Along.trans (h : Along site n budget d d') (h' : Along site n budget d' d'') : Along site n budget d d'' :=
  ⟨h.simulates.trans h'.simulates, h.grows.trans h'.grows, h'.spent⟩

theorem Along.refl (h : spentBytes n d ≤ budget) : Along site n budget d d := ⟨.refl d, .refl _, h⟩

/-- A store that grows is a step. -/
theorem Quiet.simulates (h : Quiet d d') : Simulates site d d' := by
  rintro p ⟨state, k, hload, hmarked, hposition, rfl⟩
  refine ⟨progressOf d' state k, .single ?_, state, k, h.files ▸ hload, hmarked, hposition, rfl⟩
  have hq : progressOf d' state k = { progressOf d state k with store := d'.store } := by
    rw [progressOf, progressOf, h.receipts]
  rw [hq]
  exact .store h.grows

theorem Quiet.spentBytes (h : Quiet d d') : spentBytes n d' = spentBytes n d := by
  rw [Batch.spentBytes, Batch.spentBytes, received, received, h.receipts]

theorem Quiet.along (h : Quiet d d') (hspent : Batch.spentBytes n d ≤ budget) : Along site n budget d d' :=
  ⟨h.simulates, h.grows, h.spentBytes.trans_le hspent⟩

/-- A quiet computation, as one of a batch. -/
theorem Safe.along {t : Proc Text α} {Q : α → Disk Text → Prop} (h : t.Safe (Quiet d) (Ends B Q) d)
    (hspent : Batch.spentBytes n d ≤ budget) :
    t.Safe (Along site n budget d) (Ends B fun a d' => Quiet d d' ∧ Q a d') d := by
  refine h.held.imp (fun d' h => h.along hspent) ?_
  rintro r d' ⟨hquiet, h⟩
  cases r with
  | ok a => exact ⟨hquiet, h⟩
  | error e => exact h

theorem Safe.along_seq {t : Proc Text α} {f : α → Proc Text β} {P : α → Disk Text → Prop} {Q : β → Disk Text → Prop}
    (h : t.Safe (Along site n budget d) (Ends B P) d)
    (hf : ∀ a d', Along site n budget d d' → P a d' → (f a).Safe (Along site n budget d') (Ends B Q) d') :
    (t.bind f).Safe (Along site n budget d) (Ends B Q) d :=
  Safe.seq (W := Along site n budget) (fun _ _ _ => Along.trans) h hf

/-! ## The checkpoint and the receipts -/

/-- A checkpoint may follow another one. -/
def Follows (site : Site Text Rest) (d : Disk Text) (state state' : State Rest) : Prop :=
  ∀ k, Inventory.position state.cursor = some k → Marked site.inventory state' ∧
    ∃ k', Inventory.position state'.cursor = some k' ∧
      Reach site.blocks site.inventory.entries (progressOf d state k) (progressOf d state' k')

/-- Another checkpoint is on the disk. -/
theorem Follows.simulates (h : Follows site d state state') {files : Files Text}
    (hload : loadText site.codec site.plain d.files.checkpoint = .ok state)
    (hload' : loadText site.codec site.plain files.checkpoint = .ok state') :
    Simulates site d { d with files := files } := by
  rintro p ⟨old, k, hold, -, hposition, rfl⟩
  obtain rfl := Except.ok.inj (hload.symm.trans hold)
  obtain ⟨hmarked, k', hposition', hreach⟩ := h k hposition
  exact ⟨_, hreach, state', k', hload', hmarked, hposition', rfl⟩

/-- The files change, and the checkpoint is the same. -/
theorem simulates_files {files : Files Text} (h : files.checkpoint = d.files.checkpoint) :
    Simulates site d { d with files := files } := by
  rintro p ⟨state, k, hload, hmarked, hposition, rfl⟩
  exact ⟨_, .refl, state, k, by rw [← hload, ← h], hmarked, hposition, rfl⟩

/-- A computation on the state directory leaves the rest of the disk as it is. -/
theorem safe_onFiles {t : Call Text α} {E : Files Text → Prop} {Q : Except Error α → Files Text → Prop}
    (h : t.Safe E Q d.files) : (onFiles t).Safe (fun d' => ∃ files, E files ∧ d' = { d with files := files })
      (fun r d' => ∃ r₀ files, Q r₀ files ∧ r = r₀.mapError refusalOf ∧ d' = { d with files := files }) d :=
  @Safe.onPart _ _ _ _ _ _ _ _ _ filesPart _ _ _ t E Q d h

/-- **A checkpoint is saved.** -/
theorem safe_save {part : Nat} (hload : loadText site.codec site.plain d.files.checkpoint = .ok state)
    (hspent : spentBytes n d ≤ budget) (h : Follows site d state state') :
    (save site part state').Safe (Along site n budget d) (Ends B fun _ d' => d'.store = d.store ∧
      d'.receipts = d.receipts ∧ loadText site.codec site.plain d'.files.checkpoint = .ok state') d := by
  refine (safe_onFiles safe_stateSave).imp ?_ ?_
  · rintro d' ⟨files, hfiles, rfl⟩
    refine ⟨?_, .refl _, hspent⟩
    rcases hfiles with hsame | hnew
    · exact simulates_files hsame
    · refine h.simulates hload ?_
      rw [hnew]
      exact loadText_dumps
  · rintro r d' ⟨r₀, files, hfiles, rfl, rfl⟩
    rcases hfiles with ⟨hnew, rfl⟩ | rfl
    · refine ⟨rfl, rfl, ?_⟩
      change loadText _ _ files.checkpoint = _
      rw [hnew]
      exact loadText_dumps
    · exact .inl rfl

theorem received_append {d : Disk Text} {line : ReceiptLine} (hn : n ≤ d.receipts.length) :
    received n { d with receipts := d.receipts ++ [line] } = received n d ++ [line.receipt] := by
  rw [received, received, List.drop_append_of_le_length hn, List.map_append]
  rfl

theorem spentBytes_append {d : Disk Text} {line : ReceiptLine} (hn : n ≤ d.receipts.length) :
    spentBytes n { d with receipts := d.receipts ++ [line] } = spentBytes n d + line.receipt.bytes := by
  rw [spentBytes, spentBytes, received_append hn, List.map_append, List.sum_append]
  rfl

/-- **A receipt of a durable block.** -/
theorem safe_appendReceipt {row : Row} {data : Bytes} (hdurable : d.store.Durable site.blocks row)
    (hn : n ≤ d.receipts.length) (hspent : spentBytes n d + row.size ≤ budget) :
    (appendReceipt site.blocks row data).Safe (Along site n budget d) (Ends B fun _ d' => d'.files = d.files ∧
      d'.store = d.store ∧ n ≤ d'.receipts.length ∧ spentBytes n d' = spentBytes n d + row.size ∧
      (received n d').length = (received n d).length + 1) d := by
  have hnow : Along site n budget d d := .refl (by omega)
  have happend : ∀ whole, Along site n budget d { d with receipts :=
      d.receipts ++ [⟨⟨row.cid, row.size, site.blocks.sha256 data⟩, whole⟩] } := by
    refine fun whole => ⟨?_, .refl _, (spentBytes_append hn).trans_le hspent⟩
    rintro p ⟨state, k, hload, hmarked, hposition, rfl⟩
    have hstep : Progress.Step site.blocks site.inventory.entries (progressOf d state k)
        { progressOf d state k with receipts :=
            d.receipts ++ [⟨⟨row.cid, row.size, site.blocks.sha256 data⟩, whole⟩] } := .receipt hdurable
    exact ⟨_, .single hstep, state, k, hload, hmarked, hposition, rfl⟩
  refine ⟨hnow, fun outcome => ?_⟩
  cases outcome with
  | done =>
    refine ⟨hnow, happend true, rfl, rfl, ?_, spentBytes_append hn, ?_⟩
    · rw [List.length_append]
      omega
    · rw [received_append hn, List.length_append]
      rfl
  | refused message => exact ⟨hnow, .inl rfl⟩
  | lost => exact ⟨hnow, happend false, .inl rfl⟩

/-! ## Between two blocks -/

/-- A checkpoint of the inventory, with its cursor at an offset. -/
structure Placed (inventory : Lake.Inventory) (state : State Rest) (k : Nat) : Prop where
  marker : state.listingSource = some (.str (localMarker inventory.sha256))
  numeric : state.cursor.all isNumeric = true
  position : Inventory.position state.cursor = some k

variable (site) in
/-- Between two blocks or pages of a call: the checkpoint is saved, the counters are right, and a
block that has been copied was not stored in that way at the start `s₀` of the call. -/
structure Going (args : Args) (s₀ : Store) (n : Nat) (batch : Batch Rest) (k : Nat) (d : Disk Text) : Prop where
  loaded : loadText site.codec site.plain d.files.checkpoint = .ok batch.state
  placed : Placed site.inventory batch.state k
  sound : batch.kubo.Sound d.store
  unseen : ∀ cid, batch.kubo.pins cid = false → Unseen args.client args.rawStore s₀ d.store cid
  receipts : n ≤ d.receipts.length
  bytes : spentBytes n d = batch.newBytes
  blocks : (received n d).length = batch.newBlocks
  budget : batch.newBytes ≤ args.maxNewBytes
  flipped : 0 < batch.newBlocks → ∃ row ∈ site.inventory.entries, s₀.Flipped d.store row.cid

section Going

variable {args : Args} {s₀ : Store} {batch : Batch Rest} {part : Nat} {row : Row} {data : Bytes}

theorem Going.quiet (h : Going site args s₀ n batch k d) (hq : Quiet d d') : Going site args s₀ n batch k d' where
  loaded := hq.files ▸ h.loaded
  placed := h.placed
  sound := h.sound.grows hq.grows
  unseen cid hcid := (h.unseen cid hcid).grows hq.grows
  receipts := hq.receipts ▸ h.receipts
  bytes := hq.spentBytes.trans h.bytes
  blocks := by
    rw [received, hq.receipts]
    exact h.blocks
  budget := h.budget
  flipped hnew := by
    obtain ⟨row, hrow, hflip⟩ := h.flipped hnew
    exact ⟨row, hrow, hflip.grows hq.grows⟩

theorem Going.spent (h : Going site args s₀ n batch k d) : spentBytes n d ≤ args.maxNewBytes := h.bytes.trans_le h.budget

/-- More pins are known. -/
theorem Going.learnt (h : Going site args s₀ n batch k d) {kubo : Kubo} {checked : Nat}
    (hkubo : batch.kubo.Learns kubo d.store) :
    Going site args s₀ n { batch with kubo := kubo, checkedBlocks := checked } k d where
  loaded := h.loaded
  placed := h.placed
  sound := hkubo.sound
  unseen cid hcid := h.unseen cid (hkubo.not_pin hcid)
  receipts := h.receipts
  bytes := h.bytes
  blocks := h.blocks
  budget := h.budget
  flipped := h.flipped

/-- The counters are saved behind a block. -/
theorem follows_counted {kubo : Kubo} (h : Going site args s₀ n batch k d) :
    Follows site d' batch.state (batch.counted kubo row.size).state := by
  intro k' hk
  exact ⟨.inl h.placed.marker, k', hk, .refl⟩

/-- **A block is copied.** -/
theorem safe_copyBlock (h : Going site args s₀ n batch k d) (hrow : row ∈ site.inventory.entries)
    (hunseen : Unseen args.client args.rawStore s₀ d.store row.cid)
    (hfit : batch.newBytes + row.size ≤ args.maxNewBytes) :
    (copyBlock site part args batch row data).Safe (Along site n args.maxNewBytes d)
      (Ends B fun batch' d' => Going site args s₀ n batch' k d' ∧ batch'.newBytes = batch.newBytes + row.size ∧
        d'.store.Durable site.blocks row) d := by
  refine Safe.along_seq (Safe.along (safe_check (Q := fun _ _ => data.length = row.size) rfl fun h => h) h.spent)
    fun _ d₁ _ hd₁ => ?_
  have h₁ := h.quiet hd₁.1
  have hunseen₁ := hunseen.grows hd₁.1.grows
  refine Safe.along_seq (Safe.along (safe_putVerified h₁.sound) h₁.spent) fun kubo d₂ _ hd₂ => ?_
  obtain ⟨hq₂, hkubo, hstored⟩ := hd₂
  have h₂ := h₁.quiet hq₂
  have hdurable : d₂.store.Durable site.blocks row := by
    have := hstored.durable
    rw [hd₁.2] at this
    exact this
  have hflip := hstored.flipped hunseen₁ hq₂.grows
  refine Safe.along_seq (safe_appendReceipt hdurable h₂.receipts (by rw [h₂.bytes]; exact hfit)) fun _ d₃ _ hd₃ => ?_
  obtain ⟨hfiles, hstore, hn, hbytes, hblocks⟩ := hd₃
  have hloaded : loadText site.codec site.plain d₃.files.checkpoint = .ok batch.state := hfiles ▸ h₂.loaded
  have hspent : spentBytes n d₃ = batch.newBytes + row.size := by rw [hbytes, h₂.bytes]
  refine Safe.along_seq (safe_save hloaded (hspent.trans_le hfit) (follows_counted h)) fun _ d₄ _ hd₄ => ?_
  obtain ⟨hstore₄, hreceipts₄, hloaded₄⟩ := hd₄
  have hspent₄ : spentBytes n d₄ = batch.newBytes + row.size := by
    rw [spentBytes, received, hreceipts₄]
    exact hspent
  have hsame : d₄.store = d₂.store := hstore₄.trans hstore
  have hunseen₂ : ∀ cid, kubo.pins cid = false → Unseen args.client args.rawStore s₀ d₂.store cid :=
    fun cid hcid => h₂.unseen cid (hkubo.not_pin hcid)
  have hgoing : Going site args s₀ n (batch.counted kubo row.size) k d₄ := {
    loaded := hloaded₄
    placed := ⟨h.placed.marker, h.placed.numeric, h.placed.position⟩
    sound := hsame ▸ hkubo.sound
    unseen := hsame ▸ hunseen₂
    receipts := hreceipts₄ ▸ hn
    bytes := hspent₄
    blocks := by
      rw [received, hreceipts₄]
      exact hblocks.trans (congrArg (· + 1) h₂.blocks)
    budget := hfit
    flipped := fun _ => ⟨row, hrow, hsame ▸ hflip⟩ }
  exact ⟨.refl (hspent₄.trans_le hfit), hgoing, rfl, hsame ▸ hdurable⟩

/-! ## A page -/

variable (site) in
/-- A row of the inventory is larger than a block may be. -/
def Large (args : Args) : Prop :=
  ∃ row ∈ site.inventory.entries, args.maxBlockBytes < row.size ∨ args.maxPrefetchBytes < row.size

variable (site) in
/-- Rows that may be copied: they were not found among the pins, and are within the budget. -/
structure Picked (args : Args) (s₀ : Store) (newBytes : Nat) (rows : List Row) (s : Store) : Prop where
  known : ∀ row ∈ rows, row ∈ site.inventory.entries
  unseen : ∀ row ∈ rows, Unseen args.client args.rawStore s₀ s row.cid
  budget : newBytes + (rows.map Row.size).sum ≤ args.maxNewBytes

variable {rows : List Row} {s s' : Store} {newBytes : Nat}

theorem Picked.grows (h : Picked site args s₀ newBytes rows s) (hg : s.Grows s') : Picked site args s₀ newBytes rows s' :=
  ⟨h.known, fun row hr => (h.unseen row hr).grows hg, h.budget⟩

/-- **The blocks of a page are copied**, one after the other. -/
theorem safe_inOrder (h : Going site args s₀ n batch k d) (hpicked : Picked site args s₀ batch.newBytes rows d.store) :
    (inOrder (fetchBlock args) (copyBlock site part args) rows batch).Safe (Along site n args.maxNewBytes d)
      (Ends B fun batch' d' => Going site args s₀ n batch' k d' ∧
        batch'.newBytes = batch.newBytes + (rows.map Row.size).sum ∧
        ∀ row ∈ rows, d'.store.Durable site.blocks row) d := by
  induction rows generalizing batch d with
  | nil => exact ⟨.refl h.spent, h, rfl, fun row hr => (by cases hr)⟩
  | cons row rows ih =>
    have hbudget := hpicked.budget
    rw [List.map_cons, List.sum_cons] at hbudget
    rw [inOrder, yieldOldest, Task.bind_assoc]
    have hfetch : (fetchBlock args row).Safe (Quiet d) (Ends B fun _ _ => True) d := by
      refine ⟨.refl d, fun data => ?_⟩
      cases data with
      | none => exact safe_throw (by rfl)
      | some data => exact safe_ret trivial
    refine Safe.along_seq (Safe.along hfetch h.spent) fun data d₁ _ hd₁ => ?_
    have hpicked₁ := hpicked.grows hd₁.1.grows
    refine Safe.along_seq (safe_copyBlock (h.quiet hd₁.1) (hpicked.known row (List.mem_cons_self ..))
      (hpicked₁.unseen row (List.mem_cons_self ..)) (by omega)) fun batch₂ d₂ hd₂ hbatch₂ => ?_
    obtain ⟨h₂, hbytes, hdurable⟩ := hbatch₂
    have hpicked₂ : Picked site args s₀ batch₂.newBytes rows d₂.store := {
      known := fun r hr => hpicked.known r (List.mem_cons_of_mem _ hr)
      unseen := fun r hr => (hpicked₁.unseen r (List.mem_cons_of_mem _ hr)).grows hd₂.grows
      budget := by omega }
    refine (ih h₂ hpicked₂).held.imp (fun _ h => h) ?_
    rintro r d' ⟨halong, hr⟩
    cases r with
    | error e => exact hr
    | ok batch' =>
      obtain ⟨h', hsum, hall⟩ := hr
      refine ⟨h', ?_, fun r hr => ?_⟩
      · rw [hsum, hbytes, List.map_cons, List.sum_cons, Nat.add_assoc]
      · rcases List.mem_cons.mp hr with rfl | hr
        · exact hdurable.grows halong.grows
        · exact hall r hr

/-- The window of downloads is as good as the blocks one after the other. -/
theorem safe_prefetchOrdered (h : Going site args s₀ n batch k d)
    (hpicked : Picked site args s₀ batch.newBytes rows d.store) :
    (prefetchOrdered args.fetchWorkers args.maxPrefetchBytes (fetchBlock args) (copyBlock site part args) rows [] 0
      batch).Safe (Along site n args.maxNewBytes d) (Ends (Large site args) fun batch' d' =>
        Going site args s₀ n batch' k d' ∧ batch'.newBytes = batch.newBytes + (rows.map Row.size).sum ∧
        ∀ row ∈ rows, d'.store.Durable site.blocks row) d := by
  by_cases hfit : ∀ row ∈ rows, row.size ≤ args.maxPrefetchBytes
  · rw [prefetchOrdered_eq hfit]
    exact safe_inOrder h hpicked
  · obtain ⟨row, hrow, hlarge⟩ : ∃ row ∈ rows, args.maxPrefetchBytes < row.size := by
      by_contra hno
      exact hfit fun row hr => Nat.le_of_not_lt fun hlt => hno ⟨row, hr, hlt⟩
    obtain ⟨first, rest, e, hsplit, heq⟩ := @prefetchOrdered_stops Text (Batch Rest) args.fetchWorkers
      args.maxPrefetchBytes (fetchBlock args) (copyBlock site part args) rows ⟨row, hrow, hlarge⟩ [] 0
    rw [heq]
    have hsub : ∀ r ∈ first, r ∈ rows := by
      intro r hr
      have hmem : r ∈ first ++ rest := List.mem_append_left _ hr
      rw [hsplit] at hmem
      exact hmem
    have hsum : (first.map Row.size).sum ≤ (rows.map Row.size).sum := by
      have := congrArg (fun l => (l.map Row.size).sum) hsplit
      simp only [List.nil_append, List.map_append, List.sum_append] at this
      omega
    have hfirst : Picked site args s₀ batch.newBytes first d.store :=
      ⟨fun r hr => hpicked.known r (hsub r hr), fun r hr => hpicked.unseen r (hsub r hr), by
        have := hpicked.budget
        omega⟩
    refine Safe.along_seq (safe_inOrder h hfirst) fun batch₁ d₁ _ hd₁ => ?_
    exact ⟨.refl hd₁.1.spent, .inr ⟨row, hpicked.known row hrow, .inr hlarge⟩⟩

/-- Rows that have been looked at: each is durable, or is to be copied. -/
def Settled (site : Site Text Rest) (rows selected : List Row) (s : Store) : Prop :=
  ∀ row ∈ rows, s.Durable site.blocks row ∨ row ∈ selected

theorem Settled.grows {selected : List Row} (h : Settled site rows selected s) (hg : s.Grows s') :
    Settled site rows selected s' := fun row hr => (h row hr).imp_left fun hd => hd.grows hg

/-- A block that does not fit into the budget, behind so many new bytes. -/
def Exhausted (site : Site Text Rest) (args : Args) (newBytes : Nat) : Prop :=
  ∃ row ∈ site.inventory.entries, row.size ≤ args.maxBlockBytes ∧ args.maxNewBytes < newBytes + row.size

variable (site) in
/-- Behind the first loop over a page: the variables, and what has been selected. -/
structure Selected (args : Args) (s₀ : Store) (n : Nat) (newBytes k : Nat) (rows : List Row)
    (selection : Selection Rest) (d : Disk Text) : Prop where
  going : Going site args s₀ n selection.batch k d
  bytes : selection.batch.newBytes = newBytes
  picked : Picked site args s₀ newBytes selection.selected d.store
  settled : selection.budgetStop = false → Settled site rows selection.selected d.store
  stop : selection.budgetStop = true → Exhausted site args (newBytes + (selection.selected.map Row.size).sum)

theorem safe_learn {kubo : Kubo} {cid : JsString} (hsound : kubo.Sound d.store) :
    (learn args kubo cid).Safe (Quiet d) (Ends B fun kubo' d' => kubo.Learns kubo' d'.store) d := by
  have hsame : ∀ {s : Store}, kubo.Sound s → kubo.Learns kubo s := fun h => ⟨h, fun _ hc => hc⟩
  rw [learn]
  split
  · refine Safe.quiet_seq safe_durablePinType fun kind d₁ h₁ hkind => ?_
    have hsound₁ := hsound.grows h₁.grows
    split
    · rename_i hsome
      exact safe_ret (hsound₁.pin (Store.pinned_of_explicit (hkind hsome)))
    · exact safe_ret (hsame hsound₁)
  · exact safe_ret (hsame hsound)

theorem safe_requireDiskReserve {newBytes reserve : Nat} :
    (requireDiskReserve newBytes reserve : Proc Text Unit).Safe (Quiet d) (Ends B fun _ _ => True) d := by
  refine ⟨.refl d, fun usage => ?_⟩
  cases usage with
  | none => exact safe_throw (by rfl)
  | some free => exact safe_check rfl fun _ => trivial

/-- **The selection of a page**: `done` are the rows before. -/
theorem safe_select {done selected : List Row} {planned : Nat} (h : Going site args s₀ n batch k d)
    (hrows : ∀ row ∈ rows, row ∈ site.inventory.entries) (hplanned : planned = (selected.map Row.size).sum)
    (hpicked : Picked site args s₀ batch.newBytes selected d.store) (hdone : Settled site done selected d.store) :
    (select site args rows batch selected planned).Safe (Quiet d) (Ends (Large site args) fun selection d' =>
      Selected site args s₀ n batch.newBytes k (done ++ rows) selection d') d := by
  induction rows generalizing batch d done selected planned with
  | nil =>
    refine safe_ret ⟨h, rfl, hpicked, fun _ => ?_, fun hstop => (by cases hstop)⟩
    rw [List.append_nil]
    exact hdone
  | cons row rows ih =>
    have hrow := hrows row (List.mem_cons_self ..)
    have hrest : ∀ r ∈ rows, r ∈ site.inventory.entries := fun r hr => hrows r (List.mem_cons_of_mem _ hr)
    rw [select]
    refine Safe.quiet_seq (P := fun _ _ => row.size ≤ args.maxBlockBytes) ?_ fun _ d₀ h₀ hsize => ?_
    · rw [check]
      split
      · exact safe_ret (by assumption)
      · exact ⟨.refl d, .inr ⟨row, hrow, .inl (Nat.lt_of_not_le (by assumption))⟩⟩
    refine Safe.quiet_seq (safe_learn (h.quiet h₀).sound) fun kubo d₁ h₁ hkubo => ?_
    have h₀₁ := h₀.trans h₁
    have hgoing₁ := h.quiet h₀₁
    have hpicked₁ := hpicked.grows h₀₁.grows
    have hdone₁ := hdone.grows h₀₁.grows
    rw [List.append_cons]
    split
    · rename_i hpin
      refine Safe.quiet_seq (safe_blockSize hkubo.sound hpin) fun size d₂ h₂ hdurable => ?_
      refine Safe.quiet_seq (safe_check (Q := fun _ d' => d'.store.Durable site.blocks row) rfl fun heq => ?_)
        fun _ d₃ h₃ hrow₃ => ?_
      · subst heq
        exact hdurable
      · have h₁₃ := h₂.trans h₃
        have hkubo₃ : batch.kubo.Learns kubo d₃.store := ⟨hkubo.sound.grows h₁₃.grows, hkubo.keeps⟩
        refine ih ((hgoing₁.quiet h₁₃).learnt hkubo₃) hrest hplanned (hpicked₁.grows h₁₃.grows) fun r hr => ?_
        rcases List.mem_append.mp hr with hr | hr
        · exact hdone₁.grows h₁₃.grows r hr
        · obtain rfl := List.mem_singleton.mp hr
          exact .inl hrow₃
    · rename_i hpin
      split
      · rename_i hfull
        refine safe_ret ⟨hgoing₁.learnt hkubo, rfl, hpicked₁, fun hstop => (by cases hstop), fun _ => ?_⟩
        exact ⟨row, hrow, hsize, hplanned ▸ hfull⟩
      · rename_i hfit
        refine Safe.quiet_seq (safe_check (Q := fun _ _ => True) rfl fun _ => trivial) fun _ d₂ h₂ _ => ?_
        refine Safe.quiet_seq safe_requireDiskReserve fun _ d₃ h₃ _ => ?_
        have h₁₃ := h₂.trans h₃
        have hkubo₃ : batch.kubo.Learns kubo d₃.store := ⟨hkubo.sound.grows h₁₃.grows, hkubo.keeps⟩
        have hunseen := hgoing₁.unseen row.cid (hkubo.not_pin (Bool.eq_false_of_not_eq_true hpin))
        have hsum : (selected ++ [row]).map Row.size = selected.map Row.size ++ [row.size] := List.map_append
        refine ih ((hgoing₁.quiet h₁₃).learnt hkubo₃) hrest ?_ ⟨fun r hr => ?_, fun r hr => ?_, ?_⟩ fun r hr => ?_
        · rw [hsum, List.sum_append, List.sum_singleton, hplanned]
        · rcases List.mem_append.mp hr with hr | hr
          · exact hpicked.known r hr
          · exact List.mem_singleton.mp hr ▸ hrow
        · rcases List.mem_append.mp hr with hr | hr
          · exact (hpicked₁.unseen r hr).grows h₁₃.grows
          · obtain rfl := List.mem_singleton.mp hr
            exact hunseen.grows h₁₃.grows
        · rw [hsum, List.sum_append, List.sum_singleton]
          dsimp only
          omega
        · rcases List.mem_append.mp hr with hr | hr
          · exact (hdone₁.grows h₁₃.grows r hr).imp_right fun hmem => List.mem_append_left _ hmem
          · exact .inr (List.mem_append_right _ hr)

/-! ## The listing -/

/-- What is served for the cursor that the client sends. -/
theorem served_sent {inventory : Lake.Inventory} {cursor : Option JsString} (h : Inventory.position cursor = some k) :
    inventory.served (sent cursor) = inventory.page k := by
  cases cursor with
  | none =>
    obtain rfl := Option.some.inj h
    rfl
  | some s =>
    cases s with
    | nil =>
      obtain rfl := Option.some.inj h
      rfl
    | cons u rest =>
      have hsent : sent (some (u :: rest)) = some (u :: rest) := rfl
      have hoffset : offset? (u :: rest) = some k := h
      rw [hsent, Inventory.served, hoffset]

theorem safe_checkRows : (checkRows rows : Proc Text Unit).Safe (Quiet d) (Ends B fun _ _ => True) d := by
  induction rows generalizing d with
  | nil => exact safe_ret trivial
  | cons row rows ih =>
    refine Safe.quiet_seq (safe_check (Q := fun _ _ => True) rfl fun _ => trivial) fun _ d₁ _ _ => ?_
    exact Safe.quiet_seq (safe_check (Q := fun _ _ => True) rfl fun _ => trivial) fun _ d₂ _ _ => ih

/-- **The page at the cursor**, which lies inside the inventory. -/
theorem safe_fetchListing {inventory : Lake.Inventory} {cursor : Option JsString}
    (hposition : Inventory.position cursor = some k) (hk : k < inventory.entries.length) :
    (fetchListing inventory cursor).Safe (Quiet d) (Ends B fun page _ => inventory.page k = .ok page) d := by
  refine Safe.quiet_seq (safe_request rfl) fun _ d₁ _ _ => ?_
  rw [served_sent hposition]
  have hpage := page_eq hk
  generalize inventory.page k = served at hpage ⊢
  subst hpage
  refine Safe.quiet_seq (safe_check (Q := fun _ _ => True) rfl fun _ => trivial) fun _ d₂ _ _ => ?_
  refine Safe.quiet_seq (safe_check (Q := fun _ _ => True) rfl fun _ => trivial) fun _ d₃ _ _ => ?_
  exact Safe.quiet_seq safe_checkRows fun _ d₄ _ _ => safe_ret rfl

/-! ## Pages -/

variable (site) in
/-- The end of a call: its result, with the cursor that is saved. -/
structure Closed (args : Args) (s₀ : Store) (n : Nat) (result : Result) (k : Nat) (d : Disk Text) : Prop where
  saved : ∃ state, loadText site.codec site.plain d.files.checkpoint = .ok state ∧ Placed site.inventory state k
  bytes : spentBytes n d = result.newBytes
  blocks : (received n d).length = result.newBlocks
  budget : result.newBytes ≤ args.maxNewBytes
  flipped : 0 < result.newBlocks → ∃ row ∈ site.inventory.entries, s₀.Flipped d.store row.cid

theorem Going.closed (h : Going site args s₀ n batch k d) (status : Status) (advanced : Bool) :
    Closed site args s₀ n (batch.result status advanced) k d :=
  ⟨⟨batch.state, h.loaded, h.placed⟩, h.bytes, h.blocks, h.budget, h.flipped⟩

/-- A call that ends before the last page, behind `k`: it has come so many pages further, or the
budget is used up. -/
def Ended (site : Site Text Rest) (args : Args) (s₀ : Store) (n k turns : Nat) (result : Result) (d : Disk Text) : Prop :=
  match result.status with
  | .byteBudget => (∃ k', k ≤ k' ∧ k' < site.inventory.entries.length ∧ Closed site args s₀ n result k' d) ∧
      Exhausted site args result.newBytes
  | .pageLimit => k + turns * pageSize < site.inventory.entries.length ∧
      Closed site args s₀ n result (k + turns * pageSize) d
  | .cycleComplete => Closed site args s₀ n result 0 d

/-- Behind a page, which its blocks have been checked or stored for, the cursor may be moved on. -/
theorem follows_turned (h : Going site args s₀ n batch k d)
    (hdurable : ∀ row ∈ (site.inventory.entries.drop k).take pageSize, d.store.Durable site.blocks row) :
    Follows site d batch.state (batch.turned (some (natStr (k + pageSize)))).state := by
  intro k' hk
  obtain rfl := Option.some.inj (h.placed.position.symm.trans hk)
  exact ⟨.inl h.placed.marker, k + pageSize, position_natStr _, .single (.page hdurable)⟩

/-- Behind the last page, a cycle is complete. -/
theorem follows_cycled (h : Going site args s₀ n batch k d)
    (hdurable : ∀ row ∈ site.inventory.entries.drop k, d.store.Durable site.blocks row) :
    Follows site d batch.state batch.cycled.state := by
  intro k' hk
  obtain rfl := Option.some.inj (h.placed.position.symm.trans hk)
  exact ⟨.inl h.placed.marker, 0, rfl, .single (.cycle hdurable)⟩

/-- The variables behind a checkpoint that has been saved. -/
theorem Going.saved (h : Going site args s₀ n batch k d) {batch' : Batch Rest} {k' : Nat}
    (hstore : d'.store = d.store) (hreceipts : d'.receipts = d.receipts)
    (hload : loadText site.codec site.plain d'.files.checkpoint = .ok batch'.state)
    (hplaced : Placed site.inventory batch'.state k')
    (hsame : batch' = { batch with state := batch'.state, pages := batch'.pages }) :
    Going site args s₀ n batch' k' d' := by
  have hreceived : received n d' = received n d := by rw [received, received, hreceipts]
  rw [hsame]
  exact {
    loaded := hload
    placed := hplaced
    sound := hstore ▸ h.sound
    unseen := hstore ▸ h.unseen
    receipts := hreceipts ▸ h.receipts
    bytes := (congrArg (fun l => (l.map Receipt.bytes).sum) hreceived).trans h.bytes
    blocks := (congrArg List.length hreceived).trans h.blocks
    budget := h.budget
    flipped := hstore ▸ h.flipped }

/-- Behind a page: the call ends, or the next page follows. -/
def Turned (site : Site Text Rest) (args : Args) (s₀ : Store) (n k : Nat) (turn : Result ⊕ Batch Rest) (d : Disk Text) :
    Prop :=
  match turn with
  | .inl result => result.status ≠ .pageLimit ∧ Ended site args s₀ n k 0 result d
  | .inr batch => k + pageSize < site.inventory.entries.length ∧ Going site args s₀ n batch (k + pageSize) d

/-- **A page is closed.** -/
theorem safe_closePage {listing : Page} {budgetStop : Bool} (h : Going site args s₀ n batch k d)
    (hk : k < site.inventory.entries.length) (hlisting : site.inventory.page k = .ok listing)
    (hdurable : budgetStop = false → ∀ row ∈ listing.blocks, d.store.Durable site.blocks row)
    (hstop : budgetStop = true → Exhausted site args batch.newBytes) :
    (closePage site part listing budgetStop batch).Safe (Along site n args.maxNewBytes d)
      (Ends B fun turn d' => Turned site args s₀ n k turn d') d := by
  rw [page_eq hk] at hlisting
  obtain rfl := Except.ok.inj hlisting
  dsimp only at hdurable
  rw [closePage]
  by_cases hbudget : budgetStop = true
  · rw [if_pos hbudget]
    have hended : Ended site args s₀ n k 0 (batch.result .byteBudget false) d :=
      ⟨⟨k, Nat.le_refl k, hk, h.closed _ _⟩, hstop hbudget⟩
    exact ⟨.refl h.spent, fun hs => (by cases hs), hended⟩
  · rw [if_neg hbudget]
    have hpage := hdurable (Bool.eq_false_of_not_eq_true hbudget)
    by_cases hmore : k + pageSize < site.inventory.entries.length
    · simp only [hmore, decide_true, if_true]
      refine Safe.along_seq (safe_save h.loaded h.spent (follows_turned h hpage)) fun _ d' _ hd' => ?_
      have hgoing : Going site args s₀ n (batch.turned (some (natStr (k + pageSize)))) (k + pageSize) d' :=
        h.saved hd'.1 hd'.2.1 hd'.2.2 ⟨h.placed.marker, isNumeric_natStr _, position_natStr _⟩ rfl
      exact ⟨.refl hgoing.spent, hmore, hgoing⟩
    · simp only [hmore, decide_false, if_false, Bool.false_eq_true]
      rw [List.take_of_length_le (by rw [List.length_drop]; omega)] at hpage
      refine Safe.along_seq (safe_save h.loaded h.spent (follows_cycled h hpage)) fun _ d' _ hd' => ?_
      have hgoing : Going site args s₀ n batch.cycled 0 d' :=
        h.saved hd'.1 hd'.2.1 hd'.2.2 ⟨h.placed.marker, rfl, rfl⟩ rfl
      have hended : Ended site args s₀ n k 0 (batch.cycled.result .cycleComplete true) d' := hgoing.closed _ _
      exact ⟨.refl hgoing.spent, fun hs => (by cases hs), hended⟩

/-- **One turn of the loop.** -/
theorem safe_onePage (h : Going site args s₀ n batch k d) (hk : k < site.inventory.entries.length) :
    (onePage site part args batch).Safe (Along site n args.maxNewBytes d)
      (Ends (Large site args) fun turn d' => Turned site args s₀ n k turn d') d := by
  refine Safe.along_seq (Safe.along (safe_fetchListing h.placed.position hk) h.spent) fun listing d₁ _ hd₁ => ?_
  obtain ⟨h₁, hlisting⟩ := hd₁
  refine Safe.along_seq (Safe.along (safe_check (Q := fun _ _ => True) rfl fun _ => trivial) (h.quiet h₁).spent)
    fun _ d₂ _ hd₂ => ?_
  have h₂ := h.quiet (h₁.trans hd₂.1)
  have hblocks : listing.blocks = (site.inventory.entries.drop k).take pageSize := by
    have heq := (page_eq hk).symm.trans hlisting
    obtain rfl := Except.ok.inj heq
    rfl
  have hknown : ∀ row ∈ listing.blocks, row ∈ site.inventory.entries := by
    intro row hrow
    rw [hblocks] at hrow
    exact List.mem_of_mem_drop (List.mem_of_mem_take hrow)
  have hnone : Picked site args s₀ batch.newBytes [] d₂.store :=
    ⟨fun row hr => (by cases hr), fun row hr => (by cases hr), h.budget⟩
  have hselect := @safe_select Text Rest site n d₂ k args s₀ batch listing.blocks [] [] 0 h₂ hknown rfl hnone
    fun row hr => (by cases hr)
  refine Safe.along_seq (Safe.along hselect h₂.spent) fun selection d₃ _ hd₃ => ?_
  obtain ⟨-, hselected⟩ := hd₃
  have hpicked : Picked site args s₀ selection.batch.newBytes selection.selected d₃.store :=
    hselected.bytes ▸ hselected.picked
  refine Safe.along_seq (safe_prefetchOrdered hselected.going hpicked) fun batch₄ d₄ hd₄ hbatch₄ => ?_
  obtain ⟨h₄, hbytes, hstored⟩ := hbatch₄
  refine safe_closePage h₄ hk hlisting (fun hgo row hrow => ?_) fun hstop => ?_
  · exact (hselected.settled hgo row hrow).elim (fun hd => hd.grows hd₄.grows) (hstored row)
  · rw [hbytes, hselected.bytes]
    exact hselected.stop hstop

/-- An end is one from an earlier page, too. -/
theorem Ended.earlier {k' turns turns' : Nat} {result : Result} (hk : k ≤ k')
    (hturns : result.status = .pageLimit → k' + turns * pageSize = k + turns' * pageSize)
    (h : Ended site args s₀ n k' turns result d) : Ended site args s₀ n k turns' result d := by
  unfold Ended at h ⊢
  cases hstatus : result.status with
  | pageLimit =>
    rw [hstatus] at h
    rw [← hturns hstatus]
    exact h
  | cycleComplete =>
    rw [hstatus] at h
    exact h
  | byteBudget =>
    rw [hstatus] at h
    obtain ⟨⟨k'', hle, hlt, hclosed⟩, hfull⟩ := h
    exact ⟨⟨k'', hk.trans hle, hlt, hclosed⟩, hfull⟩

/-- **The loop over the pages.** -/
theorem safe_pageLoop (turns : Nat) (h : Going site args s₀ n batch k d) (hk : k < site.inventory.entries.length) :
    (pageLoop site part args turns batch).Safe (Along site n args.maxNewBytes d)
      (Ends (Large site args) fun result d' => Ended site args s₀ n k turns result d') d := by
  induction turns generalizing batch k d with
  | zero =>
    have hended : Ended site args s₀ n k 0 (batch.result .pageLimit true) d := by
      refine ⟨?_, ?_⟩ <;> rw [Nat.zero_mul, Nat.add_zero]
      · exact hk
      · exact h.closed _ _
    exact ⟨.refl h.spent, hended⟩
  | succ turns ih =>
    refine Safe.along_seq (safe_onePage h hk) fun turn d₁ halong hturn => ?_
    cases turn with
    | inl result =>
      obtain ⟨hs, hended⟩ := hturn
      exact ⟨.refl halong.spent, hended.earlier (Nat.le_refl k) fun hlimit => absurd hlimit hs⟩
    | inr batch₁ =>
      obtain ⟨hmore, hgoing⟩ := hturn
      refine (ih hgoing hmore).imp (fun _ h => h) fun r d' hr => hr.mono fun result d' hended => ?_
      refine hended.earlier (Nat.le_add_right k pageSize) fun _ => ?_
      rw [Nat.succ_mul]
      omega

end Going

/-- **A call behind the checks of the checkpoint**: at every moment it has carried the replication
on within its budget, and it ends at a page, at the budget or with a cycle, unless a check or a
command fails or a row is too large. -/
theorem safe_batchFrom {args : Args} {part : Nat}
    (hload : loadText site.codec site.plain d.files.checkpoint = .ok state)
    (hplaced : Placed site.inventory state k) (hk : k < site.inventory.entries.length) :
    (batchFrom site part args state).Safe (Along site d.receipts.length args.maxNewBytes d)
      (Ends (Large site args) fun result d' =>
        Ended site args d.store d.receipts.length k args.maxPages result d') d := by
  have hnone : ∀ {d' : Disk Text}, d'.receipts = d.receipts → received d.receipts.length d' = [] := by
    intro d' h
    rw [received, h, List.drop_length]
    rfl
  have hspent : spentBytes d.receipts.length d ≤ args.maxNewBytes := by
    rw [spentBytes, hnone rfl]
    exact Nat.zero_le _
  refine Safe.along_seq (Safe.along safe_preflight hspent) fun kubo d₁ _ hd₁ => ?_
  obtain ⟨hquiet, hsound, hunseen⟩ := hd₁
  have hgoing : Going site args d.store d.receipts.length ⟨state, kubo, 0, 0, 0, 0⟩ k d₁ := {
    loaded := hquiet.files ▸ hload
    placed := hplaced
    sound := hsound
    unseen := hunseen
    receipts := hquiet.receipts ▸ Nat.le_refl _
    bytes := by
      rw [spentBytes, hnone hquiet.receipts]
      rfl
    blocks := by
      rw [hnone hquiet.receipts]
      rfl
    budget := Nat.zero_le _
    flipped := fun h => absurd h (Nat.lt_irrefl 0) }
  exact safe_pageLoop args.maxPages hgoing hk

/-! ## The checks of the checkpoint -/

/-- **The checks of the checkpoint** touch nothing but the files, and save what they return. -/
theorem safe_prepare [DecidableEq Text] {args : Args} {part : Nat} (hload : loadText site.codec site.plain d.files.checkpoint = .ok state) :
    (prepare site part args).Safe
      (fun d' => ∃ files, d' = { d with files := files } ∧ (files.checkpoint = d.files.checkpoint ∨
        ∃ plan, planOf args.listing state = .ok plan ∧
          loadText site.codec site.plain files.checkpoint = .ok (plan.apply state)))
      (fun r d' => match r with
        | .ok state' => ∃ plan, planOf args.listing state = .ok plan ∧ state' = plan.apply state ∧
            loadText site.codec site.plain d'.files.checkpoint = .ok state'
        | .error e => e.failing = true ∨ ¬∃ plan, planOf args.listing state = .ok plan ∧ plan.Ready d.files) d := by
  refine (safe_onFiles (safe_loaded hload (safe_prepareListingState hload))).imp ?_ ?_
  · rintro d' ⟨files, hc, rfl⟩
    refine ⟨files, rfl, hc.imp_right ?_⟩
    rintro ⟨plan, hplan, hnew⟩
    refine ⟨plan, hplan, ?_⟩
    rw [hnew]
    exact loadText_dumps
  · rintro r d' ⟨r₀, files, hr, rfl, rfl⟩
    rcases hr with ⟨plan, hplan, rfl, hnew⟩ | ⟨⟨e, rfl⟩, hos | hno⟩
    · exact ⟨plan, hplan, rfl, hnew⟩
    · obtain rfl := Except.error.inj hos
      exact .inl rfl
    · exact .inr hno

end Replicate.Batch
