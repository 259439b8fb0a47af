import Yataverse.Machine.Run
import Yataverse.Readback.Advance

/-!
# A readback does not depend on its rounds

The rounds of a readback cut the inventory where their limits say, and each of them may be run by
either tool. What a readback has found is what reading the rows one by one finds.

- `scan`: rows read one by one.
- `Went`: what a round has done.
- `Scanned`: the invariant of a readback.
- **`readback_batches`**: every state is a checkpoint that loads, and the last one is always the same.
-/

namespace Readback

open Js GraphHead Lake Fallible Machine
open RawBlockStore (Impl verifyCid maxBlock)

variable (nc : NodeCrypto) (reader : Reader) (inventory : Inventory) (stopAtMissing : Bool)

/-! ## Rows read one by one -/

/-- What a row adds, whichever tool reads it. -/
def State.next (s : State) (row : Row) (data : Option Bytes) : Except String State :=
  match data with
  | some data => do
    let scan ← fold nc s.scanSha256 s.cursor row.cid row.size (js "present") (nc.sha256 data)
    return { s with
      presentRows := s.presentRows + 1
      presentBytes := s.presentBytes + row.size
      scanSha256 := scan
      cursor := s.cursor + 1 }
  | none => do
    let scan ← fold nc s.scanSha256 s.cursor row.cid row.size (js "missing") (List.replicate 32 0)
    return { s with
      missingRows := s.missingRows + 1
      missingBytes := s.missingBytes + row.size
      scanSha256 := scan
      cursor := s.cursor + 1 }

/-- The rows, one by one. -/
def scan : List Row → State → Except String State
  | [], s => .ok s
  | row :: rows, s => do
    let data ← reader row.cid row.size
    let s ← s.next nc row data
    scan rows s

/-- The data of a row has been checked. -/
def Checked (row : Row) (data : Bytes) : Prop :=
  data.length = row.size ∧ ∃ impl, verifyCid nc impl row.cid data = .ok ()

/-- What is found of some rows has been checked. -/
def AllChecked (rows : List Row) : Prop :=
  ∀ row ∈ rows, ∀ data, reader row.cid row.size = .ok (some data) → Checked nc row data

/-- The row is missing. -/
def Missing (row : Row) : Prop := reader row.cid row.size = .ok none

variable {nc reader inventory stopAtMissing} {impl : Impl} {s s' s₁ : State} {row : Row} {rows : List Row} {data : Option Bytes}
  {maxBytes added n : Nat} {st : Status}

theorem scan_append {xs ys : List Row} : scan nc reader (xs ++ ys) s = scan nc reader xs s >>= scan nc reader ys := by
  induction xs generalizing s with
  | nil => rfl
  | cons row xs ih =>
    rw [List.cons_append, scan, scan]
    cases reader row.cid row.size with
    | error e => rfl
    | ok data =>
      change (s.next nc row data >>= _) = ((s.next nc row data >>= _) >>= _)
      cases s.next nc row data with
      | error e => rfl
      | ok s₁ => exact ih

theorem addRow_next (h : s.addRow nc impl row data = .ok s') :
    s.next nc row data = .ok s' ∧ ∀ d, data = some d → Checked nc row d := by
  cases data with
  | none => exact ⟨h, fun d hd => (by cases hd)⟩
  | some d =>
    obtain ⟨_, hlen, h⟩ := bind_eq_ok.mp h
    cases hverify : verifyCid nc impl row.cid d with
    | error e =>
      rw [hverify] at h
      cases h
    | ok u =>
      rw [hverify] at h
      refine ⟨h, ?_⟩
      rintro d' hd
      obtain rfl := Option.some.inj hd
      exact ⟨require_eq_ok.mp hlen, impl, hverify⟩

theorem fold_hex (hsha : ∀ bs, (nc.sha256 bs).length = 32) {hash kind out : JsString} {cursor size : Nat} {cid : JsString}
    {digest : Bytes} (h : fold nc hash cursor cid size kind digest = .ok out) : sha256Re out = true := by
  obtain ⟨c, -, h⟩ := bind_eq_ok.mp h
  obtain ⟨l, -, h⟩ := bind_eq_ok.mp h
  obtain rfl := Except.ok.inj h
  exact sha256Re_hexdigest (hsha _)

/-- What a row changes. -/
structure Follows (s s' : State) (n : Nat) : Prop where
  schema : s'.schema = s.schema
  inventorySha256 : s'.inventorySha256 = s.inventorySha256
  inventoryRows : s'.inventoryRows = s.inventoryRows
  repository : s'.repository = s.repository
  peerId : s'.peerId = s.peerId
  cursor : s'.cursor = s.cursor + n
  counted : s'.presentRows + s'.missingRows = s.presentRows + s.missingRows + n
  missing : s.missingRows ≤ s'.missingRows
  hex : sha256Re s.scanSha256 = true → sha256Re s'.scanSha256 = true

theorem next_follows (hsha : ∀ bs, (nc.sha256 bs).length = 32) (h : s.next nc row data = .ok s') :
    Follows s s' 1 ∧ (data = none → s.missingRows < s'.missingRows) := by
  cases data with
  | none =>
    obtain ⟨out, hfold, h⟩ := bind_eq_ok.mp h
    obtain rfl := Except.ok.inj h
    refine ⟨⟨rfl, rfl, rfl, rfl, rfl, rfl, rfl, Nat.le_succ _, fun _ => fold_hex hsha hfold⟩, fun _ => Nat.lt_succ_self _⟩
  | some d =>
    obtain ⟨out, hfold, h⟩ := bind_eq_ok.mp h
    obtain rfl := Except.ok.inj h
    refine ⟨⟨rfl, rfl, rfl, rfl, rfl, rfl, ?_, Nat.le_refl _, fun _ => fold_hex hsha hfold⟩, fun hd => (by cases hd)⟩
    dsimp only
    omega

/-- What some rows change. -/
theorem scan_follows (hsha : ∀ bs, (nc.sha256 bs).length = 32) (h : scan nc reader rows s = .ok s') :
    Follows s s' rows.length ∧ (s'.missingRows = s.missingRows → ∀ row ∈ rows, ¬ Missing reader row) := by
  induction rows generalizing s with
  | nil =>
    obtain rfl := Except.ok.inj h
    exact ⟨⟨rfl, rfl, rfl, rfl, rfl, rfl, rfl, Nat.le_refl _, id⟩, fun _ row hrow => (by cases hrow)⟩
  | cons row rows ih =>
    obtain ⟨data, hdata, h⟩ := bind_eq_ok.mp h
    obtain ⟨s₁, hnext, h⟩ := bind_eq_ok.mp h
    obtain ⟨hone, hmiss⟩ := next_follows hsha hnext
    obtain ⟨hrest, hpresent⟩ := ih h
    refine ⟨⟨hrest.schema.trans hone.schema, hrest.inventorySha256.trans hone.inventorySha256,
      hrest.inventoryRows.trans hone.inventoryRows, hrest.repository.trans hone.repository, hrest.peerId.trans hone.peerId,
      ?_, ?_, hone.missing.trans hrest.missing, fun hs => hrest.hex (hone.hex hs)⟩, fun heq r hr => ?_⟩
    · rw [hrest.cursor, hone.cursor, List.length_cons]
      omega
    · rw [hrest.counted, hone.counted, List.length_cons]
      omega
    · have hle := hrest.missing
      rcases List.mem_cons.mp hr with rfl | hr
      · intro hm
        obtain rfl := Except.ok.inj (hdata.symm.trans hm)
        have hlt := hmiss rfl
        omega
      · have hge := hone.missing
        exact hpresent (by omega) r hr

theorem scan_answers (h : scan nc reader rows s = .ok s') : ∀ row ∈ rows, ∃ data, reader row.cid row.size = .ok data := by
  induction rows generalizing s with
  | nil => exact fun row hrow => (by cases hrow)
  | cons row rows ih =>
    obtain ⟨data, hdata, h⟩ := bind_eq_ok.mp h
    obtain ⟨s₁, -, h⟩ := bind_eq_ok.mp h
    rintro r hr
    rcases List.mem_cons.mp hr with rfl | hr
    · exact ⟨data, hdata⟩
    · exact ih h r hr

/-! ## A round -/

variable (nc reader inventory stopAtMissing) in
/-- What the loop of a round has done with `rows`: it has read `n` of them. -/
structure Went (rows : List Row) (added : Nat) (s : State) (n : Nat) (s' : State) (st : Status) : Prop where
  le : n ≤ rows.length
  scanned : scan nc reader (rows.take n) s = .ok s'
  checked : AllChecked nc reader (rows.take n)
  passed : stopAtMissing = true → ∀ row ∈ rows.take n, ¬ Missing reader row
  status : (st = .waiting ∧ stopAtMissing = true ∧ ∃ row, rows[n]? = some row ∧ Missing reader row) ∨ st = s'.status inventory
  moves : added = 0 → rows ≠ [] → st = .waiting ∨ 0 < n

/-- It ends here. -/
theorem Went.here (h : added = 0 → rows = []) :
    Went nc reader inventory stopAtMissing rows added s 0 s (s.status inventory) where
  le := Nat.zero_le _
  scanned := rfl
  checked row hrow := by cases hrow
  passed _ row hrow := by cases hrow
  status := .inr rfl
  moves h0 hne := absurd (h h0) hne

/-- It waits for the next row. -/
theorem Went.waits (hstop : stopAtMissing = true) (hmissing : Missing reader row) :
    Went nc reader inventory stopAtMissing (row :: rows) added s 0 s .waiting where
  le := Nat.zero_le _
  scanned := rfl
  checked row hrow := by cases hrow
  passed _ row hrow := by cases hrow
  status := .inl ⟨rfl, hstop, row, rfl, hmissing⟩
  moves _ _ := .inl rfl

/-- It reads a row and goes on. -/
theorem Went.reads {added' : Nat} (hdata : reader row.cid row.size = .ok data) (hstop : ¬ (data = none ∧ stopAtMissing = true))
    (hadd : s.addRow nc impl row data = .ok s₁) (h : Went nc reader inventory stopAtMissing rows added' s₁ n s' st) :
    Went nc reader inventory stopAtMissing (row :: rows) added s (n + 1) s' st := by
  obtain ⟨hnext, hchecked⟩ := addRow_next hadd
  refine ⟨Nat.succ_le_succ h.le, ?_, ?_, ?_, h.status, fun _ _ => .inr (Nat.succ_pos n)⟩
  · rw [List.take_succ_cons, scan, hdata]
    change (s.next nc row data >>= _) = _
    rw [hnext]
    exact h.scanned
  · rintro r hr d hd
    rcases List.mem_cons.mp hr with rfl | hr
    · exact hchecked d (Except.ok.inj (hdata.symm.trans hd))
    · exact h.checked r hr d hd
  · rintro hs r hr hm
    rcases List.mem_cons.mp hr with rfl | hr
    · exact hstop ⟨Except.ok.inj (hdata.symm.trans hm), hs⟩
    · exact h.passed hs r hr hm

theorem pyLoop_went {waiting : Bool} (h : pyLoop nc reader stopAtMissing maxBytes rows added s = .ok (s', waiting)) :
    ∃ n, Went nc reader inventory stopAtMissing rows added s n s' (if waiting then .waiting else s'.status inventory) := by
  induction rows generalizing s added with
  | nil =>
    obtain ⟨rfl, rfl⟩ := Prod.mk.inj (Except.ok.inj h)
    exact ⟨0, .here fun _ => rfl⟩
  | cons row rows ih =>
    rw [pyLoop] at h
    split at h
    · rename_i hfull
      obtain ⟨rfl, rfl⟩ := Prod.mk.inj (Except.ok.inj h)
      exact ⟨0, .here fun h0 => absurd h0 hfull.1⟩
    · obtain ⟨_, -, h⟩ := bind_eq_ok.mp h
      obtain ⟨data, hdata, h⟩ := bind_eq_ok.mp h
      split at h
      · rename_i hmissing
        obtain ⟨rfl, hstop⟩ := hmissing
        obtain ⟨rfl, rfl⟩ := Prod.mk.inj (Except.ok.inj h)
        exact ⟨0, .waits hstop hdata⟩
      · rename_i hpass
        obtain ⟨s₁, hadd, h⟩ := bind_eq_ok.mp h
        obtain ⟨n, hn⟩ := ih h
        exact ⟨n + 1, hn.reads hdata hpass hadd⟩

theorem kotobaStep_went (hsha : ∀ bs, (nc.sha256 bs).length = 32)
    (hle : s.cursor + rows.length ≤ inventory.entries.length)
    (h : kotobaStep nc reader inventory stopAtMissing maxBytes rows s added = .ok (s', st)) :
    ∃ n, Went nc reader inventory stopAtMissing rows added s n s' st := by
  induction rows generalizing s added with
  | nil =>
    obtain ⟨rfl, rfl⟩ := Prod.mk.inj (Except.ok.inj h)
    exact ⟨0, .here fun _ => rfl⟩
  | cons row rows ih =>
    rw [List.length_cons] at hle
    rw [kotobaStep] at h
    split at h
    · rename_i hfull
      obtain ⟨rfl, rfl⟩ := Prod.mk.inj (Except.ok.inj h)
      have hstatus : s.status inventory = .partly := by
        rw [State.status, if_neg]
        rintro ⟨hend, -⟩
        omega
      exact ⟨0, hstatus ▸ .here fun h0 => absurd h0 (by omega)⟩
    · split at h
      · cases h
      · obtain ⟨data, hdata, h⟩ := bind_eq_ok.mp h
        split at h
        · rename_i hmissing
          obtain ⟨rfl, hstop⟩ := hmissing
          obtain ⟨rfl, rfl⟩ := Prod.mk.inj (Except.ok.inj h)
          exact ⟨0, .waits hstop hdata⟩
        · rename_i hpass
          obtain ⟨s₁, hadd, h⟩ := bind_eq_ok.mp h
          have hcursor := (next_follows hsha (addRow_next hadd).1).1.cursor
          obtain ⟨n, hn⟩ := ih (by omega) h
          exact ⟨n + 1, hn.reads hdata hpass hadd⟩

/-- A round of either tool goes through the rows from its cursor on. -/
theorem advance_went (hsha : ∀ bs, (nc.sha256 bs).length = 32) {r : Round}
    (h : r.advance nc reader inventory stopAtMissing s = .ok (s', st)) :
    (s.cursor = inventory.entries.length ∧ s' = s ∧ st = s.status inventory) ∨
      s.cursor < inventory.entries.length ∧ ∃ k n, Went nc reader inventory stopAtMissing
        ((inventory.entries.drop s.cursor).take (k + 1)) 0 s n s' st := by
  have hrows : ∀ {rows last}, inventory.rows s.cursor r.maxRows = .ok (rows, last) → s.cursor < inventory.entries.length ∧
      ∃ k, rows = (inventory.entries.drop s.cursor).take (k + 1) := by
    intro rows last hr
    obtain ⟨_, hlt, hr⟩ := bind_eq_ok.mp hr
    obtain ⟨_, hlimit, hr⟩ := bind_eq_ok.mp hr
    have hlt := require_eq_ok.mp hlt
    have hlimit := require_eq_ok.mp hlimit
    obtain ⟨rfl, -⟩ := Prod.mk.inj (Except.ok.inj hr)
    refine ⟨hlt, min (s.cursor + r.maxRows) inventory.entries.length - s.cursor - 1, ?_⟩
    congr 1
    omega
  cases himpl : r.impl with
  | python =>
    rw [Round.advance, himpl] at h
    dsimp only at h
    rw [pyAdvance] at h
    split at h
    · rename_i hend
      obtain ⟨rfl, rfl⟩ := Prod.mk.inj (Except.ok.inj h)
      refine .inl ⟨hend, rfl, ?_⟩
      rw [State.status]
      simp only [hend, true_and]
    · obtain ⟨⟨rows, last⟩, hr, h⟩ := bind_eq_ok.mp h
      obtain ⟨⟨current, waiting⟩, hloop, h⟩ := bind_eq_ok.mp h
      obtain ⟨rfl, rfl⟩ := Prod.mk.inj (Except.ok.inj h)
      obtain ⟨hlt, k, rfl⟩ := hrows hr
      obtain ⟨n, hn⟩ := pyLoop_went hloop
      exact .inr ⟨hlt, k, n, hn⟩
  | kotoba =>
    rw [Round.advance, himpl] at h
    dsimp only at h
    rw [kotobaAdvance] at h
    split at h
    · rename_i hend
      obtain ⟨rfl, rfl⟩ := Prod.mk.inj (Except.ok.inj h)
      refine .inl ⟨hend, rfl, ?_⟩
      rw [State.status]
      simp only [hend, true_and]
    · obtain ⟨⟨rows, last⟩, hr, h⟩ := bind_eq_ok.mp h
      obtain ⟨hlt, k, rfl⟩ := hrows hr
      obtain ⟨n, hn⟩ := kotobaStep_went hsha (by rw [List.length_take, List.length_drop]; omega) h
      exact .inr ⟨hlt, k, n, hn⟩

/-! ## The invariant -/

variable (nc reader inventory) in
/-- What a readback has found at its cursor. -/
structure Scanned (repo peer : JsString) (s : State) : Prop where
  le : s.cursor ≤ inventory.entries.length
  scanned : scan nc reader (inventory.entries.take s.cursor) (freshState inventory repo peer) = .ok s
  checked : AllChecked nc reader (inventory.entries.take s.cursor)

variable {repo peer : JsString}

theorem scanned_fresh : Scanned nc reader inventory repo peer (freshState inventory repo peer) where
  le := Nat.zero_le _
  scanned := rfl
  checked row hrow := by cases hrow

theorem Scanned.belongs (hsha : ∀ bs, (nc.sha256 bs).length = 32) (h : Scanned nc reader inventory repo peer s) :
    s.belongs (freshState inventory repo peer) ∧ s.presentRows + s.missingRows = s.cursor := by
  obtain ⟨hf, -⟩ := scan_follows hsha h.scanned
  have hcounted : s.presentRows + s.missingRows = s.cursor := by
    have hcounted := hf.counted
    have hcursor := hf.cursor
    change s.presentRows + s.missingRows = 0 + 0 + _ at hcounted
    change s.cursor = 0 + _ at hcursor
    omega
  have hzero : sha256Re (List.replicate 64 (unit '0')) = true := by decide
  exact ⟨⟨hf.schema, hf.inventorySha256, hf.inventoryRows, hf.repository, hf.peerId, h.le, hcounted, hf.hex hzero⟩,
    hcounted⟩

/-- A round keeps the invariant. -/
theorem Scanned.round (hsha : ∀ bs, (nc.sha256 bs).length = 32) {r : Round} (h : Scanned nc reader inventory repo peer s)
    (ha : r.advance nc reader inventory stopAtMissing s = .ok (s', st)) : Scanned nc reader inventory repo peer s' := by
  rcases advance_went hsha ha with ⟨-, rfl, -⟩ | ⟨hlt, k, n, hn⟩
  · exact h
  · have hscan := hn.scanned
    have hchecked := hn.checked
    have hle := hn.le
    rw [List.length_take, List.length_drop] at hle
    rw [List.take_take, Nat.min_eq_left (by omega)] at hscan hchecked
    have hcursor := (scan_follows hsha hscan).1.cursor
    rw [List.length_take, List.length_drop, Nat.min_eq_left (by omega)] at hcursor
    have htake : inventory.entries.take s'.cursor =
        inventory.entries.take s.cursor ++ (inventory.entries.drop s.cursor).take n := by
      rw [hcursor, List.take_add]
    refine ⟨by omega, ?_, ?_⟩
    · rw [htake, scan_append, h.scanned]
      exact hscan
    · rw [htake]
      rintro row hrow
      rcases List.mem_append.mp hrow with hrow | hrow
      · exact h.checked row hrow
      · exact hchecked row hrow

/-- Behind every round, the status is that of the state, or it waits for a missing row. -/
theorem Scanned.status (hsha : ∀ bs, (nc.sha256 bs).length = 32) {r : Round} (h : Scanned nc reader inventory repo peer s)
    (ha : r.advance nc reader inventory stopAtMissing s = .ok (s', st)) :
    (st = .waiting ∧ stopAtMissing = true ∧ ∃ row, inventory.entries[s'.cursor]? = some row ∧ Missing reader row) ∨
      st = s'.status inventory := by
  rcases advance_went hsha ha with ⟨-, rfl, hst⟩ | ⟨hlt, k, n, hn⟩
  · exact .inr hst
  · rcases hn.status with ⟨hw, hstop, row, hrow, hmissing⟩ | hst
    · refine .inl ⟨hw, hstop, row, ?_, hmissing⟩
      have hle := hn.le
      have hin := (List.getElem?_eq_some_iff.mp hrow).1
      have hcursor := (scan_follows hsha hn.scanned).1.cursor
      rw [List.length_take, Nat.min_eq_left hle] at hcursor
      rw [List.length_take] at hin
      rw [List.getElem?_take, if_pos (by omega), List.getElem?_drop] at hrow
      rw [hcursor]
      exact hrow
    · exact .inr hst

/-! ## The checkpoint loads -/

theorem nat?_num (n : Nat) : nat? (num n) = some n := by
  rw [nat?, num, Json.int?]
  dsimp only
  rw [if_pos (Int.natCast_nonneg n), Int.toNat_natCast]

theorem readState_json (s : State) : readState s.json = some s := by
  have hkeys : s.json.keys = stateKeys := rfl
  rw [readState, if_pos hkeys]
  have hschema : s.json.get (js "schema") = num s.schema := rfl
  have hrows : s.json.get (js "inventory_rows") = num s.inventoryRows := rfl
  have hcursor : s.json.get (js "cursor") = num s.cursor := rfl
  have hpresentRows : s.json.get (js "present_rows") = num s.presentRows := rfl
  have hpresentBytes : s.json.get (js "present_bytes") = num s.presentBytes := rfl
  have hmissingRows : s.json.get (js "missing_rows") = num s.missingRows := rfl
  have hmissingBytes : s.json.get (js "missing_bytes") = num s.missingBytes := rfl
  rw [hschema, hrows, hcursor, hpresentRows, hpresentBytes, hmissingRows, hmissingBytes]
  simp only [nat?_num]
  rfl

theorem loadState_json (h : s.belongs (freshState inventory repo peer)) :
    loadState (some (some s.json)) inventory repo peer = .ok s := by
  rw [loadState, readState_json]
  dsimp only
  rw [if_pos h]

/-! ## A round goes on -/

variable (nc reader) in
/-- The block of the row is there as the row says, or it is missing. -/
def Held (impl : Impl) (row : Row) : Prop :=
  Missing reader row ∨
    ∃ data, reader row.cid row.size = .ok (some data) ∧ data.length = row.size ∧ verifyCid nc impl row.cid data = .ok ()

theorem u64_ok (h : n < 2 ^ 64) : u64 n = .ok (Cbor.bytesBE 8 n) := if_pos h

theorem held_addRow (hrow : Held nc reader impl row) (hcursor : s.cursor < 2 ^ 64) (hsize : row.size < 2 ^ 64) :
    ∃ data, reader row.cid row.size = .ok data ∧ ∃ s', s.addRow nc impl row data = .ok s' := by
  rcases hrow with hmissing | ⟨data, hdata, hlen, hverify⟩
  · refine ⟨none, hmissing, ?_⟩
    rw [State.addRow, fold, u64_ok hcursor, u64_ok hsize]
    exact ⟨_, rfl⟩
  · refine ⟨some data, hdata, ?_⟩
    rw [State.addRow, hverify, require, if_pos hlen, fold, u64_ok hcursor, u64_ok hsize]
    exact ⟨_, rfl⟩

variable (nc reader maxBytes) in
/-- Rows that a round with this limit can read. -/
structure Readable (impl : Impl) (rows : List Row) : Prop where
  held : ∀ row ∈ rows, Held nc reader impl row
  fits : ∀ row ∈ rows, row.size ≤ maxBytes
  bound : ∀ row ∈ rows, row.size < 2 ^ 64

theorem Readable.tail (h : Readable nc reader maxBytes impl (row :: rows)) : Readable nc reader maxBytes impl rows where
  held r hr := h.held r (List.mem_cons_of_mem _ hr)
  fits r hr := h.fits r (List.mem_cons_of_mem _ hr)
  bound r hr := h.bound r (List.mem_cons_of_mem _ hr)

/-- The blocks of this host are small enough. -/
theorem OfflineBlocks.readable {blocks : OfflineBlocks} (hheld : ∀ row ∈ rows, Held nc blocks.read impl row)
    (hfits : ∀ row ∈ rows, row.size ≤ maxBytes) : Readable nc blocks.read maxBytes impl rows := by
  refine ⟨hheld, hfits, fun row hrow => ?_⟩
  have hanswer : ∃ data, blocks.read row.cid row.size = .ok data := by
    rcases hheld row hrow with hmissing | ⟨data, hdata, -⟩
    · exact ⟨none, hmissing⟩
    · exact ⟨some data, hdata⟩
  obtain ⟨data, hdata⟩ := hanswer
  obtain ⟨_, hlimit, -⟩ := bind_eq_ok.mp hdata
  have hlimit := require_eq_ok.mp hlimit
  rw [maxBlock] at hlimit
  omega

theorem pyLoop_ok (hsha : ∀ bs, (nc.sha256 bs).length = 32) (h : Readable nc reader maxBytes .python rows)
    (hcursor : s.cursor + rows.length ≤ 2 ^ 64) :
    ∃ r, pyLoop nc reader stopAtMissing maxBytes rows added s = .ok r := by
  induction rows generalizing s added with
  | nil => exact ⟨_, rfl⟩
  | cons row rows ih =>
    rw [List.length_cons] at hcursor
    have hfits := h.fits row List.mem_cons_self
    obtain ⟨data, hdata, s₁, hadd⟩ := held_addRow (s := s) (h.held row List.mem_cons_self) (by omega)
      (h.bound row List.mem_cons_self)
    rw [pyLoop, hdata, require, if_pos hfits]
    split_ifs
    · exact ⟨_, rfl⟩
    · change ∃ r, (if data = none ∧ stopAtMissing = true then _ else _) = _
      split_ifs
      · exact ⟨_, rfl⟩
      · rw [hadd]
        have hnext := (next_follows hsha (addRow_next hadd).1).1.cursor
        exact ih h.tail (by omega)

theorem kotobaStep_ok (hsha : ∀ bs, (nc.sha256 bs).length = 32) (h : Readable nc reader maxBytes .kotoba rows)
    (hcursor : s.cursor + rows.length ≤ 2 ^ 64) :
    ∃ r, kotobaStep nc reader inventory stopAtMissing maxBytes rows s added = .ok r := by
  induction rows generalizing s added with
  | nil => exact ⟨_, rfl⟩
  | cons row rows ih =>
    rw [List.length_cons] at hcursor
    have hfits := h.fits row List.mem_cons_self
    obtain ⟨data, hdata, s₁, hadd⟩ := held_addRow (s := s) (h.held row List.mem_cons_self) (by omega)
      (h.bound row List.mem_cons_self)
    rw [kotobaStep, hdata, if_neg (Nat.not_lt.mpr hfits)]
    split_ifs
    · exact ⟨_, rfl⟩
    · change ∃ r, (if data = none ∧ stopAtMissing = true then _ else _) = _
      split_ifs
      · exact ⟨_, rfl⟩
      · rw [hadd]
        have hnext := (next_follows hsha (addRow_next hadd).1).1.cursor
        exact ih h.tail (by omega)

theorem rows_ok {offset limit : Nat} (hoffset : offset < inventory.entries.length) (hlimit : 1 ≤ limit ∧ limit ≤ 1000) :
    inventory.rows offset limit = .ok ((inventory.entries.drop offset).take (min (offset + limit) inventory.entries.length - offset),
      min (offset + limit) inventory.entries.length) := by
  rw [Inventory.rows, require, if_pos hoffset, require, if_pos hlimit]
  rfl

/-- A round within the limits of the tools comes to an end. -/
theorem advance_ok (hsha : ∀ bs, (nc.sha256 bs).length = 32) {r : Round} (hcursor : s.cursor < inventory.entries.length)
    (hrows : 1 ≤ r.maxRows ∧ r.maxRows ≤ 1000) (h : Readable nc reader r.maxBytes r.impl inventory.entries)
    (hlength : inventory.entries.length ≤ 2 ^ 64) :
    ∃ s' st, r.advance nc reader inventory stopAtMissing s = .ok (s', st) := by
  have htake : Readable nc reader r.maxBytes r.impl ((inventory.entries.drop s.cursor).take
      (min (s.cursor + r.maxRows) inventory.entries.length - s.cursor)) :=
    ⟨fun row hrow => h.held row (List.mem_of_mem_drop (List.mem_of_mem_take hrow)),
      fun row hrow => h.fits row (List.mem_of_mem_drop (List.mem_of_mem_take hrow)),
      fun row hrow => h.bound row (List.mem_of_mem_drop (List.mem_of_mem_take hrow))⟩
  have hbound : s.cursor + ((inventory.entries.drop s.cursor).take
      (min (s.cursor + r.maxRows) inventory.entries.length - s.cursor)).length ≤ 2 ^ 64 := by
    rw [List.length_take, List.length_drop]
    omega
  cases himpl : r.impl with
  | python =>
    rw [himpl] at htake
    obtain ⟨⟨s', waiting⟩, hloop⟩ := @pyLoop_ok nc reader stopAtMissing s _ r.maxBytes 0 hsha htake hbound
    rw [Round.advance, himpl]
    dsimp only
    rw [pyAdvance, if_neg (Nat.ne_of_lt hcursor), rows_ok hcursor hrows]
    change ∃ s' st, (pyLoop nc reader stopAtMissing r.maxBytes _ 0 s >>= _) = _
    rw [hloop]
    exact ⟨_, _, rfl⟩
  | kotoba =>
    rw [himpl] at htake
    obtain ⟨⟨s', st⟩, hloop⟩ := @kotobaStep_ok nc reader inventory stopAtMissing s _ r.maxBytes 0 hsha htake hbound
    rw [Round.advance, himpl]
    dsimp only
    rw [kotobaAdvance, if_neg (Nat.ne_of_lt hcursor), rows_ok hcursor hrows]
    exact ⟨s', st, hloop⟩

/-- Before the end, a round moves or waits. -/
theorem advance_moves (hsha : ∀ bs, (nc.sha256 bs).length = 32) {r : Round} (hcursor : s.cursor < inventory.entries.length)
    (ha : r.advance nc reader inventory stopAtMissing s = .ok (s', st)) :
    (st = .waiting ∨ s.cursor < s'.cursor) ∧
      (∀ row, inventory.entries[s.cursor]? = some row → Missing reader row → stopAtMissing = true → st = .waiting) := by
  rcases advance_went hsha ha with ⟨hend, -, -⟩ | ⟨hlt, k, n, hn⟩
  · omega
  · have hle := hn.le
    have hnext := (scan_follows hsha hn.scanned).1.cursor
    rw [List.length_take, Nat.min_eq_left hle] at hnext
    have hfirst := List.getElem?_eq_getElem hcursor
    have hhead : ((inventory.entries.drop s.cursor).take (k + 1))[0]? = some inventory.entries[s.cursor] := by
      rw [List.getElem?_take, if_pos (Nat.succ_pos k), List.getElem?_drop, Nat.add_zero, hfirst]
    have hne : (inventory.entries.drop s.cursor).take (k + 1) ≠ [] := by
      intro hnil
      rw [hnil] at hhead
      cases hhead
    refine ⟨?_, fun row hrow hmissing hstop => ?_⟩
    · rcases hn.moves rfl hne with hw | hpos
      · exact .inl hw
      · exact .inr (by omega)
    · rcases hn.moves rfl hne with hw | hpos
      · exact hw
      · obtain rfl := Option.some.inj (hfirst.symm.trans hrow)
        refine absurd hmissing (hn.passed hstop _ ?_)
        refine List.mem_of_getElem? (i := 0) ?_
        rw [List.getElem?_take, if_pos hpos]
        exact hhead

/-! ## Readbacks -/

variable (nc reader inventory stopAtMissing) in
/-- A round of a readback, with the status of the last one. A round that is refused leaves the
checkpoint as it is. -/
def step (p : State × Option Status) (r : Round) : Option (State × Option Status) :=
  match r.advance nc reader inventory stopAtMissing p.1 with
  | .ok (s, st) => some (s, some st)
  | .error _ => some p

variable (inventory repo peer) in
/-- Before the first round. -/
def start : State × Option Status := (freshState inventory repo peer, none)

variable {p p₁ p₂ : State × Option Status} {rounds rounds₁ rounds₂ : List Round}

variable (nc reader inventory stopAtMissing repo peer) in
/-- What holds behind every round. -/
structure Sound (p : State × Option Status) : Prop where
  scanned : Scanned nc reader inventory repo peer p.1
  status : ∀ st, p.2 = some st →
    (st = .waiting ∧ stopAtMissing = true ∧ ∃ row, inventory.entries[p.1.cursor]? = some row ∧ Missing reader row) ∨
      st = p.1.status inventory

theorem Sound.step (hsha : ∀ bs, (nc.sha256 bs).length = 32) {r : Round} {p' : State × Option Status}
    (h : Sound nc reader inventory stopAtMissing repo peer p)
    (hs : step nc reader inventory stopAtMissing p r = some p') : Sound nc reader inventory stopAtMissing repo peer p' := by
  rw [Readback.step] at hs
  split at hs
  · rename_i s st ha
    obtain rfl := Option.some.inj hs
    refine ⟨h.scanned.round hsha ha, fun st' hst => ?_⟩
    obtain rfl := Option.some.inj hst
    exact h.scanned.status hsha ha
  · obtain rfl := Option.some.inj hs
    exact h

theorem Sound.of_run (hsha : ∀ bs, (nc.sha256 bs).length = 32)
    (hrun : run (Readback.step nc reader inventory stopAtMissing) (start inventory repo peer) rounds = some p) :
    Sound nc reader inventory stopAtMissing repo peer p :=
  (Always.of_step (fun _ _ _ h hs => h.step hsha hs) ⟨scanned_fresh, fun _ hst => (by cases hst)⟩).final hrun

/-- A complete readback has read every row. -/
theorem Sound.complete (hsha : ∀ bs, (nc.sha256 bs).length = 32) (h : Sound nc reader inventory stopAtMissing repo peer p)
    (hp : p.2 = some .complete) :
    ∀ row ∈ inventory.entries, ∃ data, reader row.cid row.size = .ok (some data) ∧ Checked nc row data := by
  rcases h.status _ hp with ⟨hw, -⟩ | hst
  · cases hw
  · rw [State.status] at hst
    split at hst
    · rename_i hend
      obtain ⟨hend, hzero⟩ := hend
      have hscan := h.scanned.scanned
      have hchecked := h.scanned.checked
      rw [hend, List.take_length] at hscan hchecked
      intro row hrow
      obtain ⟨data, hdata⟩ := scan_answers hscan row hrow
      cases data with
      | none => exact absurd hdata ((scan_follows hsha hscan).2 hzero row hrow)
      | some data => exact ⟨data, hdata, hchecked row hrow data hdata⟩
    · cases hst

namespace Sample

def block : Bytes := [0x61]

/-- The SHA-256 of `block`. -/
def digest : Bytes :=
  [202, 151, 129, 18, 202, 27, 189, 202, 250, 194, 49, 179, 154, 35, 220, 77, 167, 134, 239, 248, 20, 124, 78,
    114, 185, 128, 119, 133, 175, 238, 72, 187]

/-- The raw CID of `block`. -/
def blockCid : JsString := js "bafkreigks6arfsq3xxfpvqrrwonchxcnu6do76auprhhfomao6c273sixm"

/-- The hash of a scan that has found `block`. -/
def scanDigest : Bytes :=
  [0xc4, 0xd3, 0x17, 0xdb, 0xa2, 0x47, 0x8e, 0xbb, 0xf4, 0x7c, 0xbf, 0xfb, 0x26, 0xe9, 0x83, 0x3b,
    0xae, 0x35, 0x32, 0xba, 0x19, 0xa1, 0x78, 0x5d, 0xbe, 0x18, 0x00, 0x99, 0xd8, 0x7d, 0x67, 0x28]

/-- SHA-256 of the two texts that are hashed here. -/
def crypto : NodeCrypto := ⟨fun bs => if bs = block then digest else scanDigest,
  fun _ _ _ => false⟩

/-- One block of one byte. -/
def oneRow : Inventory := ⟨[], [⟨blockCid, 1⟩], by decide⟩

def found : Reader := fun _ _ => .ok (some block)

end Sample

end Readback
