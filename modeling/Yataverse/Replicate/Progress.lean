import Yataverse.Replicate.Quiet
import Mathlib.Algebra.Order.BigOperators.Group.List
import Mathlib.Logic.Relation

/-!
# What a replication is to do

The replication without its files, commands and batches: rows of an inventory become durable, in
any order; the cursor passes a page when all its rows are durable; a cycle is complete when the
last page has been passed.

- `Progress`, `Progress.Step`: that machine.
- `Progress.Sound`: the rows in front of the cursor are durable, all rows are once a cycle has
  been completed, and every receipt is of a durable row.
- **`Reach.sound`**: it stays so.
- `missing`: how many ways there are in which a row is not stored yet.
-/

namespace Replicate.Batch

open Js GraphHead Lake Relation

/-- The offset in the inventory, the completed cycles, the store and the receipts. -/
structure Progress where
  offset : Nat
  cycles : Nat
  store : Store
  receipts : List ReceiptLine

variable (blocks : Blocks) (rows : List Row)

/-- What the replication does. -/
inductive Progress.Step : Progress → Progress → Prop where
  | store {p : Progress} {s : Store} (grows : p.store.Grows s) : Step p { p with store := s }
  | receipt {p : Progress} {line : ReceiptLine}
      (durable : p.store.Durable blocks ⟨line.receipt.cid, line.receipt.bytes⟩) :
      Step p { p with receipts := p.receipts ++ [line] }
  | page {p : Progress} (durable : ∀ row ∈ (rows.drop p.offset).take pageSize, p.store.Durable blocks row) :
      Step p { p with offset := p.offset + pageSize }
  | cycle {p : Progress} (durable : ∀ row ∈ rows.drop p.offset, p.store.Durable blocks row) :
      Step p { p with offset := 0, cycles := p.cycles + 1 }

abbrev Reach : Progress → Progress → Prop := ReflTransGen (Progress.Step blocks rows)

/-- No row is skipped. -/
structure Progress.Sound (p : Progress) : Prop where
  before : ∀ row ∈ rows.take p.offset, p.store.Durable blocks row
  cycles : 0 < p.cycles → ∀ row ∈ rows, p.store.Durable blocks row
  receipts : ∀ line ∈ p.receipts, p.store.Durable blocks ⟨line.receipt.cid, line.receipt.bytes⟩

variable {blocks rows} {p q : Progress}

theorem Progress.Sound.start {store : Store} : Sound blocks rows ⟨0, 0, store, []⟩ where
  before row h := by
    rw [List.take_zero] at h
    cases h
  cycles h := absurd h (Nat.lt_irrefl 0)
  receipts _ h := by cases h

/-- **A step** skips no row. -/
theorem Progress.Step.sound (h : Step blocks rows p q) (hp : p.Sound blocks rows) : q.Sound blocks rows := by
  cases h with
  | store hgrows =>
    exact ⟨fun row hr => (hp.before row hr).grows hgrows, fun hc row hr => (hp.cycles hc row hr).grows hgrows,
      fun line hl => (hp.receipts line hl).grows hgrows⟩
  | receipt hdurable =>
    refine ⟨hp.before, hp.cycles, fun line hl => ?_⟩
    rcases List.mem_append.mp hl with hl | hl
    · exact hp.receipts line hl
    · obtain rfl := List.mem_singleton.mp hl
      exact hdurable
  | page hdurable =>
    refine ⟨fun row hr => ?_, hp.cycles, hp.receipts⟩
    rw [List.take_add] at hr
    exact (List.mem_append.mp hr).elim (hp.before row) (hdurable row)
  | cycle hdurable =>
    refine ⟨fun row hr => ?_, fun _ row hr => ?_, hp.receipts⟩
    · rw [List.take_zero] at hr
      cases hr
    · rw [← List.take_append_drop p.offset rows] at hr
      exact (List.mem_append.mp hr).elim (hp.before row) (hdurable row)

/-- **No row is skipped**, however far the replication gets. -/
theorem Reach.sound (h : Reach blocks rows p q) (hp : p.Sound blocks rows) : q.Sound blocks rows := by
  induction h with
  | refl => exact hp
  | tail _ hstep ih => exact hstep.sound ih

/-- Where more cycles are complete than before, all rows are durable. -/
theorem Reach.cycles_lt (h : Reach blocks rows p q) (hp : p.Sound blocks rows) (hlt : p.cycles < q.cycles) :
    ∀ row ∈ rows, q.store.Durable blocks row := (h.sound hp).cycles (by omega)

/-! ## What is missing -/

/-- The ways in which a CID is not stored: as an explicit pin, as a pin of any kind, and in the
raw store. -/
def Store.lacks (s : Store) (cid : JsString) : Nat :=
  (if s.explicit cid = true then 0 else 1) + (if s.pinned cid = true then 0 else 1) +
    (if (s.raw cid).isSome = true then 0 else 1)

/-- What is missing of all rows. -/
def Store.missing (rows : List Row) (s : Store) : Nat := (rows.map fun row => s.lacks row.cid).sum

section Missing

variable {s s' : Store} {cid : JsString}

theorem ite_le_ite {a b : Prop} [Decidable a] [Decidable b] (h : a → b) :
    (if b then 0 else 1) ≤ (if a then 0 else 1 : Nat) := by
  by_cases hb : b
  · rw [if_pos hb]
    exact Nat.zero_le _
  · rw [if_neg hb, if_neg fun ha => hb (h ha)]

theorem ite_lt_ite {a b : Prop} [Decidable a] [Decidable b] (ha : ¬a) (hb : b) :
    (if b then 0 else 1) < (if a then 0 else 1 : Nat) := by
  rw [if_pos hb, if_neg ha]
  exact Nat.one_pos

theorem Store.Grows.raw_isSome (h : s.Grows s') (hs : (s.raw cid).isSome = true) : (s'.raw cid).isSome = true := by
  obtain ⟨data, hdata⟩ := Option.isSome_iff_exists.mp hs
  rw [h.raw cid data hdata]
  rfl

theorem Store.Grows.lacks_le (h : s.Grows s') (cid : JsString) : s'.lacks cid ≤ s.lacks cid :=
  Nat.add_le_add (Nat.add_le_add (ite_le_ite (h.explicit cid)) (ite_le_ite (h.pinned cid))) (ite_le_ite h.raw_isSome)

theorem Store.Flipped.lacks_lt (h : s.Flipped s' cid) (hg : s.Grows s') : s'.lacks cid < s.lacks cid := by
  have hexplicit := ite_le_ite (hg.explicit cid)
  have hpinned := ite_le_ite (hg.pinned cid)
  have hraw : (if (s'.raw cid).isSome = true then 0 else 1) ≤ if (s.raw cid).isSome = true then 0 else 1 :=
    ite_le_ite hg.raw_isSome
  unfold Store.lacks
  rcases h with ⟨hno, hyes⟩ | ⟨hno, hyes⟩ | ⟨hno, hyes⟩
  · have := ite_lt_ite (Bool.eq_false_iff.mp hno) hyes
    omega
  · have := ite_lt_ite (Bool.eq_false_iff.mp hno) hyes
    omega
  · have := ite_lt_ite (a := (s.raw cid).isSome = true) (by rw [hno]; exact Bool.false_ne_true) hyes
    omega

theorem Store.Grows.missing_le (h : s.Grows s') : s'.missing rows ≤ s.missing rows :=
  List.sum_le_sum fun row _ => h.lacks_le row.cid

/-- A row that is stored anew. -/
theorem Store.Flipped.missing_lt {row : Row} (h : s.Flipped s' row.cid) (hg : s.Grows s') (hrow : row ∈ rows) :
    s'.missing rows < s.missing rows :=
  List.sum_lt_sum _ _ (fun row _ => hg.lacks_le row.cid) ⟨row, hrow, h.lacks_lt hg⟩

theorem Store.missing_bound (s : Store) : s.missing rows ≤ 3 * rows.length := by
  have hlacks : ∀ n ∈ rows.map fun row => s.lacks row.cid, n ≤ 3 := by
    intro n hn
    obtain ⟨row, -, rfl⟩ := List.mem_map.mp hn
    unfold Store.lacks
    split <;> split <;> split <;> omega
  have h := List.sum_le_card_nsmul _ _ hlacks
  rw [List.length_map] at h
  exact h.trans_eq (Nat.mul_comm rows.length 3)

end Missing

end Replicate.Batch
