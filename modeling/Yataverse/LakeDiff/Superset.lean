import Yataverse.Fallible.Returns
import Yataverse.GraphHead.Canonical
import Yataverse.Js.Lines
import Yataverse.Js.Parse
import Yataverse.Lake.Cid
import Yataverse.Lake.Rows
import Yataverse.Sorting.Increasing

/-!
# What a new inventory adds

The lake only grows: a new inventory has to hold all rows of the old one. The capture checks this at its end,
and the diff while it writes down what is new.

- `inventoryRows`: the rows of an inventory, in the order of their CIDs.
- `mergeDelta`: `merge-delta` of `diff_lake_inventory.cljk`.
- `requireSuperset`: `require-superset` of `capture_lake_inventory.cljk`.
- **`superset_delta`**: both accept the same pairs of inventories, and the delta is what is new.
-/

namespace LakeDiff

open Js GraphHead Lake Fallible Sorting

/-! ## Inventories -/

/-- The loop of `inventory-rows`, with the CID before the lines. -/
def readRows : List JsString → JsString → Except JsString (List Row)
  | [], _ => .ok []
  | line :: lines, prev =>
    match Json.parse line with
    | none => .error (js "inventory row is invalid")
    | some .null => .error (js "Cannot read properties of null (reading 'cid')")
    | some row =>
      match row.get (js "cid"), (row.get (js "bytes")).int? with
      | .str cid, some size =>
        if cidRe cid = true ∧ prev < cid ∧ 1 ≤ size then (⟨cid, size.toNat⟩ :: ·) <$> readRows lines cid
        else .error (js "inventory CID order or size is invalid")
      | _, _ => .error (js "inventory CID order or size is invalid")

/-- `inventory-rows`. -/
def inventoryRows (file : Bytes) : Except JsString (List Row) := readRows (inkedLines (ofUtf8 file)) []

/-! ## The diff -/

/-- The line of a row. -/
def rowLine (row : Row) : JsString :=
  js "\x7b\"cid\":\"" ++ row.cid ++ js "\",\"bytes\":" ++ numStr (.int row.size) ++ js "\x7d\n"

/-- What `merge-delta` has counted. Sizes are added as doubles. -/
structure Delta where
  lines : List JsString
  oldCount : Nat
  oldBytes : Number
  newCount : Nat
  newBytes : Number
  deltaCount : Nat
  deltaBytes : Number
  max : Nat
  oversized : Nat
deriving DecidableEq

namespace Delta

/-- Before the first row. -/
def empty : Delta := ⟨[], 0, .int 0, 0, .int 0, 0, .int 0, 0, 0⟩

/-- A row that both inventories have. -/
def keep (acc : Delta) (row : Row) : Delta := { acc with
  newCount := acc.newCount + 1
  newBytes := acc.newBytes.add row.size
  oldCount := acc.oldCount + 1
  oldBytes := acc.oldBytes.add row.size
}

/-- A new row. -/
def grow (acc : Delta) (row : Row) : Delta := { acc with
  newCount := acc.newCount + 1
  newBytes := acc.newBytes.add row.size
  lines := acc.lines ++ [rowLine row]
  deltaCount := acc.deltaCount + 1
  deltaBytes := acc.deltaBytes.add row.size
  max := Nat.max acc.max row.size
  oversized := acc.oversized + if row.size > 8000000 then 1 else 0
}

end Delta

/-- The loop of `merge-delta`. -/
def merge : List Row → List Row → Delta → Except JsString Delta
  | [], [], acc => .ok acc
  | old :: _, [], _ => .error (js "new inventory omits old CID: " ++ old.cid)
  | [], row :: new, acc => merge [] new (acc.grow row)
  | old :: olds, row :: new, acc =>
    if old.cid < row.cid then .error (js "new inventory omits old CID: " ++ old.cid)
    else if old.cid = row.cid then
      if old.size = row.size then merge olds new (acc.keep row)
      else .error (js "new inventory changes old CID size: " ++ row.cid)
    else merge (old :: olds) new (acc.grow row)

/-- `merge-delta`. -/
def mergeDelta (old new : List Row) : Except JsString Delta := merge old new .empty

/-! ## The capture -/

/-- The loop of `require-superset`. -/
def checkSuperset : List Row → List Row → Except JsString Unit
  | [], _ => .ok ()
  | old :: olds, new =>
    let new := new.dropWhile fun row => row.cid < old.cid
    match new with
    | row :: _ =>
      if old.cid = row.cid ∧ old.size = row.size then checkSuperset olds new
      else .error (js "new inventory omits or changes old CID: " ++ old.cid)
    | [] => .error (js "new inventory omits or changes old CID: " ++ old.cid)

/-- `require-superset`: how many rows the old inventory has. -/
def requireSuperset (nc : NodeCrypto) (oldFile newFile : Bytes) (oldSha : JsString) : Except JsString Nat := do
  require (oldSha = hexdigest (nc.sha256 oldFile)) (js "old inventory digest differs")
  let old ← inventoryRows oldFile
  let new ← inventoryRows newFile
  checkSuperset old new
  return old.length

variable {old new olds rows : List Row} {acc d : Delta} {row r : Row} {lines : List JsString} {prev : JsString}

/-! ## Inventories are in order -/

theorem readRows_increasing (h : readRows lines prev = .ok rows) :
    Increasing Row.cid rows ∧ ∀ row ∈ rows, prev < row.cid ∧ cidRe row.cid = true ∧ 1 ≤ row.size := by
  induction lines generalizing prev rows with
  | nil =>
    obtain rfl := Except.ok.inj h
    exact ⟨List.Pairwise.nil, by simp⟩
  | cons line lines ih =>
    rw [readRows] at h
    split at h
    · cases h
    · cases h
    · split at h
      · rename_i cid size _ _
        split_ifs at h with hrow
        obtain ⟨hcid, hprev, hsize⟩ := hrow
        obtain ⟨rest, hrest, rfl⟩ := map_eq_ok.mp h
        obtain ⟨hincreasing, hall⟩ := ih hrest
        refine ⟨List.pairwise_cons.mpr ⟨fun r hr => (hall r hr).1, hincreasing⟩, fun r hr => ?_⟩
        rcases List.mem_cons.mp hr with rfl | hr
        · exact ⟨hprev, hcid, Int.lt_toNat.mpr hsize⟩
        · exact ⟨List.lt_trans hprev (hall r hr).1, (hall r hr).2⟩
      · cases h

/-- **An inventory** has increasing CIDs and positive sizes. -/
theorem inventoryRows_increasing {file : Bytes} (h : inventoryRows file = .ok rows) :
    Increasing Row.cid rows ∧ ∀ row ∈ rows, cidRe row.cid = true ∧ 1 ≤ row.size := by
  obtain ⟨hincreasing, hall⟩ := readRows_increasing h
  exact ⟨hincreasing, fun row hrow => (hall row hrow).2⟩

/-! ## The two loops -/

theorem Row.eq_iff {a b : Row} : a = b ↔ a.cid = b.cid ∧ a.size = b.size := by
  cases a
  cases b
  rw [Row.mk.injEq]

theorem merge_returns (hold : Increasing Row.cid old) (hnew : Increasing Row.cid new) :
    Returns (merge old new acc) ↔ ∀ r ∈ old, r ∈ new := by
  induction new generalizing old acc with
  | nil =>
    cases old with
    | nil => exact ⟨fun _ => by simp, fun _ => returns_ok acc⟩
    | cons old olds =>
      refine ⟨fun h => absurd h (not_returns_error _), fun h => ?_⟩
      exact absurd (h old List.mem_cons_self) List.not_mem_nil
  | cons row new ih =>
    cases old with
    | nil => exact (ih hold hnew.tail).trans ⟨fun _ => by simp, fun _ => by simp⟩
    | cons old olds =>
      rw [merge]
      by_cases hlt : old.cid < row.cid
      · rw [if_pos hlt]
        exact ⟨fun h => absurd h (not_returns_error _), fun h => absurd h (subset_cons_of_lt hnew hlt)⟩
      · rw [if_neg hlt]
        by_cases heq : old.cid = row.cid
        · rw [if_pos heq, subset_cons_cons hold hnew heq, Row.eq_iff]
          by_cases hsize : old.size = row.size
          · rw [if_pos hsize, ih hold.tail hnew.tail]
            exact ⟨fun h => ⟨⟨heq, hsize⟩, h⟩, fun h => h.2⟩
          · rw [if_neg hsize]
            exact ⟨fun h => absurd h (not_returns_error _), fun h => absurd h.1.2 hsize⟩
        · have hgt : row.cid < old.cid := Std.lt_of_le_of_ne (List.not_lt.mp hlt) (Ne.symm heq)
          rw [if_neg heq, ih hold hnew.tail, subset_cons_of_gt hold hgt]

theorem checkSuperset_returns (hold : Increasing Row.cid old) (hnew : Increasing Row.cid new) :
    Returns (checkSuperset old new) ↔ ∀ r ∈ old, r ∈ new := by
  induction old generalizing new with
  | nil => exact ⟨fun _ => by simp, fun _ => returns_ok ()⟩
  | cons old olds ih =>
    rw [checkSuperset, ← subset_dropWhile hold]
    have hrest : Increasing Row.cid (new.dropWhile fun row => decide (row.cid < old.cid)) := hnew.dropWhile
    cases hnext : new.dropWhile (fun row => decide (row.cid < old.cid)) with
    | nil =>
      refine ⟨fun h => absurd h (not_returns_error _), fun h => ?_⟩
      exact absurd (h old List.mem_cons_self) List.not_mem_nil
    | cons row rest =>
      rw [hnext] at hrest
      have hle : old.cid ≤ row.cid := by
        have hhead := List.head?_dropWhile_not (fun row : Row => decide (row.cid < old.cid)) new
        rw [hnext] at hhead
        exact of_decide_eq_false hhead
      dsimp only
      rw [List.forall_mem_cons, hrest.mem_iff hle, Row.eq_iff]
      by_cases heq : old.cid = row.cid ∧ old.size = row.size
      · rw [if_pos heq, ih hold.tail hrest, and_iff_right heq]
      · rw [if_neg heq]
        exact ⟨fun h => absurd h (not_returns_error _), fun h => absurd h.1 heq⟩

/-! ## The delta -/

/-- One row of the new inventory. -/
def Delta.add (old : List Row) (acc : Delta) (row : Row) : Delta :=
  if row.cid ∈ old.map Row.cid then acc.keep row else acc.grow row

/-- An old row in front of the new ones is not one of theirs. -/
theorem foldl_add_tail (h : Increasing Row.cid (row :: new)) (hr : r.cid = row.cid) :
    new.foldl (Delta.add (r :: olds)) acc = new.foldl (Delta.add olds) acc := by
  refine List.foldl_ext _ _ acc fun acc s hs => ?_
  have hne : s.cid ≠ r.cid := by
    rw [hr]
    exact (Std.ne_of_lt (h.lt hs)).symm
  have hmem : s.cid ∈ (r :: olds).map Row.cid ↔ s.cid ∈ olds.map Row.cid := by
    rw [List.map_cons, List.mem_cons, or_iff_right hne]
  rw [Delta.add, Delta.add]
  exact if_congr hmem rfl rfl

theorem merge_eq (hold : Increasing Row.cid old) (hnew : Increasing Row.cid new) (h : merge old new acc = .ok d) :
    d = new.foldl (Delta.add old) acc := by
  induction new generalizing old acc with
  | nil =>
    cases old with
    | nil => exact (Except.ok.inj h).symm
    | cons old olds => cases h
  | cons row new ih =>
    rw [List.foldl_cons]
    cases old with
    | nil => exact ih hold hnew.tail h
    | cons old olds =>
      rw [merge] at h
      split_ifs at h with hlt heq hsize
      · rw [ih hold.tail hnew.tail h, foldl_add_tail hnew heq, Delta.add, if_pos]
        exact heq ▸ List.mem_cons_self
      · have hgt : row.cid < old.cid := Std.lt_of_le_of_ne (List.not_lt.mp hlt) (Ne.symm heq)
        have hrow : row.cid ∉ (old :: olds).map Row.cid := by
          rintro hmem
          obtain ⟨r, hr, hcid⟩ := List.mem_map.mp hmem
          have hlt := Std.lt_of_lt_of_le hgt (hold.le hr)
          rw [hcid] at hlt
          exact absurd hlt Std.lt_irrefl
        rw [ih hold hnew.tail h, Delta.add, if_neg hrow]

/-- The rows whose CIDs the old inventory has. -/
def kept (old new : List Row) : List Row := new.filter fun row => row.cid ∈ old.map Row.cid

/-- What the rows add to the counts. -/
structure Counted (old new : List Row) (acc d : Delta) : Prop where
  lines : d.lines = acc.lines ++ (fresh old new).map rowLine
  oldCount : d.oldCount = acc.oldCount + (kept old new).length
  oldBytes : d.oldBytes = addSizes (kept old new) acc.oldBytes
  newCount : d.newCount = acc.newCount + new.length
  newBytes : d.newBytes = addSizes new acc.newBytes
  deltaCount : d.deltaCount = acc.deltaCount + (fresh old new).length
  deltaBytes : d.deltaBytes = addSizes (fresh old new) acc.deltaBytes

theorem foldl_counted : Counted old new acc (new.foldl (Delta.add old) acc) := by
  induction new generalizing acc with
  | nil => exact ⟨(List.append_nil _).symm, rfl, rfl, rfl, rfl, rfl, rfl⟩
  | cons row new ih =>
    have h := @ih (acc.add old row)
    by_cases hrow : row.cid ∈ old.map Row.cid
    · have hkept : kept old (row :: new) = row :: kept old new := List.filter_cons_of_pos (decide_eq_true hrow)
      have hfresh : fresh old (row :: new) = fresh old new := fresh_cons_of_mem hrow
      rw [Delta.add, if_pos hrow] at h
      rw [List.foldl_cons, Delta.add, if_pos hrow]
      refine ⟨?_, ?_, ?_, ?_, ?_, ?_, ?_⟩
      · rw [hfresh, h.lines]
        rfl
      · rw [hkept, h.oldCount]
        exact Nat.succ_add_eq_add_succ _ _
      · rw [hkept, h.oldBytes]
        rfl
      · rw [h.newCount]
        exact Nat.succ_add_eq_add_succ _ _
      · rw [h.newBytes]
        rfl
      · rw [hfresh, h.deltaCount]
        rfl
      · rw [hfresh, h.deltaBytes]
        rfl
    · have hkept : kept old (row :: new) = kept old new :=
        List.filter_cons_of_neg (by rw [decide_eq_true_iff]; exact hrow)
      have hfresh : fresh old (row :: new) = row :: fresh old new := fresh_cons_of_not_mem hrow
      rw [Delta.add, if_neg hrow] at h
      rw [List.foldl_cons, Delta.add, if_neg hrow]
      refine ⟨?_, ?_, ?_, ?_, ?_, ?_, ?_⟩
      · rw [hfresh, h.lines, List.map_cons, ← List.singleton_append, ← List.append_assoc]
        rfl
      · rw [hkept, h.oldCount]
        rfl
      · rw [hkept, h.oldBytes]
        rfl
      · rw [h.newCount]
        exact Nat.succ_add_eq_add_succ _ _
      · rw [h.newBytes]
        rfl
      · rw [hfresh, h.deltaCount]
        exact Nat.succ_add_eq_add_succ _ _
      · rw [hfresh, h.deltaBytes]
        rfl

theorem filter_partition (p : Row → Bool) (rows : List Row) :
    (rows.filter p).length + (rows.filter fun row => !p row).length = rows.length ∧
      totalSize (rows.filter p) + totalSize (rows.filter fun row => !p row) = totalSize rows := by
  induction rows with
  | nil => exact ⟨rfl, rfl⟩
  | cons row rows ih =>
    simp only [totalSize] at ih ⊢
    cases hp : p row with
    | true =>
      simp only [List.filter_cons, hp, Bool.not_true, Bool.false_eq_true, if_true, if_false, List.length_cons,
        List.map_cons, List.sum_cons]
      omega
    | false =>
      simp only [List.filter_cons, hp, Bool.not_false, Bool.false_eq_true, if_true, if_false, List.length_cons,
        List.map_cons, List.sum_cons]
      omega

/-- Where the new inventory has every old row, the rows it keeps are those. -/
theorem kept_eq (hold : Increasing Row.cid old) (hnew : Increasing Row.cid new) (h : ∀ r ∈ old, r ∈ new) :
    kept old new = old := by
  have hdistinct : ∀ {rows : List Row}, Increasing Row.cid rows → rows.Nodup := by
    rintro rows hrows
    refine hrows.imp fun hlt heq => ?_
    subst heq
    exact absurd hlt Std.lt_irrefl
  have hkept : Increasing Row.cid (kept old new) := hnew.sublist List.filter_sublist
  have hperm : (kept old new).Perm old := by
    rw [List.perm_ext_iff_of_nodup (hdistinct hkept) (hdistinct hold)]
    rintro row
    rw [kept, List.mem_filter, decide_eq_true_iff]
    constructor
    · rintro ⟨hrow, hcid⟩
      obtain ⟨r, hr, hcid⟩ := List.mem_map.mp hcid
      rw [← hnew.eq_of_key (h r hr) hrow hcid]
      exact hr
    · exact fun hrow => ⟨h row hrow, List.mem_map_of_mem hrow⟩
  exact hperm.eq_of_pairwise (fun a b _ _ hab hba => absurd hba (Std.not_gt_of_lt hab)) hkept hold

/-- **The delta is exact.** The capture and the diff accept the same pairs of inventories, which are those where every
old row is a new one. Then the lines of the delta are the rows with new CIDs, in order, and the numbers of rows add
up; so do the bytes, up to `2 ^ 53` of them. -/
theorem superset_delta (hold : Increasing Row.cid old) (hnew : Increasing Row.cid new) :
    (Returns (checkSuperset old new) ↔ Returns (mergeDelta old new)) ∧
      (Returns (mergeDelta old new) ↔ ∀ row ∈ old, row ∈ new) ∧
      (∀ nc oldFile newFile, inventoryRows oldFile = .ok old → inventoryRows newFile = .ok new →
        (Returns (requireSuperset nc oldFile newFile (hexdigest (nc.sha256 oldFile))) ↔ ∀ row ∈ old, row ∈ new)) ∧
      ∀ d, mergeDelta old new = .ok d → d.lines = (fresh old new).map rowLine ∧
        d.oldCount = old.length ∧ d.deltaCount = (fresh old new).length ∧ d.newCount = d.oldCount + d.deltaCount ∧
        d.newCount = new.length ∧
        (totalSize new ≤ 2 ^ 53 → d.oldBytes = .int (totalSize old) ∧ d.deltaBytes = .int (totalSize (fresh old new)) ∧
          d.newBytes = .int (totalSize new) ∧ totalSize new = totalSize old + totalSize (fresh old new)) := by
  have hmerge : Returns (mergeDelta old new) ↔ ∀ row ∈ old, row ∈ new := merge_returns hold hnew
  refine ⟨(checkSuperset_returns hold hnew).trans hmerge.symm, hmerge, ?_, ?_⟩
  · rintro nc oldFile newFile hf hf'
    have hread : requireSuperset nc oldFile newFile (hexdigest (nc.sha256 oldFile)) = (do
        checkSuperset old new
        return old.length) := by
      rw [requireSuperset, hf, hf', require, if_pos rfl]
      rfl
    rw [← checkSuperset_returns hold hnew, hread]
    constructor
    · rintro ⟨n, h⟩
      obtain ⟨u, hu, -⟩ := bind_eq_ok.mp h
      exact ⟨u, hu⟩
    · rintro ⟨u, hu⟩
      exact ⟨old.length, bind_eq_ok.mpr ⟨u, hu, rfl⟩⟩
  · rintro d hd
    have hkept := kept_eq hold hnew (hmerge.mp ⟨d, hd⟩)
    have hcounted : Counted old new .empty d := merge_eq hold hnew hd ▸ foldl_counted
    obtain ⟨hlength, htotal⟩ := filter_partition (fun row => decide (row.cid ∈ old.map Row.cid)) new
    have hfresh : (new.filter fun row => !decide (row.cid ∈ old.map Row.cid)) = fresh old new :=
      List.filter_congr fun row _ => (decide_not ..).symm
    change (kept old new).length + _ = _ at hlength
    change totalSize (kept old new) + _ = _ at htotal
    rw [hfresh, hkept] at hlength htotal
    have holdCount : d.oldCount = old.length := by
      rw [hcounted.oldCount, hkept]
      exact Nat.zero_add _
    have hdeltaCount : d.deltaCount = (fresh old new).length := hcounted.deltaCount.trans (Nat.zero_add _)
    have hnewCount : d.newCount = new.length := hcounted.newCount.trans (Nat.zero_add _)
    refine ⟨hcounted.lines, holdCount, hdeltaCount, ?_, hnewCount, fun hbytes => ⟨?_, ?_, ?_, htotal.symm⟩⟩
    · rw [hnewCount, holdCount, hdeltaCount, hlength]
    · rw [hcounted.oldBytes, hkept]
      exact (addSizes_exact (n := 0) (by omega)).trans (by rw [Nat.zero_add])
    · rw [hcounted.deltaBytes]
      exact (addSizes_exact (n := 0) (by omega)).trans (by rw [Nat.zero_add])
    · rw [hcounted.newBytes]
      exact (addSizes_exact (n := 0) (by omega)).trans (by rw [Nat.zero_add])

namespace Sample

def cid (n : String) : JsString := js "baaaaaaaaaaaaaaaaaaaa" ++ js n

/-- One block, which is large. -/
def before : List Row := [⟨cid "a", 2 ^ 53⟩]

/-- Two blocks of a byte behind it. -/
def after : List Row := before ++ [⟨cid "b", 1⟩, ⟨cid "c", 1⟩]

end Sample

theorem superset_delta_sample : ∃ d, mergeDelta Sample.before Sample.after = .ok d ∧ d.newCount = d.oldCount + d.deltaCount := by
  obtain ⟨-, hsuperset, -, hdelta⟩ := @superset_delta Sample.before Sample.after (List.pairwise_singleton _ _)
    (by unfold Increasing; decide)
  obtain ⟨d, hd⟩ := hsuperset.mpr (by decide)
  exact ⟨d, hd, (hdelta d hd).2.2.2.1⟩

/-- **Beyond `2 ^ 53` bytes, they do not add up**: of the new inventory, both bytes are lost. -/
theorem bytes_rounded : Increasing Row.cid Sample.before ∧ Increasing Row.cid Sample.after ∧
    ∃ d k, mergeDelta Sample.before Sample.after = .ok d ∧ d.deltaBytes = .int k ∧ d.newBytes ≠ d.oldBytes.add k := by
  refine ⟨List.pairwise_singleton _ _, by unfold Increasing; decide, ?_⟩
  have hrun : (mergeDelta Sample.before Sample.after).map (fun d => (d.oldBytes, d.deltaBytes, d.newBytes)) =
      .ok (.int (2 ^ 53), .int 2, .int (2 ^ 53)) := by decide +kernel
  obtain ⟨d, hd, hbytes⟩ := map_eq_ok.mp hrun
  simp only [Prod.mk.injEq] at hbytes
  refine ⟨d, 2, hd, hbytes.2.1, ?_⟩
  rw [hbytes.1, hbytes.2.2]
  decide +kernel

end LakeDiff
