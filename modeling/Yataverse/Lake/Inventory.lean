import Yataverse.Fallible.Rules
import Yataverse.Js.Text

/-!
# The inventory reader

`Inventory` of `serve_lake.py`: a pinned snapshot of the lake, opened with the digest and
the number of rows that it is to have, and its rows.

- `Snapshot`: what a path holds.
- `Inventory`: an opened snapshot; its CIDs are distinct.
- `Inventory.rows`: consecutive rows from an offset on.
- `Inventory.page`: a page of the listing, with the cursor of the next one.
- `Inventory.served`: what the reader answers to a request with a cursor.
-/

namespace Lake

open Js Fallible

/-- A row of the inventory. -/
structure Row where
  cid : JsString
  size : Nat
deriving DecidableEq

/-- What the path of an inventory holds: the digest of the file, and its lines. `none` is a
line that the reader refuses: no JSON, no CID, or no positive size. -/
structure Snapshot where
  sha256 : JsString
  lines : List (Option Row)

/-- `Inventory`. -/
structure Inventory where
  sha256 : JsString
  entries : List Row
  nodup : (entries.map Row.cid).Nodup
deriving DecidableEq

/-- Rows with distinct CIDs. -/
abbrev Distinct := { rows : List Row // (rows.map Row.cid).Nodup }

theorem nodup_append_row {rows : List Row} {row : Row} (h : (rows.map Row.cid).Nodup)
    (hnew : row.cid ∉ rows.map Row.cid) : ((rows ++ [row]).map Row.cid).Nodup := by
  rw [List.map_append, List.nodup_append]
  refine ⟨h, List.nodup_singleton _, fun a ha b hb => ?_⟩
  rintro rfl
  exact hnew (List.mem_singleton.mp hb ▸ ha)

namespace Inventory

/-- The loop of the constructor, with the rows so far. -/
def readLines : List (Option Row) → Distinct → Except String Distinct
  | [], rows => .ok rows
  | none :: _, _ => .error "invalid inventory row"
  | some row :: lines, rows =>
    if h : row.cid ∈ rows.1.map Row.cid then .error "duplicate CID in inventory"
    else readLines lines ⟨rows.1 ++ [row], nodup_append_row rows.2 h⟩

/-- `Inventory(path, expected_sha256, expected_count)`. -/
def ofSnapshot (snapshot : Snapshot) (expectedSha256 : JsString) (expectedCount : Nat) : Except String Inventory := do
  let rows ← readLines snapshot.lines ⟨[], List.nodup_nil⟩
  require (snapshot.sha256 = expectedSha256 ∧ rows.1.length = expectedCount)
    "inventory digest or row count differs from declared snapshot"
  return ⟨expectedSha256, rows.1, rows.2⟩

/-- `rows`. -/
def rows (inventory : Inventory) (offset limit : Nat) : Except String (List Row × Nat) := do
  require (offset < inventory.entries.length) "cursor outside inventory"
  require (1 ≤ limit ∧ limit ≤ 1000) "inventory row limit must be within 1..1000"
  let last := min (offset + limit) inventory.entries.length
  return ((inventory.entries.drop offset).take (last - offset), last)

end Inventory

/-! ## Pages -/

/-- `PAGE_SIZE`. -/
def pageSize : Nat := 200

/-- A page of the listing. -/
structure Page where
  sha256 : JsString
  blocks : List Row
  cursor : Option JsString
  truncated : Bool
deriving DecidableEq

/-- The number that `0|[1-9][0-9]*` matches. -/
def offset? (s : JsString) : Option Nat :=
  if s ≠ [] ∧ s.all (inRange '0' '9') = true ∧ (s.head? = some (unit '0') → s = [unit '0']) then some (ofDigits s)
  else none

namespace Inventory

/-- `page`. -/
def page (inventory : Inventory) (offset : Nat) : Except String Page := do
  let (rows, last) ← inventory.rows offset pageSize
  return {
    sha256 := inventory.sha256
    blocks := rows
    cursor := if last < inventory.entries.length then some (natStr last) else none
    truncated := decide (last < inventory.entries.length)
  }

/-- The answer of `do_GET` to a request for `/api/v1/lake/blocks`. -/
def served (inventory : Inventory) (cursor : Option JsString) : Except String Page :=
  match cursor with
  | none => inventory.page 0
  | some s =>
    match offset? s with
    | some offset => inventory.page offset
    | none => .error "invalid cursor"

/-- The offset that a cursor stands for. An empty one is not sent. -/
def position (cursor : Option JsString) : Option Nat :=
  match cursor with
  | none | some [] => some 0
  | some s => offset? s

end Inventory

theorem offset?_natStr (n : Nat) : offset? (natStr n) = some n := by
  have hdigit : ∀ u ∈ natStr n, inRange '0' '9' u = true := by
    intro u hu
    have h := isDigit_natStr n u hu
    by_contra hr
    rw [IsDigit, digit?, if_neg hr] at h
    cases h
  rw [offset?, if_pos, ofDigits_natStr]
  refine ⟨?_, List.all_eq_true.mpr hdigit, fun h => ?_⟩ <;> rcases natStr_head n with h0 | ⟨u, rest, hu, -, hne⟩
  · rw [h0]
    exact List.cons_ne_nil _ _
  · rw [hu]
    exact List.cons_ne_nil _ _
  · exact h0
  · rw [hu] at h
    exact absurd (Option.some.inj h) hne

theorem position_natStr (n : Nat) : Inventory.position (some (natStr n)) = some n := by
  have h := offset?_natStr n
  cases hs : natStr n with
  | nil =>
    rw [hs] at h
    cases h
  | cons u rest =>
    rw [hs] at h
    exact h

section Served

variable {inventory : Inventory} {offset : Nat}

/-- The page at an offset inside the inventory. -/
theorem page_eq (h : offset < inventory.entries.length) : inventory.page offset = .ok {
    sha256 := inventory.sha256
    blocks := (inventory.entries.drop offset).take pageSize
    cursor := if offset + pageSize < inventory.entries.length then some (natStr (offset + pageSize)) else none
    truncated := decide (offset + pageSize < inventory.entries.length) } := by
  have hrows : inventory.rows offset pageSize = .ok ((inventory.entries.drop offset).take pageSize,
      min (offset + pageSize) inventory.entries.length) := by
    simp only [Inventory.rows, bind_eq_ok, require_eq_ok]
    refine ⟨(), h, (), by decide, ?_⟩
    refine congrArg Except.ok (Prod.ext ?_ rfl)
    dsimp only
    rcases Nat.le_total (offset + pageSize) inventory.entries.length with hle | hle
    · rw [Nat.min_eq_left hle, Nat.add_sub_cancel_left]
    · rw [Nat.min_eq_right hle, List.take_of_length_le (by rw [List.length_drop]),
        List.take_of_length_le (by rw [List.length_drop]; omega)]
  rw [Inventory.page, hrows]
  refine congrArg Except.ok ?_
  by_cases hlt : offset + pageSize < inventory.entries.length
  · rw [Nat.min_eq_left hlt.le]
  · rw [Nat.min_eq_right (Nat.le_of_not_lt hlt), if_neg (Nat.lt_irrefl _), if_neg hlt]
    congr 1
    exact decide_eq_decide.mpr ⟨fun h => absurd h (Nat.lt_irrefl _), fun h => absurd h hlt⟩

end Served

end Lake
