import Yataverse.Fallible.Rules
import Yataverse.Lake.Cid
import Mathlib.Data.List.TakeDrop

/-!
# The rows of one shipment

`selected_rows` of `ship_lake_car` cuts the next contiguous range from the inventory, or
says why the next row cannot ride a CAR. The Python reader goes through the whole file, the
Kotoba one from the first row on to where the range ends.

- `pySelectedRows`, `kotobaSelectedRows`: the two readers.
- `skipOf`: why a row is skipped; it depends on nothing but the row.
- `Selected`: what either of them returns.
-/

namespace Ship

open Js Fallible

/-- A row of the inventory. -/
structure Row where
  cid : JsString
  bytes : Nat
deriving DecidableEq

/-- The lines of the inventory. `none` is a line that the readers refuse: no JSON, no CID,
or no positive size. -/
abbrev Inventory := List (Option Row)

/-- `MAX_CAR_BLOCK`, `max-car-block`. -/
def maxCarBlock : Nat := 8000000

/-- Why a row is skipped. -/
inductive Reason where
  /-- `"verified-raw-block-store"` -/
  | rawBlockStore
  /-- `"oversized-for-car"` -/
  | oversized
deriving DecidableEq

/-- A skip record. -/
structure Skipped where
  row : Nat
  cid : JsString
  bytes : Nat
  reason : Reason
deriving DecidableEq

/-- Does the row ride in a CAR behind `rows`, with `total` bytes? -/
def rides (raw : List JsString) (maxBytes : Nat) (rows : List Row) (total : Nat) (row : Row) : Bool :=
  !raw.contains row.cid && row.bytes ≤ maxCarBlock && total + row.bytes + 1024 * (rows.length + 1) ≤ maxBytes

/-- The loop of the Python reader: `count` lines have been read. A line that does not ride
ends the range, but the lines behind it are still checked. -/
def pyScan (raw : List JsString) (start maxBlocks maxBytes : Nat) :
    Inventory → Nat → List Row → Nat → Except String (List Row)
  | [], _, rows, _ => .ok rows
  | line :: lines, count, rows, total =>
    if start ≤ count ∧ count < start + maxBlocks ∧ total < maxBytes then
      match line with
      | none => .error "invalid inventory row"
      | some row =>
        if rides raw maxBytes rows total row ∧ rows.length = count - start then
          pyScan raw start maxBlocks maxBytes lines (count + 1) (rows ++ [row]) (total + row.bytes)
        else pyScan raw start maxBlocks maxBytes lines (count + 1) rows total
    else pyScan raw start maxBlocks maxBytes lines (count + 1) rows total

/-- Why the row `start` is skipped, if it is. -/
def skipOf (inv : Inventory) (raw : List JsString) (start : Nat) : Except String Skipped :=
  match inv[start]? with
  | some (some row) =>
    if raw.contains row.cid then .ok ⟨start, row.cid, row.bytes, .rawBlockStore⟩
    else if maxCarBlock < row.bytes then .ok ⟨start, row.cid, row.bytes, .oversized⟩
    else .error "single block exceeds CAR byte budget"
  | _ => .error "inventory row disappeared"

/-- What is done with the rows of a range: nothing if the inventory has ended, and the first
row is skipped if it does not ride. -/
def orSkip (inv : Inventory) (raw : List JsString) (start : Nat) (rows : List Row) :
    Except String (List Row × Option Skipped) :=
  if inv.length ≤ start then .ok ([], none)
  else if rows ≠ [] then .ok (rows, none)
  else (fun skipped => ([], some skipped)) <$> skipOf inv raw start

/-- `selected_rows`. -/
def pySelectedRows (inv : Inventory) (raw : List JsString) (start maxBlocks maxBytes : Nat) :
    Except String (List Row × Option Skipped) := do
  let rows ← pyScan raw start maxBlocks maxBytes inv 0 [] 0
  orSkip inv raw start rows

/-- The loop of the Kotoba reader, over the lines from the row `i` on; `room` more rows at
most. -/
def kotobaScan (raw : List JsString) (maxBytes : Nat) :
    Inventory → Nat → List Row → Nat → Except String (List Row)
  | [], _, rows, _ => .ok rows
  | _, 0, rows, _ => .ok rows
  | line :: lines, room + 1, rows, total =>
    if maxBytes ≤ total then .ok rows
    else
      match line with
      | none => .error "invalid inventory row"
      | some row =>
        if rides raw maxBytes rows total row then
          kotobaScan raw maxBytes lines room (rows ++ [row]) (total + row.bytes)
        else .ok rows

/-- `selected-rows`. -/
def kotobaSelectedRows (inv : Inventory) (raw : List JsString) (start maxBlocks maxBytes : Nat) :
    Except String (List Row × Option Skipped) := do
  let rows ← kotobaScan raw maxBytes (inv.drop start) maxBlocks [] 0
  orSkip inv raw start rows

/-! ## What they return -/

variable {inv lines : Inventory} {raw : List JsString} {start maxBlocks maxBytes count total room : Nat}
  {rows rows' : List Row} {skip : Option Skipped}

/-- A range that either reader returns: rows of the inventory, one after the other. -/
structure Range (inv : Inventory) (start maxBlocks : Nat) (rows : List Row) : Prop where
  room : rows.length ≤ maxBlocks
  here : (inv.drop start).take rows.length = rows.map some

theorem pyScan_range {pre : Inventory} (hinv : inv = pre ++ lines) (hcount : count = pre.length)
    (hroom : rows.length ≤ maxBlocks) (hpos : rows.length ≤ count - start)
    (hhere : (pre.drop start).take rows.length = rows.map some)
    (h : pyScan raw start maxBlocks maxBytes lines count rows total = .ok rows') :
    Range inv start maxBlocks rows' := by
  induction lines generalizing pre count rows total with
  | nil =>
    obtain rfl := Except.ok.inj h
    rw [List.append_nil] at hinv
    exact ⟨hroom, by rw [hinv, hhere]⟩
  | cons line lines ih =>
    have hinv' : inv = (pre ++ [line]) ++ lines := by rw [hinv, List.append_assoc]; rfl
    have hcount' : count + 1 = (pre ++ [line]).length := by rw [List.length_append, hcount]; rfl
    -- a line that is not added
    have hskip : ((pre ++ [line]).drop start).take rows.length = rows.map some := by
      by_cases hsp : start ≤ pre.length
      · rw [List.drop_append_of_le_length hsp, List.take_append_of_le_length, hhere]
        rw [List.length_drop]
        omega
      · have : rows.length = 0 := by omega
        rw [this, List.take_zero, List.eq_nil_of_length_eq_zero this]
        rfl
    unfold pyScan at h
    split at h
    · rename_i hwin
      cases line with
      | none => cases h
      | some row =>
        dsimp only at h
        split at h
        · rename_i hride
          refine ih hinv' hcount' ?_ ?_ ?_ h
          · rw [List.length_append]
            simp only [List.length_cons, List.length_nil]
            omega
          · rw [List.length_append]
            simp only [List.length_cons, List.length_nil]
            omega
          · have hdrop : (pre.drop start).length = rows.length := by
              rw [List.length_drop]
              omega
            have hpre : pre.drop start = rows.map some := by rw [← hhere, ← hdrop, List.take_length]
            rw [List.drop_append_of_le_length (by omega), hpre, List.map_append, List.take_of_length_le]
            · rfl
            · simp
        · exact ih hinv' hcount' hroom (by omega) hskip h
    · exact ih hinv' hcount' hroom (by omega) hskip h

theorem kotobaScan_range (hroom : rows.length + room ≤ maxBlocks)
    (hhere : inv.drop start = rows.map some ++ lines)
    (h : kotobaScan raw maxBytes lines room rows total = .ok rows') : Range inv start maxBlocks rows' := by
  induction lines generalizing room rows total with
  | nil =>
    obtain rfl : rows = rows' := by
      unfold kotobaScan at h
      exact Except.ok.inj h
    refine ⟨by omega, ?_⟩
    rw [hhere, List.append_nil, ← List.length_map (f := some), List.take_length]
  | cons line lines ih =>
    have hend : ∀ r, r = rows → Range inv start maxBlocks r := by
      rintro r rfl
      refine ⟨by omega, ?_⟩
      rw [hhere, ← List.length_map (f := some), List.take_left]
    cases room with
    | zero => exact hend _ (Except.ok.inj h).symm
    | succ room =>
      unfold kotobaScan at h
      split at h
      · exact hend _ (Except.ok.inj h).symm
      · cases line with
        | none => cases h
        | some row =>
          dsimp only at h
          split at h
          · refine ih ?_ ?_ h
            · rw [List.length_append]
              simp only [List.length_cons, List.length_nil]
              omega
            · rw [hhere, List.map_append, List.append_assoc]
              rfl
          · exact hend _ (Except.ok.inj h).symm

theorem skipOf_row {skipped : Skipped} (h : skipOf inv raw start = .ok skipped) : skipped.row = start := by
  unfold skipOf at h
  split at h
  · split at h
    · rw [← Except.ok.inj h]
    · split at h
      · rw [← Except.ok.inj h]
      · cases h
  · cases h

/-- What a reader returns for the row `start`: a range, or why the row is skipped. -/
inductive Selected (inv : Inventory) (raw : List JsString) (start maxBlocks : Nat) :
    List Row × Option Skipped → Prop where
  | ended (h : inv.length ≤ start) : Selected inv raw start maxBlocks ([], none)
  | range {rows : List Row} (hne : rows ≠ []) (h : Range inv start maxBlocks rows) :
      Selected inv raw start maxBlocks (rows, none)
  | skipped {skipped : Skipped} (h : skipOf inv raw start = .ok skipped) :
      Selected inv raw start maxBlocks ([], some skipped)

theorem orSkip_selected {r : List Row × Option Skipped} (hr : Range inv start maxBlocks rows)
    (h : orSkip inv raw start rows = .ok r) : Selected inv raw start maxBlocks r := by
  unfold orSkip at h
  split at h
  · rename_i hend
    obtain rfl := Except.ok.inj h
    exact .ended hend
  · split at h
    · rename_i hne
      obtain rfl := Except.ok.inj h
      exact .range hne hr
    · obtain ⟨skipped, hs, rfl⟩ := map_eq_ok.mp h
      exact .skipped hs

theorem pySelectedRows_selected {r : List Row × Option Skipped}
    (h : pySelectedRows inv raw start maxBlocks maxBytes = .ok r) : Selected inv raw start maxBlocks r := by
  obtain ⟨rows, hrows, h⟩ := bind_eq_ok.mp h
  have hinv : inv = [] ++ inv := rfl
  exact orSkip_selected (pyScan_range hinv rfl (Nat.zero_le _) (Nat.zero_le _) (by simp) hrows) h

theorem kotobaSelectedRows_selected {r : List Row × Option Skipped}
    (h : kotobaSelectedRows inv raw start maxBlocks maxBytes = .ok r) : Selected inv raw start maxBlocks r := by
  obtain ⟨rows, hrows, h⟩ := bind_eq_ok.mp h
  have hinv : inv.drop start = [].map some ++ inv.drop start := rfl
  exact orSkip_selected (kotobaScan_range (Nat.zero_add _).le hinv hrows) h

theorem Range.end_le (h : Range inv start maxBlocks rows) (hne : rows ≠ []) :
    start + rows.length ≤ inv.length := by
  have hlen := congrArg List.length h.here
  rw [List.length_take, List.length_drop, List.length_map] at hlen
  have := List.length_pos_iff.mpr hne
  omega

end Ship
