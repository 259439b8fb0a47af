import Yataverse.Js.Decode
import Yataverse.Js.Held
import Yataverse.Lake.RowText
import Yataverse.LakeLog.Build

/-!
# A page reads back

The JSON text of a page is built by hand, from what the lines of the inventory were parsed as.

- `ListedRow`, `rowOf`: a row is a CID and a size.
- `rowText_eq`: the text of a row.
- `readValue_textOfRow`, `readElements_rowTexts`: the text parses.
- **`readPage_pageData`**: the rows of a page are read from its bytes.
-/

namespace LakeLog

open Js Json GraphHead Lake Fallible

/-- A row of an inventory. -/
structure ListedRow where
  cid : JsString
  bytes : Number
deriving DecidableEq

/-- The row that a value is: a text as its CID, and a number that is finite. -/
def rowOf (v : Json) : Option ListedRow :=
  match v.get (js "cid"), v.get (js "bytes") with
  | .str cid, .num bytes => if bytes.value?.isSome then some ⟨cid, bytes⟩ else none
  | _, _ => none

/-- The rows of a page. -/
def readPage (data : Bytes) : Option (List ListedRow) :=
  match parseJson data with
  | some (.arr xs) => xs.mapM rowOf
  | _ => none

/-- The value of a row in a page. -/
def rowValue (row : ListedRow) : Json := rowJson row.cid row.bytes

/-- A row with a size that a double holds. -/
def ListedRow.Held (row : ListedRow) : Prop := row.bytes.Held ∧ row.bytes.value?.isSome = true

variable {v : Json} {page : List Json} {row : ListedRow} {rows : List ListedRow} {texts : List JsString}
  {data : Bytes} {r : JsString}

theorem rowOf_eq_some : rowOf v = some row ↔
    v.get (js "cid") = .str row.cid ∧ v.get (js "bytes") = .num row.bytes ∧ row.bytes.value?.isSome = true := by
  unfold rowOf
  constructor
  · intro h
    split at h
    · rename_i hcid hbytes
      split_ifs at h with hvalue
      obtain rfl := Option.some.inj h
      exact ⟨hcid, hbytes, hvalue⟩
    · cases h
  · rintro ⟨hcid, hbytes, hvalue⟩
    rw [hcid, hbytes]
    exact if_pos hvalue

theorem rowOf_rowValue (h : row.Held) : rowOf (rowValue row) = some row :=
  rowOf_eq_some.mpr ⟨rfl, rfl, h.2⟩

theorem held_of_rowOf (hv : v.Numbers Number.Held) (h : rowOf v = some row) : row.Held := by
  obtain ⟨-, hbytes, hvalue⟩ := rowOf_eq_some.mp h
  have hheld := hv.get (js "bytes")
  rw [hbytes] at hheld
  exact ⟨hheld, hvalue⟩

/-! ## The text of a row -/

/-- The text of a row. -/
def textOfRow (row : ListedRow) : JsString := Lake.rowText row.cid row.bytes

theorem rowText_eq (h : rowOf v = some row) : rowText v = .ok (textOfRow row) := by
  obtain ⟨hcid, hbytes, -⟩ := rowOf_eq_some.mp h
  have hcid' := Json.property_of_get hcid (by rintro h; cases h)
  have hbytes' := Json.property_of_get hbytes (by rintro h; cases h)
  cases v with
  | null => cases hcid
  | obj kvs =>
    rw [rowText, hcid', hbytes']
    · rfl
    · rintro h
      cases h
  | bool b => cases hcid
  | num x => cases hcid
  | str s => cases hcid
  | arr xs => cases hcid

theorem mapM_rowText (h : page.mapM rowOf = some rows) : page.mapM rowText = .ok (rows.map textOfRow) := by
  induction page generalizing rows with
  | nil =>
    obtain rfl := Option.some.inj h
    rfl
  | cons v page ih =>
    rw [List.mapM_cons] at h
    obtain ⟨row, hrow, h⟩ := Option.bind_eq_some_iff.mp h
    obtain ⟨rows', hrows, h⟩ := Option.bind_eq_some_iff.mp h
    obtain rfl := Option.some.inj h
    rw [List.mapM_cons, rowText_eq hrow, ih hrows]
    rfl

/-! ## Parsing -/

/-- **A row parses.** -/
theorem readValue_textOfRow (h : row.Held) (fuel : Nat) :
    readValue (fuel + 4) (textOfRow row ++ r) = some (rowValue row, r) :=
  readValue_rowText h.1 h.2 fuel

/-- **The rows of a page parse.** -/
theorem readElements_rowTexts {fuel : Nat} (hne : rows ≠ []) (hheld : ∀ row ∈ rows, row.Held)
    (hfuel : rows.length + 4 ≤ fuel) :
    readElements fuel (joinComma (rows.map textOfRow) ++ unit ']' :: r) = some (rows.map rowValue, r) := by
  induction rows generalizing fuel with
  | nil => exact absurd rfl hne
  | cons row rows ih =>
    obtain ⟨hrow, hrows⟩ := List.forall_mem_cons.mp hheld
    rw [List.length_cons] at hfuel
    obtain ⟨fuel, rfl⟩ := Nat.exists_eq_add_of_le' (by omega : 5 ≤ fuel)
    cases rows with
    | nil => exact readElements_last (readValue_textOfRow hrow fuel)
    | cons row' rows =>
      have hrest := @ih (fuel + 4) (List.cons_ne_nil _ _) hrows (by rw [List.length_cons] at hfuel ⊢; omega)
      rw [List.map_cons, List.map_cons, joinComma, List.append_assoc, List.cons_append]
      exact readElements_next (readValue_textOfRow hrow fuel) hrest

theorem length_joinComma (rows : List ListedRow) : 4 * rows.length ≤ (joinComma (rows.map textOfRow)).length := by
  have hrow (row : ListedRow) : 4 ≤ (textOfRow row).length := by
    have h₁ : (js "\x7b\"cid\":").length = 7 := by decide
    simp only [textOfRow, Lake.rowText, List.length_append, h₁]
    omega
  induction rows with
  | nil => exact Nat.zero_le _
  | cons row rows ih =>
    have := hrow row
    cases rows with
    | nil => exact this
    | cons row' rows =>
      rw [List.map_cons, List.map_cons, joinComma, List.length_append]
      rw [List.map_cons] at ih
      simp only [List.length_cons] at ih ⊢
      omega

theorem parse_page (hne : rows ≠ []) (hheld : ∀ row ∈ rows, row.Held) :
    parse (unit '[' :: joinComma (rows.map textOfRow) ++ [unit ']']) = some (.arr (rows.map rowValue)) := by
  have hlen := length_joinComma rows
  have hpos := List.length_pos_iff.mpr hne
  obtain ⟨s, hs⟩ : ∃ s, joinComma (rows.map textOfRow) ++ [unit ']'] = unit '{' :: s := by
    cases rows with
    | nil => exact absurd rfl hne
    | cons row rows =>
      have htext (row : ListedRow) : ∃ s, textOfRow row = unit '{' :: s := ⟨_, rfl⟩
      obtain ⟨s, hs⟩ := htext row
      cases rows with
      | nil => exact ⟨s ++ [unit ']'], by rw [List.map_singleton, joinComma, hs]; rfl⟩
      | cons row' rows =>
        refine ⟨s ++ unit ',' :: joinComma ((row' :: rows).map textOfRow) ++ [unit ']'], ?_⟩
        rw [List.map_cons, List.map_cons, joinComma, hs]
        rfl
  have helements : readElements (unit '[' :: joinComma (rows.map textOfRow) ++ [unit ']']).length
      (joinComma (rows.map textOfRow) ++ [unit ']']) = some (rows.map rowValue, []) :=
    readElements_rowTexts hne hheld (by rw [List.length_append, List.length_cons, List.length_singleton]; omega)
  rw [hs] at helements
  have hvalue := readValue_arr (by unfold Starts; decide) helements
  have htext : unit '[' :: joinComma (rows.map textOfRow) ++ [unit ']'] = unit '[' :: unit '{' :: s := by
    rw [List.cons_append, hs]
  rw [← htext] at hvalue
  rw [parse, hvalue]
  rfl

/-! ## The bytes of a page -/

theorem wellFormed_textOfRow (row : ListedRow) {t : JsString} (ht : WellFormed t) : WellFormed (textOfRow row ++ t) := by
  have hascii {s : JsString} (hs : Ascii s) {t : JsString} (ht : WellFormed t) : WellFormed (s ++ t) :=
    WellFormed.append (not_surrogate_of_ascii hs) ht
  rw [textOfRow, Lake.rowText, List.append_assoc, List.append_assoc, List.append_assoc, List.append_assoc]
  exact hascii (by decide) (WellFormed.stringify_append row.cid (hascii (by decide)
    (hascii (printable_numStr row.bytes).ascii (hascii (by decide) ht))))

theorem wellFormed_joinComma (rows : List ListedRow) {t : JsString} (ht : WellFormed t) :
    WellFormed (joinComma (rows.map textOfRow) ++ t) := by
  have hcomma : (isHigh (unit ',') || isLow (unit ',')) = false := by decide
  induction rows with
  | nil => exact ht
  | cons row rows ih =>
    cases rows with
    | nil => exact wellFormed_textOfRow row ht
    | cons row' rows =>
      rw [List.map_cons, List.map_cons, joinComma, List.append_assoc, List.cons_append]
      exact wellFormed_textOfRow row (WellFormed.cons hcomma ih)

/-- **The rows of a page are read from its bytes.** -/
theorem readPage_pageData (hne : page ≠ []) (hrows : page.mapM rowOf = some rows) (hheld : ∀ row ∈ rows, row.Held)
    (h : pageData page = .ok data) : readPage data = some rows := by
  have hbracket : (isHigh (unit '[') || isLow (unit '[')) = false := by decide
  have hend : WellFormed [unit ']'] := by decide
  have hne' : rows ≠ [] := by
    rintro rfl
    cases page with
    | nil => exact hne rfl
    | cons v page =>
      rw [List.mapM_cons] at hrows
      obtain ⟨row, -, hrows⟩ := Option.bind_eq_some_iff.mp hrows
      obtain ⟨rows', -, hrows⟩ := Option.bind_eq_some_iff.mp hrows
      cases hrows
  rw [pageData, mapM_rowText hrows] at h
  obtain rfl := Except.ok.inj h
  have hwell : WellFormed (unit '[' :: joinComma (rows.map textOfRow) ++ [unit ']']) := by
    rw [List.cons_append]
    exact WellFormed.cons hbracket (wellFormed_joinComma rows hend)
  have hread : (rows.map rowValue).mapM rowOf = some rows := by
    clear hrows hne' h hwell
    induction rows with
    | nil => rfl
    | cons row rows ih =>
      obtain ⟨hrow, hrest⟩ := List.forall_mem_cons.mp hheld
      rw [List.map_cons, List.mapM_cons, rowOf_rowValue hrow, ih hrest]
      rfl
  rw [readPage, parseJson, hwell.ofUtf8_utf8, parse_page hne' hheld]
  exact hread

end LakeLog
