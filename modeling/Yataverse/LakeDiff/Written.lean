import Yataverse.Lake.Opened
import Yataverse.LakeDiff.Superset

/-!
# An inventory that was written

- `rowLine_eq`: the lines of the capture and of the diff are those of all tools.
- `inkedLines_rows`: the lines of a file of rows.
- **`inventoryRows_rows`**: the rows read back, where their CIDs increase.
-/

namespace LakeDiff

open Js Json GraphHead Lake Fallible Sorting

variable {rows : List Row} {row : Row} {prev cid : JsString}

/-- The characters of a CID stand for themselves in JSON. -/
theorem plain_of_cidRe (h : cidRe cid = true) : Plain cid := by
  have hb58 : ∀ u ∈ b58, isAlnum u = true := List.all_eq_true.mp (by decide +kernel)
  have hb32 {u : UInt16} (hu : isB32 u = true) : isAlnum u = true := by
    rw [isB32, Bool.or_eq_true] at hu
    unfold isAlnum
    rcases hu with hu | hu
    · rw [hu, Bool.true_or, Bool.true_or]
    · have hdigit : inRange '0' '9' u = true := by
        have h2 : (unit '2').toNat = 50 := by decide
        have h7 : (unit '7').toNat = 55 := by decide
        have h0 : (unit '0').toNat = 48 := by decide
        have h9 : (unit '9').toNat = 57 := by decide
        simp only [inRange, Bool.and_eq_true, decide_eq_true_eq, UInt16.le_iff_toNat_le] at hu ⊢
        omega
      rw [hdigit, Bool.or_true]
  intro u hu
  rcases Bool.or_eq_true_iff.mp h with h | h
  · simp only [cidV0, Bool.and_eq_true, beq_iff_eq, List.all_eq_true] at h
    rw [← List.take_append_drop 2 cid, h.1.1] at hu
    rcases List.mem_append.mp hu with hu | hu
    · have hqm : ∀ u ∈ js "Qm", isAlnum u = true := List.all_eq_true.mp (by decide)
      exact hqm u hu
    · exact hb58 u (List.contains_iff_mem.mp (h.2 u hu))
  · simp only [cidV1, Bool.and_eq_true, beq_iff_eq, List.all_eq_true] at h
    cases cid with
    | nil => cases hu
    | cons v cid =>
      obtain rfl := Option.some.inj h.1.1.1
      rcases List.mem_cons.mp hu with rfl | hu
      · decide
      · exact hb32 (h.2 u hu)

theorem rowLine_eq (h : Plain row.cid) : rowLine row = lineOf row := by
  have hquote : js "\x7b\"cid\":\"" = js "\x7b\"cid\":" ++ [unit '"'] := by decide
  have hquote' : js "\",\"bytes\":" = unit '"' :: js ",\"bytes\":" := by decide
  have hend : js "\x7d\n" = js "\x7d" ++ [10] := by decide
  rw [rowLine, lineOf, rowText, stringify_plain h, hquote, hquote', hend]
  simp only [List.append_assoc, List.cons_append, List.nil_append]

theorem flatMap_rowLine (h : ∀ row ∈ rows, Plain row.cid) : rows.flatMap rowLine = rows.flatMap lineOf :=
  List.flatMap_congr fun row hrow => rowLine_eq (h row hrow)

theorem not_isBlank_rowText (x : Number) : isBlank (rowText cid x) = false := by
  have hbrace : isWhite (unit '{') = false := by decide
  have h := rowText_append cid x []
  rw [List.append_nil] at h
  rw [h, isBlank, List.all_cons, hbrace, Bool.false_and]

/-- **The lines of a file of rows.** -/
theorem inkedLines_rows (h : ∀ row ∈ rows, Plain row.cid) :
    inkedLines (rows.flatMap lineOf) = rows.map fun row => rowText row.cid (.int row.size) := by
  unfold inkedLines splitNewline
  induction rows with
  | nil => rfl
  | cons row rows ih =>
    obtain ⟨hrow, hrows⟩ := List.forall_mem_cons.mp h
    have hten := (printable_rowText hrow (.int row.size)).newline_notMem
    rw [List.flatMap_cons, lineOf, List.append_assoc, List.singleton_append, List.splitOn_append_cons_self,
      List.splitOn_eq_singleton hten, List.filter_append, ih hrows, List.map_cons, List.filter_singleton,
      not_isBlank_rowText]
    rfl

/-- What a reader of the capture asks of the rows. -/
structure Ordered (rows : List Row) : Prop where
  increasing : Increasing Row.cid rows
  cid : ∀ row ∈ rows, cidRe row.cid = true
  held : ∀ row ∈ rows, (Number.int row.size).Held
  sized : ∀ row ∈ rows, 1 ≤ row.size

theorem Ordered.plain (h : Ordered rows) : ∀ row ∈ rows, Plain row.cid := fun row hrow => plain_of_cidRe (h.cid row hrow)

theorem Ordered.tail (h : Ordered (row :: rows)) : Ordered rows where
  increasing := h.increasing.tail
  cid r hr := h.cid r (List.mem_cons_of_mem _ hr)
  held r hr := h.held r (List.mem_cons_of_mem _ hr)
  sized r hr := h.sized r (List.mem_cons_of_mem _ hr)

theorem Ordered.append (h : Ordered rows) {more : List Row} (hmore : Ordered more)
    (hlt : ∀ a ∈ rows, ∀ b ∈ more, a.cid < b.cid) : Ordered (rows ++ more) where
  increasing := List.pairwise_append.mpr ⟨h.increasing, hmore.increasing, hlt⟩
  cid := List.forall_mem_append.mpr ⟨h.cid, hmore.cid⟩
  held := List.forall_mem_append.mpr ⟨h.held, hmore.held⟩
  sized := List.forall_mem_append.mpr ⟨h.sized, hmore.sized⟩

theorem utf8_rows_append {a b : List Row} (ha : Ordered a) (hb : Ordered b) :
    utf8 ((a ++ b).flatMap rowLine) = utf8 (a.flatMap rowLine) ++ utf8 (b.flatMap rowLine) := by
  rw [List.flatMap_append, flatMap_rowLine ha.plain, flatMap_rowLine hb.plain,
    utf8_append_ascii (ascii_flatMap ha.plain) (ascii_flatMap hb.plain)]

theorem readRows_rows (h : Ordered rows) (hprev : ∀ row ∈ rows, prev < row.cid) :
    readRows (rows.map fun row => rowText row.cid (.int row.size)) prev = .ok rows := by
  induction rows generalizing prev with
  | nil => rfl
  | cons row rows ih =>
    have hparse := @parse_rowText row.cid [] (.int row.size) (h.held row List.mem_cons_self) rfl rfl
    rw [List.append_nil] at hparse
    have hrest := ih h.tail fun r hr => List.rel_of_pairwise_cons h.increasing hr
    have hsize := h.sized row List.mem_cons_self
    rw [List.map_cons, readRows, hparse]
    have hok : cidRe row.cid = true ∧ prev < row.cid ∧ (1 : Int) ≤ row.size :=
      ⟨h.cid row List.mem_cons_self, hprev row List.mem_cons_self, by omega⟩
    refine (if_pos hok).trans ?_
    rw [hrest]
    rfl

/-- **The rows of an inventory read back.** -/
theorem inventoryRows_rows (h : Ordered rows) : inventoryRows (utf8 (rows.flatMap rowLine)) = .ok rows := by
  have hprev : ∀ row ∈ rows, ([] : JsString) < row.cid := by
    intro row hrow
    cases hcid : row.cid with
    | nil =>
      have := h.cid row hrow
      rw [hcid] at this
      cases this
    | cons u s => exact List.nil_lt_cons u s
  rw [inventoryRows, flatMap_rowLine h.plain, ofUtf8_utf8 (ascii_flatMap h.plain), inkedLines_rows h.plain,
    readRows_rows h hprev]

/-- Increasing CIDs are distinct. -/
theorem Ordered.writable (h : Ordered rows) : Writable rows where
  plain := h.plain
  held := h.held
  sized := h.sized
  nodup := by
    refine List.pairwise_map.mpr (h.increasing.imp fun hlt heq => ?_)
    rw [heq] at hlt
    exact absurd hlt Std.lt_irrefl

end LakeDiff
