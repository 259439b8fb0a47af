import Yataverse.CarExport.Export
import Yataverse.Js.Double
import Yataverse.Ship.Select

/-!
# The same rows in every tool

The shipper cuts a range from the inventory, and the exporter on the other host cuts it again, from
its own copy. There is a Python and a Kotoba version of either of them.

- `pyShipped`, `kotobaShipped`: the two shippers, over a file and the identity that it is to have.
- `pyExported`, `kotobaExported`: the two exporters.
- `Longest`: what the range is to be.
- **`selected_rows_agree`**: all four compute it.
-/

namespace Ship

open Js Fallible Lake

/-! ## Files -/

/-- A number as JSON writes it. Python reads an integer or a float. -/
inductive Literal where
  | int (n : Int)
  | float (q : ℚ)

/-- A line: blank, a JSON object with a text as its CID and a number as its size, or neither. -/
inductive Line where
  | blank
  | other
  | entry (cid : JsString) (bytes : Literal)

/-- An inventory file. -/
structure File where
  sha256 : JsString
  lines : List Line

/-- What `JSON.parse` makes of a number. -/
def Literal.double : Literal → Number
  | .int n => .ofInt n
  | .float q => .ofRat q

/-- A row that the Python shipper takes. -/
def Line.pyRow : Line → Option Row
  | .entry cid (.int n) => if cidRe cid = true ∧ 1 ≤ n then some ⟨cid, n.toNat⟩ else none
  | _ => none

/-- A row that the Kotoba shipper takes: the size is a double. -/
def Line.kotobaRow : Line → Option Row
  | .entry cid bytes =>
    match bytes.double with
    | .int n => if cidRe cid = true ∧ 1 ≤ n then some ⟨cid, n.toNat⟩ else none
    | _ => none
  | _ => none

/-- A row that the Python exporter looks at. -/
def Line.pyListed : Line → Option CarExport.Listed
  | .entry cid (.int n) => some ⟨cid, n⟩
  | _ => none

/-- `(remove str/blank? lines)`. -/
def File.kotobaLines (file : File) : List Line :=
  file.lines.filter fun line => match line with | .blank => false | _ => true

/-! ## The shippers -/

/-- `selected_rows` of `ship_lake_car.py`. -/
def pyShipped (file : File) (expectedSha : JsString) (expectedCount : Nat) (raw : List JsString)
    (start maxBlocks maxBytes : Nat) : Except String (List Row × Option Skipped) := do
  let rows ← pyScan raw start maxBlocks maxBytes (file.lines.map Line.pyRow) 0 [] 0
  require (file.sha256 = expectedSha ∧ file.lines.length = expectedCount) "inventory identity differs from dated snapshot"
  orSkip (file.lines.map Line.pyRow) raw start rows

/-- `selected-rows` of `ship_lake_car.cljk`. -/
def kotobaShipped (file : File) (expectedSha : JsString) (expectedCount : Nat) (raw : List JsString)
    (start maxBlocks maxBytes : Nat) : Except String (List Row × Option Skipped) := do
  require (expectedSha = file.sha256 ∧ expectedCount = file.kotobaLines.length)
    "inventory identity differs from dated snapshot"
  kotobaSelectedRows (file.kotobaLines.map Line.kotobaRow) raw start maxBlocks maxBytes

/-! ## The exporters -/

/-- `selected_rows` of `export_lake_car_from_kubo.py`, on a host with this file. -/
def pyExported (host : CarExport.Host) (a : CarExport.Args) (file : File) : Except String (List (JsString × Nat)) :=
  CarExport.selectedRows { host with inventory := file.lines.map Line.pyListed, inventorySha256 := file.sha256 } a

/-- The loop of the Kotoba exporter, over the lines from the row `i` on; `room` more rows at most. -/
def kotobaExportScan (maxBytes : Nat) :
    List Line → Nat → List (JsString × Nat) → Nat → Except String (List (JsString × Nat))
  | [], _, rows, _ => .ok rows
  | _, 0, rows, _ => .ok rows
  | .entry cid bytes :: lines, room + 1, rows, total =>
    match bytes.double with
    | .int size =>
      if cidRe cid then
        if size > 8000000 ∨ size < 1 ∨ total + size + 1024 * (rows.length + 1) > maxBytes then
          if rows = [] then .error "first block exceeds CAR bounds" else .ok rows
        else kotobaExportScan maxBytes lines room (rows ++ [(cid, size.toNat)]) (total + size.toNat)
      else .error "invalid inventory CID or size"
    | _ => .error "invalid inventory CID or size"
  | _ :: _, _ + 1, _, _ => .error "invalid inventory row"

/-- `selected-rows` of `export_lake_car_from_kubo.cljk`. -/
def kotobaExported (file : File) (a : CarExport.Args) : Except String (List (JsString × Nat)) := do
  require (a.sha256 = file.sha256 ∧ a.count = file.kotobaLines.length) "inventory identity differs from dated snapshot"
  let rows ← kotobaExportScan a.maxBytes (file.kotobaLines.drop a.startRow) a.maxBlocks [] 0
  require (rows ≠ []) "empty inventory range"
  return rows

/-! ## What the range is to be -/

/-- The sizes of some rows. -/
def totalOf (rows : List Row) : Nat := (rows.map Row.bytes).sum

/-- Rows that ride in one CAR, one behind the other: every one keeps 1024 bytes of the budget. -/
structure Rideable (raw : List JsString) (maxBytes : Nat) (run : List Row) : Prop where
  raw : ∀ row ∈ run, row.cid ∉ raw
  block : ∀ row ∈ run, row.bytes ≤ maxCarBlock
  budget : ∀ i, 1 ≤ i → i ≤ run.length → totalOf (run.take i) + 1024 * i ≤ maxBytes

/-- The longest run of rows from `start` on. -/
structure Longest (rows : List Row) (raw : List JsString) (start maxBlocks maxBytes : Nat) (run : List Row) : Prop where
  here : run = (rows.drop start).take run.length
  room : run.length ≤ maxBlocks
  rides : Rideable raw maxBytes run
  longest : ∀ n ≤ maxBlocks, Rideable raw maxBytes ((rows.drop start).take n) → ((rows.drop start).take n).length ≤ run.length

variable {raw : List JsString} {start maxBlocks maxBytes count total room : Nat} {rows run acc : List Row} {row : Row}

theorem totalOf_append (xs ys : List Row) : totalOf (xs ++ ys) = totalOf xs + totalOf ys := by
  rw [totalOf, List.map_append, List.sum_append]
  rfl

theorem Rideable.nil : Rideable raw maxBytes [] := ⟨by simp, by simp, fun i h1 h2 => absurd h2 (by simp; omega)⟩

theorem Rideable.take (h : Rideable raw maxBytes run) (n : Nat) : Rideable raw maxBytes (run.take n) where
  raw row hrow := h.raw row (List.mem_of_mem_take hrow)
  block row hrow := h.block row (List.mem_of_mem_take hrow)
  budget i h1 hi := by
    rw [List.length_take] at hi
    rw [List.take_take, Nat.min_eq_left (by omega)]
    exact h.budget i h1 (by omega)

/-- `rides` is what the next row needs. -/
theorem rides_iff (h : Rideable raw maxBytes acc) :
    rides raw maxBytes acc (totalOf acc) row = true ↔ Rideable raw maxBytes (acc ++ [row]) := by
  simp only [rides, Bool.and_eq_true, Bool.not_eq_true', decide_eq_true_eq]
  constructor
  · rintro ⟨⟨hraw, hblock⟩, hbudget⟩
    refine ⟨fun r hr => ?_, fun r hr => ?_, fun i h1 hi => ?_⟩
    · rcases List.mem_append.mp hr with hr | hr
      · exact h.raw r hr
      · obtain rfl := List.mem_singleton.mp hr
        simpa using hraw
    · rcases List.mem_append.mp hr with hr | hr
      · exact h.block r hr
      · obtain rfl := List.mem_singleton.mp hr
        exact hblock
    · rw [List.length_append, List.length_singleton] at hi
      rcases Nat.lt_or_ge acc.length i with hlt | hge
      · obtain rfl : i = acc.length + 1 := by omega
        rw [List.take_of_length_le (by simp), totalOf_append]
        exact hbudget
      · rw [List.take_append_of_le_length hge]
        exact h.budget i h1 hge
  · intro hr
    have hmem : row ∈ acc ++ [row] := List.mem_append_right _ (List.mem_singleton_self row)
    refine ⟨⟨by simpa using hr.raw row hmem, hr.block row hmem⟩, ?_⟩
    have hbudget := hr.budget (acc.length + 1) (by omega) (by simp)
    rwa [List.take_of_length_le (by simp), totalOf_append] at hbudget

/-- The range, computed: the rows from `start` on, and how many more of them there may be. -/
def longestRun (raw : List JsString) (maxBytes : Nat) : List Row → Nat → List Row → List Row
  | [], _, acc => acc
  | _, 0, acc => acc
  | row :: rows, room + 1, acc =>
    if rides raw maxBytes acc (totalOf acc) row then longestRun raw maxBytes rows room (acc ++ [row]) else acc

theorem longestRun_spec (h : Rideable raw maxBytes acc) : ∃ n ≤ room,
    longestRun raw maxBytes rows room acc = acc ++ rows.take n ∧ Rideable raw maxBytes (acc ++ rows.take n) ∧
      ∀ m ≤ room, Rideable raw maxBytes (acc ++ rows.take m) → (rows.take m).length ≤ (rows.take n).length := by
  induction rows generalizing acc room with
  | nil =>
    refine ⟨0, Nat.zero_le _, ?_, ?_, fun m _ _ => ?_⟩
    · rw [longestRun, List.take_nil, List.append_nil]
    · rw [List.take_nil, List.append_nil]
      exact h
    · rw [List.take_nil, List.take_nil]
  | cons row rows ih =>
    cases room with
    | zero =>
      refine ⟨0, Nat.le_refl _, ?_, ?_, fun m hm _ => ?_⟩
      · rw [longestRun, List.take_zero, List.append_nil]
        rintro ⟨⟩
      · rw [List.take_zero, List.append_nil]
        exact h
      · obtain rfl := Nat.le_zero.mp hm
        exact Nat.le_refl _
    | succ room =>
      by_cases hrides : rides raw maxBytes acc (totalOf acc) row = true
      · obtain ⟨n, hn, hrun, hok, hmax⟩ := @ih room (acc ++ [row]) ((rides_iff h).mp hrides)
        simp only [List.append_assoc, List.singleton_append] at hrun hok hmax
        refine ⟨n + 1, by omega, ?_, hok, fun m hm hr => ?_⟩
        · rw [longestRun, if_pos hrides, hrun, List.take_succ_cons]
        · cases m with
          | zero => simp
          | succ m =>
            rw [List.take_succ_cons, List.length_cons, List.take_succ_cons, List.length_cons]
            exact Nat.succ_le_succ (hmax m (by omega) hr)
      · refine ⟨0, Nat.zero_le _, ?_, ?_, fun m hm hr => ?_⟩
        · rw [longestRun, if_neg hrides, List.take_zero, List.append_nil]
        · rw [List.take_zero, List.append_nil]
          exact h
        · cases m with
          | zero => exact Nat.le_refl _
          | succ m =>
            refine absurd ((rides_iff h).mpr ?_) hrides
            have hfirst := hr.take (acc.length + 1)
            rwa [List.take_succ_cons, List.take_length_add_append, List.take_succ_cons, List.take_zero] at hfirst

theorem longestRun_longest : Longest rows raw start maxBlocks maxBytes
    (longestRun raw maxBytes (rows.drop start) maxBlocks []) := by
  obtain ⟨n, hn, hrun, hok, hmax⟩ := @longestRun_spec raw maxBytes maxBlocks (rows.drop start) [] Rideable.nil
  rw [List.nil_append] at hrun hok
  rw [hrun]
  refine ⟨?_, ?_, hok, fun m hm hr => hmax m hm hr⟩
  · rw [List.length_take, List.take_eq_take_iff]
    omega
  · rw [List.length_take]
    omega

/-! ## The shippers compute it -/

/-- How a reader may read a row: a small size as it is, and a large one as a large one. -/
structure Reads (read : Row → Row) (row : Row) : Prop where
  cid : (read row).cid = row.cid
  pos : 1 ≤ row.bytes
  small : row.bytes ≤ maxCarBlock → read row = row
  large : maxCarBlock < row.bytes → maxCarBlock < (read row).bytes

theorem rides_read {read : Row → Row} (h : Reads read row) :
    rides raw maxBytes acc total (read row) = rides raw maxBytes acc total row := by
  rcases Nat.lt_or_ge maxCarBlock row.bytes with hlarge | hsmall
  · rw [rides, rides, decide_eq_false (Nat.not_le.mpr (h.large hlarge)), decide_eq_false (Nat.not_le.mpr hlarge)]
    simp
  · rw [h.small hsmall]

theorem rides_pos (h : rides raw maxBytes acc total row = true) : row.bytes ≤ maxCarBlock ∧
    total + row.bytes + 1024 * (acc.length + 1) ≤ maxBytes := by
  simp only [rides, Bool.and_eq_true, decide_eq_true_eq] at h
  exact ⟨h.1.2, h.2⟩

theorem kotobaScan_eq {read : Row → Row} (hread : ∀ row ∈ rows, Reads read row) :
    kotobaScan raw maxBytes (rows.map fun row => some (read row)) room acc (totalOf acc) =
      .ok (longestRun raw maxBytes rows room acc) := by
  induction rows generalizing acc room with
  | nil => rw [List.map_nil, kotobaScan, longestRun]
  | cons row rows ih =>
    have hrow := hread row List.mem_cons_self
    cases room with
    | zero =>
      rw [List.map_cons, kotobaScan, longestRun]
      · rintro ⟨⟩
      · rintro ⟨⟩
    | succ room =>
      have hrest := @ih room (acc ++ [row]) fun r hr => hread r (List.mem_cons_of_mem _ hr)
      rw [totalOf_append] at hrest
      rw [List.map_cons, kotobaScan, longestRun]
      rw [rides_read hrow]
      by_cases hrides : rides raw maxBytes acc (totalOf acc) row = true
      · obtain ⟨hsmall, hbudget⟩ := rides_pos hrides
        rw [if_pos hrides, if_pos hrides, if_neg (by omega), hrow.small hsmall]
        exact hrest
      · rw [if_neg hrides, if_neg hrides, ite_self]

/-- Behind the range, the Python reader adds nothing. -/
theorem pyScan_done (hlt : acc.length < count - start) :
    pyScan raw start maxBlocks maxBytes (rows.map some) count acc total = .ok acc := by
  induction rows generalizing count with
  | nil => rfl
  | cons row rows ih =>
    rw [List.map_cons, pyScan]
    rw [if_neg (fun h => absurd h.2 (by omega) : ¬ (_ ∧ acc.length = count - start)), ite_self]
    exact ih (by omega)

theorem pyScan_eq (hpos : ∀ row ∈ rows, 1 ≤ row.bytes) (hstart : start ≤ count) (hlen : acc.length = count - start) :
    pyScan raw start maxBlocks maxBytes (rows.map some) count acc (totalOf acc) =
      .ok (longestRun raw maxBytes rows (start + maxBlocks - count) acc) := by
  induction rows generalizing acc count with
  | nil => rw [List.map_nil, pyScan, longestRun]
  | cons row rows ih =>
    have hrow : 1 ≤ row.bytes := hpos row List.mem_cons_self
    have hrest := @ih (count + 1) (acc ++ [row]) (fun r hr => hpos r (List.mem_cons_of_mem _ hr)) (by omega)
      (by rw [List.length_append, List.length_singleton]; omega)
    rw [totalOf_append] at hrest
    rw [List.map_cons, pyScan]
    by_cases hroom : count < start + maxBlocks
    · obtain ⟨room, hk⟩ : ∃ room, start + maxBlocks - count = room + 1 := ⟨start + maxBlocks - count - 1, by omega⟩
      have hk' : start + maxBlocks - (count + 1) = room := by omega
      rw [hk'] at hrest
      rw [hk, longestRun]
      by_cases hrides : rides raw maxBytes acc (totalOf acc) row = true
      · obtain ⟨-, hbudget⟩ := rides_pos hrides
        rw [if_pos ⟨hstart, hroom, by omega⟩, if_pos ⟨hrides, hlen⟩, if_pos hrides]
        exact hrest
      · rw [if_neg (fun h => hrides h.1 : ¬ (rides raw maxBytes acc (totalOf acc) row = true ∧ acc.length = count - start)),
          ite_self, if_neg hrides]
        exact pyScan_done (by omega)
    · rw [if_neg (by omega), pyScan_done (by omega), Nat.sub_eq_zero_of_le (by omega), longestRun]
      rintro ⟨⟩

theorem pyScan_start (hpos : ∀ row ∈ rows, 1 ≤ row.bytes) (hstart : count ≤ start) :
    pyScan raw start maxBlocks maxBytes (rows.map some) count [] 0 =
      .ok (longestRun raw maxBytes (rows.drop (start - count)) maxBlocks []) := by
  induction rows generalizing count with
  | nil =>
    rw [List.map_nil, pyScan, List.drop_nil, longestRun]
  | cons row rows ih =>
    rcases Nat.lt_or_ge count start with hlt | hge
    · obtain ⟨n, hn⟩ : ∃ n, start - count = n + 1 := ⟨start - count - 1, by omega⟩
      rw [List.map_cons, pyScan, if_neg (by omega), hn, List.drop_succ_cons,
        ih (fun r hr => hpos r (List.mem_cons_of_mem _ hr)) (by omega)]
      congr 3
      omega
    · obtain rfl : count = start := by omega
      have heq := @pyScan_eq raw count maxBlocks maxBytes count (row :: rows) [] hpos (Nat.le_refl _) (by simp)
      rw [Nat.add_sub_cancel_left] at heq
      rw [Nat.sub_self, List.drop_zero]
      exact heq

/-! ## Files of valid rows -/

/-- The line of a row. -/
def Row.line (row : Row) : Line := .entry row.cid (.int row.bytes)

/-- What the size of a row is in Kotoba. -/
def Row.double (row : Row) : Row :=
  match Number.ofInt row.bytes with
  | .int n => { row with bytes := n.toNat }
  | _ => row

/-- The size is no infinity in Kotoba. -/
def Row.Finite (row : Row) : Prop := Number.ofInt row.bytes ≠ .inf false

theorem Row.double_exact (h : row.bytes ≤ 2 ^ 53) : row.double = row := by
  rw [double, Number.ofInt_exact (by simpa using h)]
  rfl

theorem Row.finite_exact (h : row.bytes ≤ 2 ^ 53) : row.Finite := by
  rw [Finite, Number.ofInt_exact (by simpa using h)]
  rintro ⟨⟩

/-- The double that a valid row's size is read as. -/
theorem Row.reads_double (hpos : 1 ≤ row.bytes) (hfinite : row.Finite) :
    Reads Row.double row ∧ Number.ofInt row.bytes = .int row.double.bytes := by
  rcases Nat.lt_or_ge (2 ^ 53) row.bytes with hlarge | hsmall
  · rcases Number.ofInt_large (n := row.bytes) (by exact_mod_cast hlarge) with ⟨m, hm, hle⟩ | hinf
    · have hdouble : row.double = { row with bytes := m.toNat } := by rw [double, hm]
      rw [hdouble, hm]
      refine ⟨⟨by rw [hdouble], hpos, fun h => ?_, fun _ => ?_⟩, ?_⟩
      · rw [maxCarBlock] at h
        omega
      · rw [hdouble, maxCarBlock]
        dsimp only
        omega
      · dsimp only
        rw [Int.toNat_of_nonneg (by omega)]
    · exact absurd hinf hfinite
  · rw [Row.double_exact hsmall]
    refine ⟨⟨by rw [Row.double_exact hsmall], hpos, fun _ => Row.double_exact hsmall, fun h => ?_⟩,
      Number.ofInt_exact (by simpa using hsmall)⟩
    rw [Row.double_exact hsmall]
    exact h

theorem pyRow_line (h : cidRe row.cid = true ∧ 1 ≤ row.bytes) : row.line.pyRow = some row := by
  rw [Row.line, Line.pyRow, if_pos ⟨h.1, by exact_mod_cast h.2⟩]
  rfl

theorem kotobaRow_line (h : cidRe row.cid = true ∧ 1 ≤ row.bytes) (hfinite : row.Finite) :
    row.line.kotobaRow = some row.double := by
  obtain ⟨hreads, hint⟩ := Row.reads_double h.2 hfinite
  have hone : 1 ≤ row.double.bytes := by
    rcases Nat.lt_or_ge maxCarBlock row.bytes with hlarge | hsmall
    · exact le_trans (by decide) (hreads.large hlarge).le
    · rw [hreads.small hsmall]
      exact h.2
  rw [Row.line, Line.kotobaRow, Literal.double, hint]
  dsimp only
  rw [if_pos ⟨h.1, by exact_mod_cast hone⟩, Int.toNat_natCast, ← hreads.cid]

/-- Rows as every tool of the lake writes them. -/
def Valid (rows : List Row) : Prop := ∀ row ∈ rows, cidRe row.cid = true ∧ 1 ≤ row.bytes

theorem pyRow_lines (h : Valid rows) : (rows.map Row.line).map Line.pyRow = rows.map some := by
  rw [List.map_map]
  exact List.map_congr_left fun row hrow => pyRow_line (h row hrow)

theorem kotobaRow_lines (h : Valid rows) (hfinite : ∀ row ∈ rows, row.Finite) :
    (rows.map Row.line).map Line.kotobaRow = rows.map fun row => some row.double := by
  rw [List.map_map]
  exact List.map_congr_left fun row hrow => kotobaRow_line (h row hrow) (hfinite row hrow)

theorem kotobaLines_eq {file : File} (hfile : file.lines = rows.map Row.line) : file.kotobaLines = file.lines := by
  rw [File.kotobaLines, hfile, List.filter_eq_self]
  rintro line hline
  obtain ⟨row, -, rfl⟩ := List.mem_map.mp hline
  rfl

/-- The record of a skipped row, with the size as Kotoba has it. -/
def Skipped.double (skipped : Skipped) : Skipped :=
  { skipped with bytes := (Row.double ⟨skipped.cid, skipped.bytes⟩).bytes }

theorem skipOf_double {first : Row} (hfirst : rows[start]? = some first) (hread : Reads Row.double first) :
    skipOf (rows.map fun row => some row.double) raw start = Skipped.double <$> skipOf (rows.map some) raw start := by
  rw [skipOf, skipOf, List.getElem?_map, List.getElem?_map, hfirst]
  dsimp only [Option.map_some]
  rw [hread.cid]
  by_cases hraw : raw.contains first.cid = true
  · rw [if_pos hraw, if_pos hraw]
    rfl
  · rw [if_neg hraw, if_neg hraw]
    rcases Nat.lt_or_ge maxCarBlock first.bytes with hlarge | hsmall
    · rw [if_pos hlarge, if_pos (hread.large hlarge)]
      rfl
    · rw [hread.small hsmall, if_neg (Nat.not_lt.mpr hsmall)]
      rfl

theorem orSkip_double (hread : ∀ row ∈ rows, Reads Row.double row) :
    orSkip (rows.map fun row => some row.double) raw start run =
      (fun r => (r.1, r.2.map Skipped.double)) <$> orSkip (rows.map some) raw start run := by
  rcases Nat.lt_or_ge start rows.length with hlt | hge
  · have hin : ¬ rows.length ≤ start := Nat.not_le.mpr hlt
    have hskip : skipOf (rows.map fun row => some row.double) raw start =
        Skipped.double <$> skipOf (rows.map some) raw start :=
      skipOf_double (List.getElem?_eq_getElem hlt) (hread _ (List.getElem_mem hlt))
    simp only [orSkip, List.length_map, if_neg hin, hskip]
    by_cases hrun : run ≠ []
    · rw [if_pos hrun, if_pos hrun]
      rfl
    · rw [if_neg hrun, if_neg hrun]
      cases skipOf (rows.map some) raw start <;> rfl
  · simp only [orSkip, List.length_map, if_pos hge]
    rfl

/-! ## The exporters compute it again -/

/-- A row as the exporters return it. -/
def Row.listed (row : Row) : JsString × Nat := (row.cid, row.bytes)

/-- What an exporter asks of the next row. -/
theorem next_fits {k : Nat} (hpos : 1 ≤ row.bytes) (hrun : Rideable raw maxBytes (acc ++ (row :: rows).take (k + 1))) :
    ¬ ((row.bytes : Int) > 8000000 ∨ (row.bytes : Int) < 1 ∨
      (totalOf acc : Int) + row.bytes + 1024 * ((acc.map Row.listed).length + 1) > maxBytes) := by
  have hfirst := hrun.take (acc.length + 1)
  rw [List.take_succ_cons, List.take_length_add_append, List.take_succ_cons, List.take_zero] at hfirst
  have hblock := hfirst.block row (List.mem_append_right _ (List.mem_singleton_self row))
  have hbudget := hfirst.budget (acc.length + 1) (by omega) (by simp)
  rw [List.take_of_length_le (by simp), totalOf_append] at hbudget
  change totalOf acc + row.bytes + 1024 * (acc.length + 1) ≤ maxBytes at hbudget
  rw [maxCarBlock] at hblock
  rw [List.length_map]
  omega

theorem scan_done {lines : CarExport.Inventory} {listed : List (JsString × Nat)} (h : start + maxBlocks ≤ count) :
    CarExport.scan start maxBlocks maxBytes lines count listed total = .ok listed := by
  induction lines generalizing count with
  | nil => rfl
  | cons line lines ih =>
    rw [CarExport.scan.eq_def]
    dsimp only
    rw [if_neg (by omega)]
    exact ih (by omega)

/-- The Python exporter takes the rows that it is to take: `k` more behind `acc`. -/
theorem scan_run {k : Nat} (hvalid : Valid rows) (hrun : Rideable raw maxBytes (acc ++ rows.take k)) (hk : k ≤ rows.length)
    (hblocks : acc.length + k = maxBlocks) (hstart : start ≤ count) (hlen : acc.length = count - start) :
    CarExport.scan start maxBlocks maxBytes ((rows.map Row.line).map Line.pyListed) count (acc.map Row.listed)
      (totalOf acc) = .ok ((acc ++ rows.take k).map Row.listed) := by
  induction rows generalizing acc count k with
  | nil =>
    rw [List.take_nil, List.append_nil]
    rfl
  | cons row rows ih =>
    have hrow := hvalid row List.mem_cons_self
    cases k with
    | zero =>
      rw [List.take_zero, List.append_nil]
      exact scan_done (by omega)
    | succ k =>
      have hfits := next_fits hrow.2 hrun
      have hrest := @ih (count + 1) (acc ++ [row]) k (fun r hr => hvalid r (List.mem_cons_of_mem _ hr))
        (by simpa using hrun) (by simpa using hk) (by rw [List.length_append, List.length_singleton]; omega) (by omega)
        (by rw [List.length_append, List.length_singleton]; omega)
      rw [List.map_append, totalOf_append] at hrest
      rw [List.map_cons, List.map_cons, CarExport.scan.eq_def]
      dsimp only [Row.line, Line.pyListed]
      rw [if_pos ⟨hstart, by omega⟩, if_pos hrow.1, if_neg hfits, if_pos (by rw [List.length_map]; exact hlen),
        Int.toNat_natCast]
      refine hrest.trans ?_
      rw [List.append_assoc]
      rfl

theorem scan_start {n : Nat} (hvalid : Valid rows) (hstart : count ≤ start)
    (hrun : Rideable raw maxBytes ((rows.drop (start - count)).take n)) (hn : n ≤ (rows.drop (start - count)).length) :
    CarExport.scan start n maxBytes ((rows.map Row.line).map Line.pyListed) count [] 0 =
      .ok (((rows.drop (start - count)).take n).map Row.listed) := by
  induction rows generalizing count with
  | nil =>
    rw [List.drop_nil, List.take_nil]
    rfl
  | cons row rows ih =>
    rcases Nat.lt_or_ge count start with hlt | hge
    · obtain ⟨m, hm⟩ : ∃ m, start - count = m + 1 := ⟨start - count - 1, by omega⟩
      have hm' : start - (count + 1) = m := by omega
      rw [hm, List.drop_succ_cons] at hrun hn ⊢
      rw [List.map_cons, List.map_cons, CarExport.scan.eq_def]
      dsimp only
      rw [if_neg (by omega)]
      have hrest := @ih (count + 1) (fun r hr => hvalid r (List.mem_cons_of_mem _ hr)) (by omega)
      rw [hm'] at hrest
      exact hrest hrun hn
    · obtain rfl : count = start := by omega
      rw [Nat.sub_self, List.drop_zero] at hrun hn ⊢
      exact @scan_run raw count n maxBytes count (row :: rows) [] n hvalid hrun hn (Nat.zero_add n) (Nat.le_refl _) (by simp)

/-- So does the Kotoba exporter. -/
theorem kotobaExportScan_run {k : Nat} (hvalid : Valid rows) (hrun : Rideable raw maxBytes (acc ++ rows.take k))
    (hk : k ≤ rows.length) : kotobaExportScan maxBytes (rows.map Row.line) k (acc.map Row.listed) (totalOf acc) =
      .ok ((acc ++ rows.take k).map Row.listed) := by
  induction rows generalizing acc k with
  | nil =>
    rw [List.take_nil, List.append_nil]
    rfl
  | cons row rows ih =>
    have hrow := hvalid row List.mem_cons_self
    cases k with
    | zero =>
      rw [List.take_zero, List.append_nil, List.map_cons, kotobaExportScan]
      rintro ⟨⟩
    | succ k =>
      have hfits := next_fits hrow.2 hrun
      have hsmall : row.bytes ≤ 2 ^ 53 := by omega
      have hrest := @ih (acc ++ [row]) k (fun r hr => hvalid r (List.mem_cons_of_mem _ hr)) (by simpa using hrun)
        (by simpa using hk)
      rw [List.map_append, totalOf_append] at hrest
      rw [List.map_cons, Row.line, kotobaExportScan, Literal.double, Number.ofInt_exact (by simpa using hsmall)]
      dsimp only
      rw [if_pos hrow.1, if_neg hfits, Int.toNat_natCast]
      refine hrest.trans ?_
      rw [List.append_assoc]
      rfl

/-! ## All four agree -/

/-- What the shippers answer for a file of valid rows with its identity. -/
theorem shipped_eq {file : File} (hfile : file.lines = rows.map Row.line) (hvalid : Valid rows) :
    pyShipped file file.sha256 rows.length raw start maxBlocks maxBytes =
        orSkip (rows.map some) raw start (longestRun raw maxBytes (rows.drop start) maxBlocks []) ∧
      ((∀ row ∈ rows, row.Finite) → kotobaShipped file file.sha256 rows.length raw start maxBlocks maxBytes =
        orSkip (rows.map fun row => some row.double) raw start (longestRun raw maxBytes (rows.drop start) maxBlocks [])) := by
  have hlength : file.lines.length = rows.length := by rw [hfile, List.length_map]
  constructor
  · have hscan := @pyScan_start raw start maxBlocks maxBytes 0 rows (fun row hrow => (hvalid row hrow).2) (Nat.zero_le _)
    rw [Nat.sub_zero] at hscan
    rw [pyShipped, require, if_pos ⟨rfl, hlength⟩, hfile, pyRow_lines hvalid, hscan]
    rfl
  · intro hfinite
    have hread : ∀ row ∈ rows, Reads Row.double row := fun row hrow =>
      (Row.reads_double (hvalid row hrow).2 (hfinite row hrow)).1
    have hscan := @kotobaScan_eq raw maxBytes maxBlocks (rows.drop start) [] Row.double
      fun row hrow => hread row (List.mem_of_mem_drop hrow)
    rw [kotobaShipped, kotobaLines_eq hfile, require, if_pos ⟨rfl, hlength.symm⟩, hfile, kotobaRow_lines hvalid hfinite,
      kotobaSelectedRows, ← List.map_drop]
    change (kotobaScan raw maxBytes _ maxBlocks [] (totalOf []) >>= _) = _
    rw [hscan]
    rfl

/-- **The range of a shipment**: for a file of valid rows, both shippers return the longest run of rows that
rides, or why the first row does not ride, or refuse; and both exporters, asked for as many rows as the run has,
return the run again. A size beyond `2 ^ 53` is a double in the record of the Kotoba shipper. -/
theorem selected_rows_agree (file : File) (rows : List Row) (raw : List JsString) (start maxBlocks maxBytes : Nat)
    (hfile : file.lines = rows.map Row.line) (hvalid : Valid rows) (hstart : start < rows.length) :
    ∃ first run, rows[start]? = some first ∧ Longest rows raw start maxBlocks maxBytes run ∧
      (run ≠ [] → pyShipped file file.sha256 rows.length raw start maxBlocks maxBytes = .ok (run, none)) ∧
      (run = [] → pyShipped file file.sha256 rows.length raw start maxBlocks maxBytes =
        if first.cid ∈ raw then .ok ([], some ⟨start, first.cid, first.bytes, .rawBlockStore⟩)
        else if maxCarBlock < first.bytes then .ok ([], some ⟨start, first.cid, first.bytes, .oversized⟩)
        else .error "single block exceeds CAR byte budget") ∧
      ((∀ row ∈ rows, row.Finite) → kotobaShipped file file.sha256 rows.length raw start maxBlocks maxBytes =
        (fun r => (r.1, r.2.map Skipped.double)) <$> pyShipped file file.sha256 rows.length raw start maxBlocks maxBytes) ∧
      ((∀ row ∈ rows, row.bytes ≤ 2 ^ 53) → kotobaShipped file file.sha256 rows.length raw start maxBlocks maxBytes =
        pyShipped file file.sha256 rows.length raw start maxBlocks maxBytes) ∧
      (run ≠ [] → ∀ (host : CarExport.Host) (a : CarExport.Args), a.sha256 = file.sha256 → a.count = rows.length →
        a.startRow = start → a.maxBlocks = run.length → a.maxBytes = maxBytes →
        pyExported host a file = .ok (run.map Row.listed) ∧ kotobaExported file a = .ok (run.map Row.listed)) := by
  obtain ⟨hpy, hkotoba⟩ := @shipped_eq raw start maxBlocks maxBytes rows file hfile hvalid
  have hlongest : Longest rows raw start maxBlocks maxBytes _ := longestRun_longest
  have hin : ¬ (rows.map some).length ≤ start := by
    rw [List.length_map]
    omega
  refine ⟨rows[start], _, List.getElem?_eq_getElem hstart, hlongest, fun hrun => ?_, fun hrun => ?_, fun hfinite => ?_,
    fun hexact => ?_, ?_⟩
  · rw [hpy, orSkip, if_neg hin, if_pos hrun]
  · rw [hpy, orSkip, if_neg hin, if_neg (by rw [hrun]; simp), skipOf, List.getElem?_map, List.getElem?_eq_getElem hstart]
    simp only [Option.map_some, List.contains_iff_mem]
    by_cases hraw : rows[start].cid ∈ raw
    · rw [if_pos hraw, if_pos hraw]
      rfl
    · rw [if_neg hraw, if_neg hraw]
      by_cases hlarge : maxCarBlock < rows[start].bytes
      · rw [if_pos hlarge, if_pos hlarge]
        rfl
      · rw [if_neg hlarge, if_neg hlarge]
        rfl
  · rw [hkotoba hfinite, hpy]
    exact orSkip_double fun row hrow => (Row.reads_double (hvalid row hrow).2 (hfinite row hrow)).1
  · rw [hkotoba fun row hrow => Row.finite_exact (hexact row hrow), hpy]
    congr 1
    exact List.map_congr_left fun row hrow => by rw [Row.double_exact (hexact row hrow)]
  · generalize longestRun raw maxBytes (rows.drop start) maxBlocks [] = run at hlongest
    rintro hrun host a hsha hcount rfl hblocks rfl
    have hrides := hlongest.rides
    rw [hlongest.here] at hrides
    have hle : run.length ≤ (rows.drop a.startRow).length := by
      have hlen := congrArg List.length hlongest.here
      rw [List.length_take] at hlen
      omega
    have hlength : file.lines.length = a.count := by rw [hfile, List.length_map, hcount]
    have hlisted : run.map Row.listed ≠ [] := by simpa using hrun
    constructor
    · have hscan := @scan_start raw a.startRow a.maxBytes 0 rows run.length hvalid (Nat.zero_le _) hrides hle
      rw [Nat.sub_zero, ← hlongest.here] at hscan
      rw [pyExported, CarExport.selectedRows]
      dsimp only
      rw [hblocks, hfile, hscan]
      have hidentity : file.sha256 = a.sha256 ∧ ((rows.map Row.line).map Line.pyListed).length = a.count := by
        rw [hsha, hcount, List.length_map, List.length_map]
        exact ⟨rfl, rfl⟩
      change (require _ _ >>= fun _ => require _ _ >>= fun _ => _) = _
      rw [require, if_pos hidentity]
      change (require _ _ >>= fun _ => _) = _
      rw [require, if_pos hlisted]
      rfl
    · have hscan := @kotobaExportScan_run raw a.maxBytes (rows.drop a.startRow) [] run.length
        (fun row hrow => hvalid row (List.mem_of_mem_drop hrow)) hrides hle
      rw [List.nil_append, ← hlongest.here, List.map_drop] at hscan
      rw [kotobaExported, kotobaLines_eq hfile, require, if_pos ⟨hsha, hlength.symm⟩, hfile, hblocks]
      change (kotobaExportScan a.maxBytes _ run.length ([].map Row.listed) (totalOf []) >>= _) = _
      rw [hscan]
      change (require _ _ >>= fun _ => _) = _
      rw [require, if_pos hlisted]
      rfl

section Samples

/-- A CID, and a size that is no double. -/
def wide : Row := ⟨js "Qm11111111111111111111111111111111111111111111", 2 ^ 53 + 1⟩

theorem valid_wide : Valid [wide] := by
  rintro row hrow
  obtain rfl := List.mem_singleton.mp hrow
  decide

theorem selected_rows_agree_wide : ∃ first run, [wide][0]? = some first ∧ Longest [wide] [] 0 1 100 run ∧
      (run ≠ [] → pyShipped ⟨[], [wide.line]⟩ [] 1 [] 0 1 100 = .ok (run, none)) ∧
      (run = [] → pyShipped ⟨[], [wide.line]⟩ [] 1 [] 0 1 100 =
        if first.cid ∈ [] then .ok ([], some ⟨0, first.cid, first.bytes, .rawBlockStore⟩)
        else if maxCarBlock < first.bytes then .ok ([], some ⟨0, first.cid, first.bytes, .oversized⟩)
        else .error "single block exceeds CAR byte budget") ∧
      ((∀ row ∈ [wide], row.Finite) → kotobaShipped ⟨[], [wide.line]⟩ [] 1 [] 0 1 100 =
        (fun r => (r.1, r.2.map Skipped.double)) <$> pyShipped ⟨[], [wide.line]⟩ [] 1 [] 0 1 100) ∧
      ((∀ row ∈ [wide], row.bytes ≤ 2 ^ 53) → kotobaShipped ⟨[], [wide.line]⟩ [] 1 [] 0 1 100 =
        pyShipped ⟨[], [wide.line]⟩ [] 1 [] 0 1 100) ∧
      (run ≠ [] → ∀ (host : CarExport.Host) (a : CarExport.Args), a.sha256 = [] → a.count = 1 →
        a.startRow = 0 → a.maxBlocks = run.length → a.maxBytes = 100 →
        pyExported host a ⟨[], [wide.line]⟩ = .ok (run.map Row.listed) ∧
          kotobaExported ⟨[], [wide.line]⟩ a = .ok (run.map Row.listed)) :=
  selected_rows_agree ⟨[], [wide.line]⟩ [wide] [] 0 1 100 rfl valid_wide (by decide)

/-- **A size beyond `2 ^ 53`**: the two shippers skip the row with different records. -/
theorem shippers_differ :
    ¬ ∀ (file : File) (rows : List Row) (raw : List JsString) (start maxBlocks maxBytes : Nat),
      file.lines = rows.map Row.line → Valid rows → start < rows.length → 1 ≤ maxBlocks →
      kotobaShipped file file.sha256 rows.length raw start maxBlocks maxBytes =
        pyShipped file file.sha256 rows.length raw start maxBlocks maxBytes := by
  intro h
  have heq := h ⟨[], [wide.line]⟩ [wide] [] 0 1 100 rfl valid_wide (by decide) (by decide)
  revert heq
  decide +kernel

end Samples

end Ship
