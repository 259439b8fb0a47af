import Yataverse.Lake.Serving
import Yataverse.Splitting.Places

/-!
# An inventory and its rows

- `entry_eq_ok`: which lines are taken.
- `Indexed`: what an opened inventory knows of its file.
- `openIndex_eq_ok`: which inventories are opened.
- **`rows_of_indexed`**: what `rows` returns, in both languages.
-/

namespace Lake

open Js Json GraphHead Fallible Sorting Splitting

variable {language : Language} {disk : Disk} {nc : NodeCrypto} {index : Index} {row : Row} {rows : List Row} {line bs : Bytes}
  {lines : List Bytes} {offset limit n : Nat} {v : Json} {path sha256 : JsString} {count : Nat}

/-! ## One line -/

/-- A line in either language. -/
def lineRow : Language → Bytes → Option Row
  | .python => loadsRow
  | .kotoba => kotobaRow

theorem contains_of_get {k : JsString} (h : v.get k ≠ .null) : v.contains k = true := by
  cases v with
  | obj kvs => exact List.contains_iff_mem.mpr (List.mem_map.mpr ⟨_, mem_of_lookup h, rfl⟩)
  | null | bool b | num x | str s | arr xs => exact absurd rfl h

/-- A row has both fields. -/
theorem contains_of_row (h : rowIn v = some row) : (v.contains (js "cid") && v.contains (js "bytes")) = true := by
  obtain ⟨hcid, hbytes, -⟩ := rowIn_eq_some.mp h
  rw [contains_of_get (hcid ▸ by simp), contains_of_get (hbytes ▸ by simp)]
  rfl

/-- **A line is taken** where it is a row. -/
theorem entry_eq_ok : entry language offset line = .ok row ↔ lineRow language line = some row := by
  cases language with
  | python =>
    rw [entry, lineRow, pyEntry, loadsRow]
    cases (jsonText line).bind loads with
    | none => exact iff_of_false (by rintro ⟨⟩) (by rintro ⟨⟩)
    | some v =>
      rw [Option.bind_some]
      dsimp only
      cases hrow : rowIn v with
      | some row' =>
        rw [if_pos (contains_of_row hrow)]
        exact ⟨fun h => congrArg some (Except.ok.inj h), fun h => congrArg Except.ok (Option.some.inj h)⟩
      | none =>
        refine ⟨fun h => ?_, fun h => (by cases h)⟩
        split_ifs at h
  | kotoba =>
    rw [entry, lineRow, kotobaEntry, kotobaRow]
    cases parse (ofUtf8 line) with
    | none => exact iff_of_false (by rintro ⟨⟩) (by rintro ⟨⟩)
    | some v =>
      rw [Option.bind_some]
      cases hrow : rowIn v with
      | some row' =>
        obtain ⟨e, kvs, rfl⟩ := obj_of_rowIn hrow
        dsimp only
        rw [hrow]
        exact ⟨fun h => congrArg some (Except.ok.inj h), fun h => congrArg Except.ok (Option.some.inj h)⟩
      | none =>
        refine ⟨fun h => ?_, fun h => (by cases h)⟩
        cases v
        · cases h
        all_goals
          dsimp only at h
          rw [hrow] at h
          cases h

/-! ## One inventory -/

/-- The sizes of rows. -/
def sizesOf (rows : List Row) : List (JsString × Nat) := rows.map fun row => (row.cid, row.size)

/-- **The lines are indexed** where they are rows with new CIDs. -/
theorem indexLines_eq_ok {offsets offsets' : List Nat} {sizes sizes' : JsMap JsString Nat} :
    indexLines (entry language) offset lines offsets sizes = .ok (offsets', sizes') ↔
      ∃ rows, lines.map (lineRow language) = rows.map some ∧
        offsets' = offsets ++ startsFrom offset (lines.map List.length) ∧
        sizes'.entries = sizes.entries ++ sizesOf rows := by
  induction lines generalizing offset offsets sizes with
  | nil =>
    rw [indexLines]
    constructor
    · intro h
      obtain ⟨rfl, rfl⟩ := Prod.mk.inj (Except.ok.inj h)
      exact ⟨[], rfl, (List.append_nil _).symm, (List.append_nil _).symm⟩
    · rintro ⟨rows, hrows, rfl, hsizes⟩
      obtain rfl := List.map_eq_nil_iff.mp hrows.symm
      rw [sizesOf, List.map_nil, List.append_nil] at hsizes
      cases sizes
      cases sizes'
      subst hsizes
      exact congrArg Except.ok (Prod.ext (List.append_nil _).symm rfl)
  | cons line lines ih =>
    simp only [indexLines, bind_eq_ok, entry_eq_ok]
    constructor
    · rintro ⟨row, hrow, h⟩
      split_ifs at h with hnew
      obtain ⟨rows, hrows, rfl, hsizes⟩ := ih.mp h
      have hset : (sizes.set row.cid row.size).entries = sizes.entries ++ [(row.cid, row.size)] :=
        setEntry_new fun hmem => hnew (JsMap.has_iff.mpr hmem)
      refine ⟨row :: rows, ?_, ?_, ?_⟩
      · rw [List.map_cons, List.map_cons, hrow, hrows]
      · rw [List.map_cons, startsFrom, List.append_assoc, List.singleton_append]
      · rw [hsizes, hset, sizesOf, sizesOf, List.map_cons, List.append_assoc, List.singleton_append]
    · rintro ⟨rows, hrows, rfl, hsizes⟩
      cases rows with
      | nil => cases hrows
      | cons row rows =>
        obtain ⟨hrow, hrows⟩ := List.cons.inj hrows
        have hnot : row.cid ∉ sizes.entries.map Prod.fst := by
          have hnodup := sizes'.nodup
          rw [hsizes, List.map_append, List.nodup_append] at hnodup
          exact fun hmem => hnodup.2.2 _ hmem _ List.mem_cons_self rfl
        refine ⟨row, hrow, ?_⟩
        rw [if_neg fun h => hnot (JsMap.has_iff.mp h)]
        refine ih.mpr ⟨rows, hrows, ?_, ?_⟩
        · rw [List.map_cons, startsFrom, List.append_assoc, List.singleton_append]
        · have hset : (sizes.set row.cid row.size).entries = sizes.entries ++ [(row.cid, row.size)] := setEntry_new hnot
          rw [hsizes, hset, sizesOf, sizesOf, List.map_cons, List.append_assoc, List.singleton_append]

/-- What an opened inventory knows of its file. -/
structure Indexed (language : Language) (disk : Disk) (index : Index) (rows : List Row) : Prop where
  lines : (fileLines (disk index.path).content).map (lineRow language) = rows.map some
  offsets : index.offsets = startsFrom 0 ((fileLines (disk index.path).content).map List.length)
  sizes : index.sizes.entries = sizesOf rows
  identity : (disk index.path).identity = index.identity

/-- **An inventory is opened** where its lines are rows with distinct CIDs, and digest and count are those declared. -/
theorem openIndex_eq_ok : openIndex nc language disk path sha256 count = .ok index ↔
    ∃ rows, Indexed language disk index rows ∧ index.path = path ∧ index.sha256 = sha256 ∧
      hexdigest (nc.sha256 (disk path).content) = sha256 ∧ rows.length = count := by
  simp only [openIndex, bind_eq_ok, Prod.exists, indexLines_eq_ok, require_eq_ok]
  constructor
  · rintro ⟨offsets, sizes, ⟨rows, hrows, rfl, hsizes⟩, _, ⟨hsha, hcount⟩, h⟩
    obtain rfl := Except.ok.inj h
    refine ⟨rows, ⟨hrows, rfl, hsizes, rfl⟩, rfl, rfl, hsha, ?_⟩
    rw [← hcount, List.nil_append, length_startsFrom, List.length_map]
    have := congrArg List.length hrows
    rw [List.length_map, List.length_map] at this
    exact this.symm
  · rintro ⟨rows, ⟨hlines, hoffsets, hsizes, hidentity⟩, rfl, rfl, hsha, hcount⟩
    refine ⟨index.offsets, index.sizes, ⟨rows, hlines, hoffsets, hsizes⟩, (), ⟨hsha, ?_⟩, ?_⟩
    · have := congrArg List.length hlines
      rw [List.length_map, List.length_map] at this
      rw [hoffsets, length_startsFrom, List.length_map, this, hcount]
    · cases index
      exact congrArg (fun identity => Except.ok (Index.mk _ _ _ _ identity)) hidentity

theorem Indexed.length_lines (h : Indexed language disk index rows) :
    (fileLines (disk index.path).content).length = rows.length := by
  have := congrArg List.length h.lines
  rwa [List.length_map, List.length_map] at this

theorem Indexed.count_eq (h : Indexed language disk index rows) : index.count = rows.length := by
  rw [Index.count, h.offsets, length_startsFrom, List.length_map, h.length_lines]

/-- Where a row starts in the file. -/
theorem Indexed.getD_offsets (h : Indexed language disk index rows) (hoffset : offset < rows.length) :
    index.offsets.getD offset 0 = linesLength ((fileLines (disk index.path).content).take offset) := by
  have hlt : offset < ((fileLines (disk index.path).content).map List.length).length := by
    rwa [List.length_map, h.length_lines]
  rw [List.getD_eq_getElem?_getD, h.offsets, getElem?_startsFrom hlt, Option.getD_some, Nat.zero_add, ← List.map_take,
    linesLength]

/-! ## Rows of a page -/

theorem map_eq_map_some {α β : Type} {f : α → Option β} {xs : List α} {ys : List β} :
    xs.map f = ys.map some ↔ List.Forall₂ (fun x y => f x = some y) xs ys := by
  rw [← List.forall₂_eq_eq_eq, List.forall₂_map_left_iff, List.forall₂_map_right_iff]

/-- A row as a page shows it. -/
def Row.block (row : Row) : Block := ⟨.str row.cid, .num (.int row.size)⟩

theorem block_of_row (h : rowIn v = some row) : (⟨v.get (js "cid"), v.get (js "bytes")⟩ : Block) = row.block := by
  obtain ⟨hcid, hbytes, -⟩ := rowIn_eq_some.mp h
  rw [hcid, hbytes, Row.block]

/-- **Reading on from a line** in Python. -/
theorem pyBlocks_eq (h : ((fileLines bs).take rows.length).map loadsRow = rows.map some) :
    pyBlocks rows.length bs = .ok (rows.map Row.block) := by
  induction rows generalizing bs with
  | nil => rfl
  | cons row rows ih =>
    cases hlines : fileLines bs with
    | nil =>
      rw [hlines] at h
      cases h
    | cons l ls =>
      obtain ⟨rest, hread, rfl⟩ := readline_eq hlines
      rw [hlines, List.length_cons, List.take_succ_cons, List.map_cons, List.map_cons] at h
      obtain ⟨hrow, hrows⟩ := List.cons.inj h
      obtain ⟨v, hv, hrow⟩ := Option.bind_eq_some_iff.mp hrow
      rw [List.length_cons, pyBlocks, hread]
      dsimp only
      rw [hv]
      dsimp only
      rw [if_pos (contains_of_row hrow), ih hrows, block_of_row hrow]
      rfl

theorem kotobaBlock_eq (h : kotobaRow line = some row) : kotobaBlock (ofUtf8 line) = .ok row.block := by
  obtain ⟨v, hv, hrow⟩ := Option.bind_eq_some_iff.mp h
  obtain ⟨e, kvs, rfl⟩ := obj_of_rowIn hrow
  rw [kotobaBlock, hv]
  exact congrArg Except.ok (block_of_row hrow)

/-- The lines of a slice of rows, without their newlines. -/
theorem inkedLines_rows (h : (fileLines bs).map kotobaRow = rows.map some) :
    ∃ lines, inkedLines (ofUtf8 bs) = lines.map ofUtf8 ∧ List.Forall₂ (fun line row => kotobaRow line = some row) lines rows := by
  have hrow : ∀ line ∈ fileLines bs, ∃ row, kotobaRow line = some row := by
    intro line hline
    have hmem : kotobaRow line ∈ rows.map some := h ▸ List.mem_map_of_mem hline
    obtain ⟨row, -, hrow⟩ := List.mem_map.mp hmem
    exact ⟨row, hrow.symm⟩
  have hinked : ∀ line ∈ fileLines bs, isBlank (ofUtf8 (body line)) = false := by
    intro line hline
    obtain ⟨row, hrow⟩ := hrow line hline
    exact isBlank_of_row (kotobaRow_body hline hrow)
  refine ⟨(fileLines bs).map body, ?_, ?_⟩
  · rw [inkedLines_fileLines hinked, List.map_map]
    rfl
  · rw [List.forall₂_map_left_iff, ← map_eq_map_some, ← h]
    refine List.map_congr_left fun line hline => ?_
    obtain ⟨row, hrow⟩ := hrow line hline
    rw [hrow, kotobaRow_body hline hrow]

/-- **Reading a slice** in Kotoba. -/
theorem kotobaBlocks_eq (h : (fileLines bs).map kotobaRow = rows.map some) :
    (inkedLines (ofUtf8 bs)).mapM kotobaBlock = .ok (rows.map Row.block) := by
  obtain ⟨lines, hlines, hrows⟩ := inkedLines_rows h
  rw [hlines, mapM_eq_ok, List.forall₂_map_left_iff, List.forall₂_map_right_iff]
  exact hrows.imp fun line row hrow => kotobaBlock_eq hrow

theorem checkRows_eq_ok (h : Indexed language disk index rows) (hoffset : offset < rows.length)
    (hlimit : 1 ≤ limit ∧ limit ≤ 1000) : index.checkRows disk offset limit = .ok () := by
  have hcount : offset < index.count := by rwa [h.count_eq]
  simp only [Index.checkRows, bind_eq_ok, require_eq_ok]
  exact ⟨(), h.identity, (), hcount, hlimit⟩

/-- The lines of a page are its rows. -/
theorem Indexed.page_lines (h : Indexed language disk index rows) (offset n : Nat) :
    (((fileLines (disk index.path).content).drop offset).take n).map (lineRow language) =
      ((rows.drop offset).take n).map some := by
  rw [List.map_take, List.map_drop, h.lines, List.map_take, List.map_drop]

theorem linesLength_append {ls ls' : List Bytes} : linesLength (ls ++ ls') = linesLength ls + linesLength ls' := by
  rw [linesLength, List.map_append, List.sum_append, linesLength, linesLength]

theorem linesLength_fileLines (bs : Bytes) : linesLength (fileLines bs) = bs.length := by
  rw [linesLength, ← List.length_flatten, flatten_fileLines]

/-- **What `rows` returns**: the rows from the offset on, as many as were asked for. -/
theorem rows_of_indexed (h : Indexed language disk index rows) (hoffset : offset < rows.length)
    (hlimit : 1 ≤ limit ∧ limit ≤ 1000) : index.rows disk language offset limit =
      .ok (((rows.drop offset).take limit).map Row.block, min (offset + limit) rows.length) := by
  have hcheck := checkRows_eq_ok h hoffset hlimit
  have htake : (rows.drop offset).take (min (offset + limit) rows.length - offset) = (rows.drop offset).take limit := by
    rcases Nat.le_total (offset + limit) rows.length with hle | hle
    · rw [Nat.min_eq_left hle, Nat.add_sub_cancel_left]
    · rw [Nat.min_eq_right hle, List.take_of_length_le (by rw [List.length_drop]),
        List.take_of_length_le (by rw [List.length_drop]; omega)]
  have hlen : ((rows.drop offset).take limit).length = min (offset + limit) rows.length - offset := by
    rw [← htake, List.length_take, List.length_drop]
    omega
  have hlines := h.page_lines offset (min (offset + limit) rows.length - offset)
  rw [htake] at hlines
  cases language with
  | python =>
    rw [← fileLines_drop, ← hlen] at hlines
    simp only [Index.rows, Index.pyRows, h.count_eq, bind_eq_ok]
    refine ⟨(), hcheck, _, ?_, rfl⟩
    rw [h.getD_offsets hoffset, ← hlen]
    exact pyBlocks_eq hlines
  | kotoba =>
    have hstop : (if min (offset + limit) rows.length < rows.length then index.offsets.getD (min (offset + limit) rows.length) 0
        else (disk index.path).content.length) =
          linesLength ((fileLines (disk index.path).content).take (min (offset + limit) rows.length)) := by
      by_cases hlast : min (offset + limit) rows.length < rows.length
      · rw [if_pos hlast, h.getD_offsets hlast]
      · rw [if_neg hlast, List.take_of_length_le (by rw [h.length_lines]; omega), linesLength_fileLines]
    simp only [Index.rows, Index.kotobaRows, h.count_eq, bind_eq_ok]
    refine ⟨(), hcheck, _, ?_, rfl⟩
    rw [hstop, h.getD_offsets hoffset]
    have hsplit : (fileLines (disk index.path).content).take (min (offset + limit) rows.length) =
        (fileLines (disk index.path).content).take offset ++
          ((fileLines (disk index.path).content).drop offset).take (min (offset + limit) rows.length - offset) := by
      rw [← List.take_add, Nat.add_sub_cancel' (by omega)]
    rw [hsplit, linesLength_append, Nat.add_sub_cancel_left]
    rw [← fileLines_drop, ← fileLines_take] at hlines
    rw [← fileLines_drop]
    exact kotobaBlocks_eq hlines

end Lake
