import Yataverse.Lake.SameRow

/-!
# Lines of a file by their offsets

`Inventory.rows` seeks a line and reads on; `rows` of `lake_inventory.cljk` cuts out a slice and splits it.

- `body`: a line without its newline.
- `fileLines_cases`, `fileLines_take`, `fileLines_drop`: the lines of a part of a file.
- `readline`: what a call reads.
- **`inkedLines_fileLines`**: the lines of a slice, where none of them is blank.
-/

namespace Lake

open Js Json

variable {bs rest l : Bytes} {ls : List Bytes} {row : Row}

/-- A line without its newline. -/
def body (line : Bytes) : Bytes := line.takeWhile (· ≠ 10)

theorem body_ended {x : Bytes} (h : 10 ∉ x) : body (x ++ [10]) = x := by
  have hall : ∀ b ∈ x, decide (b ≠ 10) = true := fun b hb => decide_eq_true fun heq => h (heq ▸ hb)
  rw [body, List.takeWhile_append_of_pos hall]
  exact List.append_nil x

theorem body_open (h : 10 ∉ l) : body l = l :=
  List.takeWhile_eq_self_iff.mpr fun _ hb => decide_eq_true fun heq => h (heq ▸ hb)

/-! ## The first line -/

theorem fileLines_open (hne : bs ≠ []) (h : 10 ∉ bs) : fileLines bs = [bs] := by
  induction bs with
  | nil => exact absurd rfl hne
  | cons b bs ih =>
    rw [List.mem_cons, not_or] at h
    rw [fileLines, if_neg (Ne.symm h.1)]
    cases bs with
    | nil => rfl
    | cons c bs => rw [ih (List.cons_ne_nil _ _) h.2]

/-- The first line ends with the first newline, or is all there is. -/
theorem fileLines_cases (h : fileLines bs = l :: ls) :
    (∃ x rest, 10 ∉ x ∧ l = x ++ [10] ∧ bs = x ++ 10 :: rest ∧ fileLines rest = ls) ∨ 10 ∉ bs ∧ l = bs ∧ ls = [] := by
  by_cases hmem : 10 ∈ bs
  · obtain ⟨x, rest, rfl, hx⟩ := List.eq_append_cons_of_mem hmem
    rw [fileLines_append hx] at h
    obtain ⟨rfl, rfl⟩ := List.cons.inj h
    exact .inl ⟨x, rest, hx, rfl, rfl, rfl⟩
  · right
    have hne : bs ≠ [] := by
      rintro rfl
      cases h
    rw [fileLines_open hne hmem] at h
    obtain ⟨rfl, rfl⟩ := List.cons.inj h
    exact ⟨hmem, rfl, rfl⟩

/-- Behind the first line there are the others. -/
theorem fileLines_cons (h : fileLines bs = l :: ls) : ∃ rest, bs = l ++ rest ∧ fileLines rest = ls := by
  rcases fileLines_cases h with ⟨x, rest, -, rfl, rfl, hrest⟩ | ⟨-, rfl, rfl⟩
  · exact ⟨rest, by rw [List.append_assoc, List.singleton_append], hrest⟩
  · exact ⟨[], (List.append_nil _).symm, rfl⟩

theorem fileLines_eq_nil (h : fileLines bs = []) : bs = [] := by
  cases bs with
  | nil => rfl
  | cons b bs =>
    rw [fileLines] at h
    split_ifs at h
    split at h <;> cases h

/-! ## Parts of a file -/

/-- The bytes of the first lines. -/
def linesLength (ls : List Bytes) : Nat := (ls.map List.length).sum

theorem linesLength_cons : linesLength (l :: ls) = l.length + linesLength ls := by
  rw [linesLength, List.map_cons, List.sum_cons, linesLength]

/-- The lines from some line on. -/
theorem fileLines_drop (n : Nat) : fileLines (bs.drop (linesLength ((fileLines bs).take n))) = (fileLines bs).drop n := by
  induction n generalizing bs with
  | zero => rfl
  | succ n ih =>
    cases h : fileLines bs with
    | nil =>
      rw [fileLines_eq_nil h]
      rfl
    | cons l ls =>
      obtain ⟨rest, rfl, rfl⟩ := fileLines_cons h
      rw [List.take_succ_cons, linesLength_cons, ← List.drop_drop, List.drop_left, ih, List.drop_succ_cons]

/-- The lines of the first lines. -/
theorem fileLines_take (n : Nat) : fileLines (bs.take (linesLength ((fileLines bs).take n))) = (fileLines bs).take n := by
  induction n generalizing bs with
  | zero => rfl
  | succ n ih =>
    cases h : fileLines bs with
    | nil =>
      rw [fileLines_eq_nil h]
      rfl
    | cons l ls =>
      rw [List.take_succ_cons, linesLength_cons]
      rcases fileLines_cases h with ⟨x, rest, hx, rfl, rfl, rfl⟩ | ⟨hmem, rfl, rfl⟩
      · have hsplit : x ++ 10 :: rest = (x ++ [10]) ++ rest := by rw [List.append_assoc, List.singleton_append]
        rw [hsplit, List.take_length_add_append, List.append_assoc, List.singleton_append, fileLines_append hx, ih]
      · rw [List.take_nil]
        exact (congrArg fileLines (List.take_of_length_le (Nat.le_add_right _ _))).trans h

theorem flatten_fileLines (bs : Bytes) : (fileLines bs).flatten = bs := by
  induction hn : (fileLines bs).length generalizing bs with
  | zero =>
    rw [List.length_eq_zero_iff] at hn
    rw [hn, fileLines_eq_nil hn]
    rfl
  | succ n ih =>
    cases h : fileLines bs with
    | nil =>
      rw [h] at hn
      cases hn
    | cons l ls =>
      obtain ⟨rest, rfl, rfl⟩ := fileLines_cons h
      rw [h] at hn
      rw [List.flatten_cons, ih rest (Nat.succ.inj hn)]

/-! ## `readline` -/

/-- What `readline()` returns, and what is behind it. -/
def readline (source : Bytes) : Bytes × Bytes :=
  let (line, rest) := source.span (· ≠ 10)
  match rest with
  | [] => (line, [])
  | newline :: rest => (line ++ [newline], rest)

theorem readline_eq (h : fileLines bs = l :: ls) : ∃ rest, readline bs = (l, rest) ∧ fileLines rest = ls := by
  have hpos {x : Bytes} (hx : 10 ∉ x) : ∀ b ∈ x, decide (b ≠ 10) = true :=
    fun b hb => decide_eq_true fun heq => hx (heq ▸ hb)
  unfold readline
  rw [List.span_eq_takeWhile_dropWhile]
  rcases fileLines_cases h with ⟨x, rest, hx, rfl, rfl, hrest⟩ | ⟨hmem, rfl, rfl⟩
  · rw [List.takeWhile_append_of_pos (hpos hx), List.dropWhile_append_of_pos (hpos hx),
      List.takeWhile_cons_of_neg (by decide), List.dropWhile_cons_of_neg (by decide), List.append_nil]
    exact ⟨rest, rfl, hrest⟩
  · rw [List.takeWhile_eq_self_iff.mpr (hpos hmem), List.dropWhile_eq_nil_iff.mpr (hpos hmem)]
    exact ⟨[], rfl, rfl⟩

/-! ## Slices -/

/-- What stands between newlines: the lines, and nothing behind the last newline. -/
theorem splitOn_fileLines (bs : Bytes) :
    ∃ tail, bs.splitOn 10 = (fileLines bs).map body ++ tail ∧ ∀ line ∈ tail, line = [] := by
  induction hn : (fileLines bs).length generalizing bs with
  | zero =>
    rw [List.length_eq_zero_iff] at hn
    obtain rfl := fileLines_eq_nil hn
    exact ⟨[[]], rfl, fun line hline => List.mem_singleton.mp hline⟩
  | succ n ih =>
    cases h : fileLines bs with
    | nil =>
      rw [h] at hn
      cases hn
    | cons l ls =>
      rw [h] at hn
      rcases fileLines_cases h with ⟨x, rest, hx, rfl, rfl, rfl⟩ | ⟨hmem, rfl, rfl⟩
      · obtain ⟨tail, htail, hnil⟩ := ih rest (Nat.succ.inj hn)
        refine ⟨tail, ?_, hnil⟩
        rw [List.splitOn_append_cons_self, List.splitOn_eq_singleton hx, htail, List.map_cons, body_ended hx]
        rfl
      · refine ⟨[], ?_, fun line hline => absurd hline List.not_mem_nil⟩
        rw [List.splitOn_eq_singleton hmem, List.map_singleton, body_open hmem, List.append_nil]

/-- **The lines of a slice**, where none of them is blank. -/
theorem inkedLines_fileLines (h : ∀ line ∈ fileLines bs, isBlank (ofUtf8 (body line)) = false) :
    inkedLines (ofUtf8 bs) = (fileLines bs).map fun line => ofUtf8 (body line) := by
  obtain ⟨tail, htail, hnil⟩ := splitOn_fileLines bs
  have hblank : (tail.map ofUtf8).filter (fun line => !isBlank line) = [] := by
    rw [List.filter_eq_nil_iff]
    intro line hline
    obtain ⟨bs', hbs, rfl⟩ := List.mem_map.mp hline
    rw [hnil bs' hbs]
    decide
  rw [inkedLines, splitNewline, splitOn_ofUtf8, htail, List.map_append, List.filter_append, hblank, List.append_nil,
    List.map_map, List.filter_eq_self.mpr]
  · rfl
  · intro line hline
    obtain ⟨l, hl, rfl⟩ := List.mem_map.mp hline
    rw [Function.comp_apply, h l hl]
    rfl

theorem mem_fileLines (hl : l ∈ fileLines bs) : (∃ x, 10 ∉ x ∧ l = x ++ [10]) ∨ 10 ∉ l := by
  induction hn : (fileLines bs).length generalizing bs with
  | zero =>
    rw [List.length_eq_zero_iff] at hn
    rw [hn] at hl
    cases hl
  | succ n ih =>
    cases h : fileLines bs with
    | nil =>
      rw [h] at hl
      cases hl
    | cons l' ls =>
      rw [h] at hl hn
      rcases fileLines_cases h with ⟨x, rest, hx, rfl, rfl, rfl⟩ | ⟨hmem, rfl, rfl⟩
      · rcases List.mem_cons.mp hl with rfl | hl
        · exact .inl ⟨x, hx, rfl⟩
        · exact ih hl (Nat.succ.inj hn)
      · obtain rfl := List.mem_singleton.mp hl
        exact .inr hmem

/-- A row is not blank. -/
theorem isBlank_of_row (h : kotobaRow l = some row) : isBlank (ofUtf8 l) = false := by
  obtain ⟨v, hv, hrow⟩ := Option.bind_eq_some_iff.mp h
  obtain ⟨e, kvs, rfl⟩ := obj_of_rowIn hrow
  obtain ⟨t, q, ht, -⟩ := starts_of_parse hv
  have hmem : unit '{' ∈ ofUtf8 l := (List.dropWhile_suffix isSpace).subset (ht ▸ List.mem_cons_self)
  exact List.all_eq_false.mpr ⟨_, hmem, by decide⟩

/-- **Without its newline**, the line of a row is the same row. -/
theorem kotobaRow_body (hl : l ∈ fileLines bs) (h : kotobaRow l = some row) : kotobaRow (body l) = some row := by
  rcases mem_fileLines hl with ⟨x, hx, rfl⟩ | hmem
  · rw [body_ended hx]
    exact kotobaRow_trim h
  · rwa [body_open hmem]

end Lake
