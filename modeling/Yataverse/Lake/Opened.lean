import Yataverse.Js.Decode
import Yataverse.Js.Held
import Yataverse.Lake.Inventory
import Yataverse.Lake.RowText
import Yataverse.Lake.Cid

/-!
# Opening an inventory

`Inventory` of `serve_lake.py` and `open-inventory` of `lake_inventory.cljk` read a file line by line. They take the
same CIDs; the languages differ in what text and what number a line holds.

- `fileLines`: the lines of a file, each with its newline.
- `pyRow`, `kotobaRow`: one line.
- `pyInventory`, `openInventory`: the two readers.
- `ofSnapshot_eq_ok`: what they accept.
- **`opens_iff`**: a file of rows is opened exactly when all CIDs have 46 to 100 characters and, in Python, all sizes
  were printed as decimal digits.
-/

namespace Lake

open Js Json GraphHead Fallible

/-! ## Lines -/

/-- `readline()`, and the slices of `open-inventory`. -/
def fileLines : Bytes → List Bytes
  | [] => []
  | b :: bs =>
    if b = 10 then [b] :: fileLines bs
    else
      match fileLines bs with
      | [] => [[b]]
      | line :: lines => (b :: line) :: lines

/-- `[a-zA-Z0-9]` -/
def isAlnum (u : UInt16) : Bool := inRange 'a' 'z' u || inRange 'A' 'Z' u || inRange '0' '9' u

/-- `CID` of `serve_lake.py`, `cid-re` of `lake_inventory.cljk`: `[a-zA-Z0-9]{46,100}`. -/
def readerRe (cid : JsString) : Bool := cid.all isAlnum && 46 ≤ cid.length && cid.length ≤ 100

/-- The row in a value. -/
def rowIn (v : Json) : Option Row :=
  match v.get (js "cid"), v.get (js "bytes") with
  | .str cid, .num (.int size) => if readerRe cid = true ∧ 0 < size then some ⟨cid, size.toNat⟩ else none
  | _, _ => none

/-- Bytes as `json.loads` decodes them: UTF-8, behind a byte order mark if there is one. -/
def pyText (line : Bytes) : Option JsString :=
  let body := if [0xef, 0xbb, 0xbf].isPrefixOf line then line.drop 3 else line
  if utf8 (ofUtf8 body) = body then some (ofUtf8 body) else none

/-- A line in `serve_lake.py`. -/
def pyRow (line : Bytes) : Option Row := ((pyText line).bind loads).bind rowIn

/-- A line in `lake_inventory.cljk`. -/
def kotobaRow (line : Bytes) : Option Row := (Json.parse (ofUtf8 line)).bind rowIn

section

variable (nc : NodeCrypto)

/-- What a reader of lines has of a file. -/
def snapshot (read : Bytes → Option Row) (file : Bytes) : Snapshot :=
  ⟨hexdigest (nc.sha256 file), (fileLines file).map read⟩

/-- `Inventory(path, expected_sha256, expected_count)` -/
def pyInventory (file : Bytes) (expectedSha256 : JsString) (expectedCount : Nat) : Except String Inventory :=
  Inventory.ofSnapshot (snapshot nc pyRow file) expectedSha256 expectedCount

/-- `open-inventory` -/
def openInventory (file : Bytes) (expectedSha256 : JsString) (expectedCount : Nat) : Except String Inventory :=
  Inventory.ofSnapshot (snapshot nc kotobaRow file) expectedSha256 expectedCount

end

variable {nc : NodeCrypto} {read : Bytes → Option Row} {file line rest : Bytes} {lines : List (Option Row)}
  {rows : List Row} {row : Row} {inventory : Inventory} {sha256 : JsString} {count : Nat}

/-! ## What is accepted -/

theorem readLines_eq_ok {before after : Distinct} :
    Inventory.readLines lines before = .ok after ↔ ∃ more, lines = more.map some ∧ after.1 = before.1 ++ more := by
  induction lines generalizing before with
  | nil =>
    constructor
    · intro h
      obtain rfl := Except.ok.inj h
      exact ⟨[], rfl, (List.append_nil _).symm⟩
    · rintro ⟨more, hmore, hafter⟩
      obtain rfl := List.map_eq_nil_iff.mp hmore.symm
      rw [List.append_nil] at hafter
      exact congrArg Except.ok (Subtype.ext hafter.symm)
  | cons line lines ih =>
    cases line with
    | none =>
      constructor
      · intro h
        cases h
      · rintro ⟨more, hmore, -⟩
        cases more with
        | nil => cases hmore
        | cons row more => cases (List.cons.inj hmore).1
    | some row =>
      rw [Inventory.readLines]
      by_cases hnew : row.cid ∈ before.1.map Row.cid
      · rw [dif_pos hnew]
        constructor
        · intro h
          cases h
        · rintro ⟨more, hmore, hafter⟩
          cases more with
          | nil => cases hmore
          | cons row' more =>
            obtain rfl := Option.some.inj (List.cons.inj hmore).1
            have hnodup := after.2
            rw [hafter, List.map_append, List.nodup_append] at hnodup
            exact absurd rfl (hnodup.2.2 _ hnew _ List.mem_cons_self)
      · rw [dif_neg hnew, ih]
        constructor
        · rintro ⟨more, rfl, hafter⟩
          exact ⟨row :: more, rfl, by rw [hafter, List.append_assoc, List.singleton_append]⟩
        · rintro ⟨more, hmore, hafter⟩
          cases more with
          | nil => cases hmore
          | cons row' more =>
            obtain ⟨hrow, hlines⟩ := List.cons.inj hmore
            obtain rfl := Option.some.inj hrow
            exact ⟨more, hlines, by rw [hafter, List.append_assoc, List.singleton_append]⟩

/-- **What is accepted**: the lines are the rows, the digest and the count are those that were declared. -/
theorem ofSnapshot_eq_ok {snapshot : Snapshot} : Inventory.ofSnapshot snapshot sha256 count = .ok inventory ↔
    snapshot.lines = inventory.entries.map some ∧ snapshot.sha256 = sha256 ∧ inventory.entries.length = count ∧
      inventory.sha256 = sha256 := by
  simp only [Inventory.ofSnapshot, bind_eq_ok, require_eq_ok]
  constructor
  · rintro ⟨rows, hrows, _, ⟨hsha, hcount⟩, hinventory⟩
    obtain ⟨more, hlines, hmore⟩ := readLines_eq_ok.mp hrows
    obtain rfl := Except.ok.inj hinventory
    rw [List.nil_append] at hmore
    exact ⟨hmore ▸ hlines, hsha, hcount, rfl⟩
  · rintro ⟨hlines, hsha, hcount, hinventory⟩
    refine ⟨⟨inventory.entries, inventory.nodup⟩, readLines_eq_ok.mpr ⟨_, hlines, rfl⟩, (), ⟨hsha, hcount⟩, ?_⟩
    obtain ⟨sha, entries, hnodup⟩ := inventory
    obtain rfl := hinventory
    rfl

/-! ## The lines of rows -/

theorem isAlnum_range {u : UInt16} (h : isAlnum u = true) : quoteUnit u = [u] ∧ isHigh u = false ∧ 0x20 ≤ u ∧ u ≤ 0x7e := by
  have hall : ∀ n < 128, isAlnum (UInt16.ofNat n) = true → quoteUnit (UInt16.ofNat n) = [UInt16.ofNat n] ∧
      isHigh (UInt16.ofNat n) = false ∧ 0x20 ≤ UInt16.ofNat n ∧ UInt16.ofNat n ≤ 0x7e := by decide +kernel
  have hlt : u.toNat < 128 := by
    simp only [isAlnum, inRange, Bool.or_eq_true, Bool.and_eq_true, decide_eq_true_eq, UInt16.le_iff_toNat_le] at h
    have h₁ : (unit 'z').toNat = 122 := by decide
    have h₂ : (unit 'Z').toNat = 90 := by decide
    have h₃ : (unit '9').toNat = 57 := by decide
    omega
  have hback : UInt16.ofNat u.toNat = u := UInt16.ofNat_toNat
  have := hall u.toNat hlt
  rw [hback] at this
  exact this h

/-- A CID that is written as it is. -/
def Plain (cid : JsString) : Prop := ∀ u ∈ cid, isAlnum u = true

variable {cid : JsString}

theorem quoteUnits_plain (h : Plain cid) : quoteUnits cid = cid := by
  induction cid with
  | nil => rfl
  | cons u cid ih =>
    obtain ⟨hu, hcid⟩ := List.forall_mem_cons.mp h
    obtain ⟨hquote, hhigh, -⟩ := isAlnum_range hu
    cases cid with
    | nil => exact hquote
    | cons v cid =>
      rw [quoteUnits, hhigh, Bool.false_and, if_neg Bool.false_ne_true, hquote, ih hcid]
      rfl

theorem stringify_plain (h : Plain cid) : stringify cid = unit '"' :: cid ++ [unit '"'] := by
  rw [stringify, quoteUnits_plain h]

/-- The line of a row. -/
def lineOf (row : Row) : JsString := rowText row.cid (.int row.size) ++ [10]

theorem printable_rowText (h : Plain cid) (x : Number) : Printable (rowText cid x) := by
  have hkey : Printable (js "\x7b\"cid\":") := by decide
  have hbytes : Printable (js ",\"bytes\":") := by decide
  have hend : Printable (js "\x7d") := by decide
  have hquote : Printable [unit '"'] := by decide
  have hcid : Printable cid := fun u hu => (isAlnum_range (h u hu)).2.2
  rw [rowText, stringify_plain h]
  exact ((((hkey.append ((Printable.cons (by decide) hcid).append hquote)).append hbytes).append
    (printable_numStr x)).append hend)

theorem ascii_lineOf (h : Plain row.cid) : Ascii (lineOf row) := by
  have h := (printable_rowText h (.int row.size)).ascii
  exact List.forall_mem_append.mpr ⟨h, List.forall_mem_singleton.mpr (by decide)⟩

/-- ASCII is one byte a unit. -/
theorem utf8_ascii {s : JsString} (h : Ascii s) : utf8 s = s.map fun u => byte u.toNat := by
  rw [utf8, points_ascii h, List.flatMap_map]
  induction s with
  | nil => rfl
  | cons u s ih =>
    obtain ⟨hu, hs⟩ := List.forall_mem_cons.mp h
    have hlt : u.toNat < 0x80 := by simpa [UInt16.lt_iff_toNat_lt] using hu
    rw [List.flatMap_cons, utf8Point, if_pos hlt, ih hs]
    rfl

theorem fileLines_append (h : 10 ∉ line) : fileLines (line ++ 10 :: rest) = (line ++ [10]) :: fileLines rest := by
  induction line with
  | nil => rw [List.nil_append, fileLines, if_pos rfl, List.nil_append]
  | cons b line ih =>
    rw [List.mem_cons, not_or] at h
    rw [List.cons_append, fileLines, if_neg (Ne.symm h.1), ih h.2, List.cons_append]

theorem utf8_lineOf (h : Plain row.cid) :
    ∃ line, utf8 (lineOf row) = line ++ [10] ∧ (10 : UInt8) ∉ line := by
  have hprintable := printable_rowText h (.int row.size)
  refine ⟨(rowText row.cid (.int row.size)).map fun u => byte u.toNat, ?_, ?_⟩
  · rw [utf8_ascii (ascii_lineOf h), lineOf, List.map_append]
    rfl
  · intro hmem
    obtain ⟨u, hu, hten⟩ := List.mem_map.mp hmem
    obtain ⟨hlow, hhigh⟩ := hprintable u hu
    have hlow : 0x20 ≤ u.toNat := hlow
    have hhigh : u.toNat ≤ 0x7e := hhigh
    have := congrArg UInt8.toNat hten
    rw [byte, UInt8.toNat_ofNat', Nat.mod_eq_of_lt (by omega)] at this
    have hten : (10 : UInt8).toNat = 10 := rfl
    omega

theorem utf8_append_ascii {s t : JsString} (hs : Ascii s) (ht : Ascii t) : utf8 (s ++ t) = utf8 s ++ utf8 t := by
  rw [utf8_ascii hs, utf8_ascii ht, utf8_ascii (List.forall_mem_append.mpr ⟨hs, ht⟩), List.map_append]

theorem ascii_flatMap (h : ∀ row ∈ rows, Plain row.cid) : Ascii (rows.flatMap lineOf) := by
  intro u hu
  obtain ⟨row, hrow, hu⟩ := List.mem_flatMap.mp hu
  exact ascii_lineOf (h row hrow) u hu

/-- **The lines of a file of rows.** -/
theorem fileLines_rows (h : ∀ row ∈ rows, Plain row.cid) :
    fileLines (utf8 (rows.flatMap lineOf)) = rows.map fun row => utf8 (lineOf row) := by
  induction rows with
  | nil => rfl
  | cons row rows ih =>
    obtain ⟨hrow, hrows⟩ := List.forall_mem_cons.mp h
    obtain ⟨line, hline, hten⟩ := utf8_lineOf hrow
    rw [List.flatMap_cons, utf8_append_ascii (ascii_lineOf hrow) (ascii_flatMap hrows), List.map_cons, hline,
      List.append_assoc, List.singleton_append, fileLines_append hten, ih hrows]

/-! ## One line -/

theorem readerRe_plain (h : Plain cid) : readerRe cid = true ↔ 46 ≤ cid.length ∧ cid.length ≤ 100 := by
  rw [readerRe, List.all_eq_true.mpr h, Bool.true_and, Bool.and_eq_true, decide_eq_true_iff, decide_eq_true_iff]

theorem rowIn_rowJson (h : Plain cid) (size : Int) : rowIn (rowJson cid (.int size)) =
    if (46 ≤ cid.length ∧ cid.length ≤ 100) ∧ 0 < size then some ⟨cid, size.toNat⟩ else none :=
  if_congr (and_congr_left' (readerRe_plain h)) rfl rfl

/-- **A line for Kotoba**: the length of the CID decides. -/
theorem kotobaRow_lineOf (h : Plain row.cid) (hheld : (Number.int row.size).Held) (hsize : 1 ≤ row.size) :
    kotobaRow (utf8 (lineOf row)) = if 46 ≤ row.cid.length ∧ row.cid.length ≤ 100 then some row else none := by
  have hpos : (0 : Int) < row.size := by omega
  rw [kotobaRow, ofUtf8_utf8 (ascii_lineOf h), lineOf, parse_rowText hheld rfl (by decide), Option.bind_some,
    rowIn_rowJson h]
  by_cases hlen : 46 ≤ row.cid.length ∧ row.cid.length ≤ 100
  · rw [if_pos ⟨hlen, hpos⟩, if_pos hlen, Int.toNat_natCast]
  · rw [if_neg fun h => hlen h.1, if_neg hlen]

theorem pyText_lineOf (h : Plain row.cid) : pyText (utf8 (lineOf row)) = some (lineOf row) := by
  have hmark : ¬ [0xef, 0xbb, 0xbf].isPrefixOf (utf8 (lineOf row)) = true := by
    rw [utf8_ascii (ascii_lineOf h), lineOf, rowText_append, List.map_cons]
    intro hpre
    obtain ⟨t, ht⟩ := List.isPrefixOf_iff_prefix.mp hpre
    exact absurd (List.cons.inj ht).1 (by decide)
  unfold pyText
  dsimp only
  rw [if_neg hmark, ofUtf8_utf8 (ascii_lineOf h), if_pos rfl]

/-- **A line for Python**: the length of the CID decides, and how the size was printed. -/
theorem pyRow_lineOf (h : Plain row.cid) (hheld : (Number.int row.size).Held) (hsize : 1 ≤ row.size) :
    pyRow (utf8 (lineOf row)) = some row ↔
      (46 ≤ row.cid.length ∧ row.cid.length ≤ 100) ∧ numStr (.int row.size) = natStr row.size := by
  obtain ⟨y, hloads, hint, hdecimal⟩ := @loads_rowText row.cid [10] row.size hheld (by decide)
  rw [pyRow, pyText_lineOf h, Option.bind_some, lineOf, hloads, Option.bind_some]
  constructor
  · intro hrow
    cases y with
    | int m =>
      obtain ⟨k, rfl, htext⟩ := hint m rfl
      rw [rowIn_rowJson h] at hrow
      split_ifs at hrow with hok
      have hk : k = row.size := by
        have := congrArg Row.size (Option.some.inj hrow)
        rwa [Int.toNat_natCast] at this
      rw [hk] at htext
      exact ⟨hok.1, htext⟩
    | frac q => cases hrow
    | inf negative => cases hrow
  · rintro ⟨hlen, htext⟩
    rw [hdecimal _ htext, rowIn_rowJson h, if_pos ⟨hlen, by omega⟩, Int.toNat_natCast]

/-! ## A file -/

/-- A reader opens the file with its digest and the number of the rows, and has the rows. -/
def Opens (nc : NodeCrypto) (read : Bytes → Option Row) (file : Bytes) (rows : List Row) : Prop :=
  ∃ inventory, Inventory.ofSnapshot (snapshot nc read file) (hexdigest (nc.sha256 file)) rows.length = .ok inventory ∧
    inventory.entries = rows

/-- The rows can be written and are distinct. -/
structure Writable (rows : List Row) : Prop where
  plain : ∀ row ∈ rows, Plain row.cid
  held : ∀ row ∈ rows, (Number.int row.size).Held
  sized : ∀ row ∈ rows, 1 ≤ row.size
  nodup : (rows.map Row.cid).Nodup

theorem opens_of_rows (h : Writable rows) :
    Opens nc read (utf8 (rows.flatMap lineOf)) rows ↔ ∀ row ∈ rows, read (utf8 (lineOf row)) = some row := by
  have hlines : (snapshot nc read (utf8 (rows.flatMap lineOf))).lines = rows.map fun row => read (utf8 (lineOf row)) := by
    rw [snapshot, fileLines_rows h.plain, List.map_map]
    rfl
  have heq : (rows.map fun row => read (utf8 (lineOf row))) = rows.map some ↔
      ∀ row ∈ rows, read (utf8 (lineOf row)) = some row := List.map_inj_left
  rw [← heq, ← hlines]
  constructor
  · rintro ⟨inventory, hopen, rfl⟩
    exact (ofSnapshot_eq_ok.mp hopen).1
  · intro hall
    exact ⟨⟨_, rows, h.nodup⟩, ofSnapshot_eq_ok.mpr ⟨hall, rfl, rfl, rfl⟩, rfl⟩

/-- The CIDs that the readers take. -/
def InReach (rows : List Row) : Prop := ∀ row ∈ rows, 46 ≤ row.cid.length ∧ row.cid.length ≤ 100

/-- The sizes that are printed as decimal digits. -/
def InDigits (rows : List Row) : Prop := ∀ row ∈ rows, numStr (.int row.size) = natStr row.size

/-- **Which files of rows are opened.** -/
theorem opens_iff (h : Writable rows) :
    (Opens nc kotobaRow (utf8 (rows.flatMap lineOf)) rows ↔ InReach rows) ∧
      (Opens nc pyRow (utf8 (rows.flatMap lineOf)) rows ↔ InReach rows ∧ InDigits rows) := by
  rw [opens_of_rows h, opens_of_rows h]
  constructor
  · refine forall₂_congr fun row hrow => ?_
    rw [kotobaRow_lineOf (h.plain row hrow) (h.held row hrow) (h.sized row hrow)]
    by_cases hlen : 46 ≤ row.cid.length ∧ row.cid.length ≤ 100
    · rw [if_pos hlen]
      exact iff_of_true rfl hlen
    · rw [if_neg hlen]
      exact iff_of_false (by rintro h; cases h) hlen
  · rw [InReach, InDigits, ← forall₂_and]
    exact forall₂_congr fun row hrow => pyRow_lineOf (h.plain row hrow) (h.held row hrow) (h.sized row hrow)

/-- Sizes that a double counts exactly are printed as decimal digits. -/
theorem inDigits_of_le (h : ∀ row ∈ rows, row.size ≤ 2 ^ 53) : InDigits rows := by
  intro row hrow
  rw [numStr, if_pos (by have := h row hrow; omega)]
  rfl

end Lake
