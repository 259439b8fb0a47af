import Mathlib.Data.List.DropRight
import Mathlib.Data.List.Basic
import Mathlib.Data.List.Sort
import Mathlib.Data.List.TakeDrop
import Mathlib.Tactic.IntervalCases

/-!
# JavaScript strings and buffers

A JavaScript string is a sequence of 16-bit code units, paired into surrogates or
not; a `Buffer` is a sequence of bytes.

- `js`: the code units of an ASCII literal.
- `utf8`, `ofUtf8`: `Buffer.from(s, "utf8")` and `String(buf)`. An unpaired
  surrogate is written as U+FFFD, and so is every maximal ill-formed byte sequence
  that is read.
- `natStr`, `intStr`: the decimal text of an integer; `ofDigits` reads one.
- `trim`, `splitLines`, `lastLine`: the text a child process has printed.
- `base64url`: `Buffer.from(s, "base64url")`.
- `conj`, `disj`: sets of strings, as lists.
-/

namespace Js

/-- A string: its UTF-16 code units. -/
abbrev JsString := List UInt16

instance : LawfulBEq JsString := inferInstance

/-- A buffer. -/
abbrev Bytes := List UInt8

/-- The code units of an ASCII literal. -/
def js (s : String) : JsString := s.toByteArray.data.toList.map UInt8.toUInt16

/-- The code unit of an ASCII character. -/
def unit (c : Char) : UInt16 := c.toNat.toUInt16

/-- The code units from `lo` to `hi`. -/
def inRange (lo hi : Char) (u : UInt16) : Bool := unit lo ≤ u && u ≤ unit hi

/-! ## UTF-8 -/

/-- A leading surrogate. -/
def isHigh (u : UInt16) : Bool := 0xd800 ≤ u && u ≤ 0xdbff

/-- A trailing surrogate. -/
def isLow (u : UInt16) : Bool := 0xdc00 ≤ u && u ≤ 0xdfff

/-- The byte `n`, which is below 256 wherever this is used. -/
def byte (n : Nat) : UInt8 := UInt8.ofNat n

/-- The UTF-8 bytes of one code point. -/
def utf8Point (n : Nat) : Bytes :=
  if n < 0x80 then [byte n]
  else if n < 0x800 then [byte (0xc0 + n / 0x40), byte (0x80 + n % 0x40)]
  else if n < 0x10000 then
    [byte (0xe0 + n / 0x1000), byte (0x80 + n / 0x40 % 0x40), byte (0x80 + n % 0x40)]
  else
    [byte (0xf0 + n / 0x40000), byte (0x80 + n / 0x1000 % 0x40), byte (0x80 + n / 0x40 % 0x40),
      byte (0x80 + n % 0x40)]

/-- The code point of one unit that is not half of a pair. -/
def lonePoint (u : UInt16) : Nat := if isHigh u || isLow u then 0xfffd else u.toNat

/-- The code points of a string. -/
def points : JsString → List Nat
  | [] => []
  | [u] => [lonePoint u]
  | u :: v :: rest =>
    if isHigh u && isLow v then
      (0x10000 + (u.toNat - 0xd800) * 0x400 + (v.toNat - 0xdc00)) :: points rest
    else lonePoint u :: points (v :: rest)

/-- `Buffer.from(s, "utf8")`. -/
def utf8 (s : JsString) : Bytes := (points s).flatMap utf8Point

/-- The code units of one code point. -/
def unitsOf (n : Nat) : JsString :=
  if n < 0x10000 then [n.toUInt16]
  else [(0xd800 + (n - 0x10000) / 0x400).toUInt16, (0xdc00 + (n - 0x10000) % 0x400).toUInt16]

/-- A partly read code point: how many bytes are missing, its bits so far, and the
range of the next byte. -/
structure Partial where
  missing : Nat
  bits : Nat
  lo : Nat := 0x80
  hi : Nat := 0xbf

/-- Read the first byte of a code point. -/
def readFirst (b : Nat) : Option Partial × JsString :=
  if b < 0x80 then (none, [b.toUInt16])
  else if 0xc2 ≤ b && b ≤ 0xdf then (some ⟨1, b - 0xc0, 0x80, 0xbf⟩, [])
  else if b = 0xe0 then (some ⟨2, 0, 0xa0, 0xbf⟩, [])
  else if b = 0xed then (some ⟨2, 0xd, 0x80, 0x9f⟩, [])
  else if 0xe1 ≤ b && b ≤ 0xef then (some ⟨2, b - 0xe0, 0x80, 0xbf⟩, [])
  else if b = 0xf0 then (some ⟨3, 0, 0x90, 0xbf⟩, [])
  else if b = 0xf4 then (some ⟨3, 4, 0x80, 0x8f⟩, [])
  else if 0xf1 ≤ b && b ≤ 0xf3 then (some ⟨3, b - 0xf0, 0x80, 0xbf⟩, [])
  else (none, [0xfffd])

/-- Read one byte. A byte that does not continue the code point ends it as U+FFFD and
starts the next. -/
def readByte (st : Option Partial) (b : Nat) : Option Partial × JsString :=
  match st with
  | none => readFirst b
  | some p =>
    if p.lo ≤ b && b ≤ p.hi then
      let bits := p.bits * 0x40 + (b - 0x80)
      if p.missing = 1 then (none, unitsOf bits) else (some ⟨p.missing - 1, bits, 0x80, 0xbf⟩, [])
    else ((readFirst b).1, 0xfffd :: (readFirst b).2)

/-- Read the rest of a buffer. -/
def readBytes : Option Partial → Bytes → JsString
  | none, [] => []
  | some _, [] => [0xfffd]
  | st, b :: bs => (readByte st b.toNat).2 ++ readBytes (readByte st b.toNat).1 bs

/-- `String(buf)`. -/
def ofUtf8 (buf : Bytes) : JsString := readBytes none buf

/-- A string of ASCII units. -/
def Ascii (s : JsString) : Prop := ∀ u ∈ s, u < 0x80

instance (s : JsString) : Decidable (Ascii s) := List.decidableBAll _ s

/-- A string of printable ASCII units. -/
def Printable (s : JsString) : Prop := ∀ u ∈ s, 0x20 ≤ u ∧ u ≤ 0x7e

instance (s : JsString) : Decidable (Printable s) := List.decidableBAll _ s

theorem Ascii.append {s t : JsString} (hs : Ascii s) (ht : Ascii t) : Ascii (s ++ t) := by
  intro u hu
  rcases List.mem_append.mp hu with h | h
  · exact hs u h
  · exact ht u h

theorem lonePoint_ascii {u : UInt16} (h : u < 0x80) : lonePoint u = u.toNat := by
  have h' : u.toNat < 0x80 := by simpa [UInt16.lt_iff_toNat_lt] using h
  simp only [lonePoint, isHigh, isLow, Bool.or_eq_true, Bool.and_eq_true, decide_eq_true_eq,
    UInt16.le_iff_toNat_le]
  rw [if_neg (by simp; omega)]

theorem points_ascii : ∀ {s : JsString}, Ascii s → points s = s.map UInt16.toNat
  | [], _ => rfl
  | [u], h => by simp [points, lonePoint_ascii (h u (by simp))]
  | u :: v :: rest, h => by
    have hu : u < 0x80 := h u (by simp)
    have hu' : u.toNat < 0x80 := by simpa [UInt16.lt_iff_toNat_lt] using hu
    have hhigh : isHigh u = false := by
      simp only [isHigh, Bool.and_eq_false_iff, decide_eq_false_iff_not, UInt16.le_iff_toNat_le]
      left
      simp
      omega
    rw [points, hhigh, Bool.false_and, if_neg (by decide), lonePoint_ascii hu,
      points_ascii (s := v :: rest) fun w hw => h w (by simp at hw ⊢; tauto)]
    rfl

/-- An ASCII string survives a buffer. -/
theorem ofUtf8_utf8 {s : JsString} (h : Ascii s) : ofUtf8 (utf8 s) = s := by
  rw [utf8, points_ascii h, ofUtf8]
  induction s with
  | nil => rfl
  | cons u s ih =>
    have hu : u.toNat < 0x80 := by simpa [UInt16.lt_iff_toNat_lt] using h u (by simp)
    have hb : (byte u.toNat).toNat = u.toNat := by
      simp only [byte, UInt8.toNat_ofNat']
      omega
    have hrest := ih fun w hw => h w (by simp [hw])
    simp only [List.map_cons, List.flatMap_cons, utf8Point, if_pos hu, List.singleton_append,
      readBytes, readByte, readFirst, hb]
    rw [hrest]
    simp

/-! ## Decimal text -/

/-- The decimal digits of a natural number. -/
def natStr (n : Nat) : JsString := (Nat.toDigits 10 n).map unit

/-- The decimal text of an integer. -/
def intStr : Int → JsString
  | .ofNat n => natStr n
  | .negSucc n => unit '-' :: natStr (n + 1)

/-- The value of a decimal digit. -/
def digit? (u : UInt16) : Option Nat :=
  if inRange '0' '9' u then some (u.toNat - 48) else none

/-- Split off the leading digits. -/
def spanDigits (s : JsString) : JsString × JsString := s.span fun u => (digit? u).isSome

/-- The number that decimal digits write. -/
def ofDigits (s : JsString) : Nat := s.foldl (fun n u => 10 * n + (u.toNat - 48)) 0

theorem unit_digitChar {d : Nat} (h : d < 10) : (unit d.digitChar).toNat = 48 + d := by
  interval_cases d <;> decide

theorem ofDigits_natStr (n : Nat) : ofDigits (natStr n) = n := by
  induction n using Nat.strongRecOn with
  | ind n ih =>
    by_cases h : n < 10
    · rw [natStr, Nat.toDigits_of_lt_base h]
      simp [ofDigits, unit_digitChar h]
    · have hd := Nat.toDigits_of_base_le (b := 10) (by decide) (by omega : 10 ≤ n)
      rw [natStr, hd, List.map_append, ofDigits, List.foldl_append]
      have := ih (n / 10) (by omega)
      rw [natStr, ofDigits] at this
      rw [this]
      simp only [List.map_cons, List.map_nil, List.foldl_cons, List.foldl_nil]
      rw [unit_digitChar (Nat.mod_lt n (by decide))]
      omega

/-- A decimal digit. -/
def IsDigit (u : UInt16) : Prop := (digit? u).isSome = true

theorem IsDigit.ne {u : UInt16} {c : Char} (h : IsDigit u) (hc : ¬ IsDigit (unit c)) :
    u ≠ unit c := by
  rintro rfl
  exact hc h

theorem isDigit_digitChar {d : Nat} (h : d < 10) : IsDigit (unit d.digitChar) := by
  unfold IsDigit
  interval_cases d <;> decide

theorem isDigit_natStr (n : Nat) : ∀ u ∈ natStr n, IsDigit u := by
  induction n using Nat.strongRecOn with
  | ind n ih =>
    by_cases h : n < 10
    · rw [natStr, Nat.toDigits_of_lt_base h]
      simpa using isDigit_digitChar h
    · rw [natStr, Nat.toDigits_of_base_le (by decide) (by omega : 10 ≤ n), List.map_append]
      intro u hu
      rcases List.mem_append.mp hu with h' | h'
      · exact ih (n / 10) (by omega) u h'
      · obtain rfl : u = unit (n % 10).digitChar := by simpa using h'
        exact isDigit_digitChar (Nat.mod_lt n (by decide))

/-- Decimal text starts with `0` only when it is `0`. -/
theorem natStr_head (n : Nat) :
    natStr n = [unit '0'] ∨ ∃ u s, natStr n = u :: s ∧ IsDigit u ∧ u ≠ unit '0' := by
  induction n using Nat.strongRecOn with
  | ind n ih =>
    by_cases h : n < 10
    · rw [natStr, Nat.toDigits_of_lt_base h]
      by_cases h0 : n = 0
      · subst h0
        exact .inl rfl
      · refine .inr ⟨unit n.digitChar, [], rfl, isDigit_digitChar h, ?_⟩
        interval_cases n
        · exact absurd rfl h0
        all_goals decide
    · right
      have hn : natStr n = natStr (n / 10) ++ [unit (n % 10).digitChar] := by
        rw [natStr, Nat.toDigits_of_base_le (by decide) (by omega : 10 ≤ n), List.map_append]
        rfl
      rcases ih (n / 10) (by omega) with h' | ⟨u, s, h', hu⟩
      · -- a quotient below 10 that is written `0` is 0, which `10 ≤ n` excludes
        have := ofDigits_natStr (n / 10)
        rw [h'] at this
        have : n / 10 = 0 := by rw [← this]; decide
        omega
      · exact ⟨u, s ++ [unit (n % 10).digitChar], by rw [hn, h']; rfl, hu⟩

theorem isDigit_ascii {u : UInt16} (h : IsDigit u) : u < 0x80 := by
  unfold IsDigit digit? inRange unit at h
  split at h
  · rename_i h'
    simp only [Bool.and_eq_true, decide_eq_true_eq, UInt16.le_iff_toNat_le] at h'
    have h₂ := h'.2
    rw [UInt16.lt_iff_toNat_lt]
    have : ('9'.toNat.toUInt16).toNat = 57 := by decide
    have : (0x80 : UInt16).toNat = 128 := by decide
    omega
  · cases h

theorem natStr_ascii (n : Nat) : Ascii (natStr n) :=
  fun u hu => isDigit_ascii (isDigit_natStr n u hu)

/-- Digits followed by something else split there. -/
theorem spanDigits_append {s t : JsString} (hs : ∀ u ∈ s, IsDigit u)
    (ht : ∀ u r, t = u :: r → ¬ IsDigit u) : spanDigits (s ++ t) = (s, t) := by
  rw [spanDigits, List.span_eq_takeWhile_dropWhile]
  have h₁ : t.takeWhile (fun u => (digit? u).isSome) = [] := by
    cases t with
    | nil => rfl
    | cons u r =>
      have hu : ¬ (digit? u).isSome = true := ht u r rfl
      rw [List.takeWhile_cons, if_neg hu]
  have h₂ : t.dropWhile (fun u => (digit? u).isSome) = t := by
    cases t with
    | nil => rfl
    | cons u r =>
      have hu : ¬ (digit? u).isSome = true := ht u r rfl
      rw [List.dropWhile_cons, if_neg hu]
  rw [List.takeWhile_append_of_pos hs, List.dropWhile_append_of_pos hs, h₁, h₂, List.append_nil]

/-! ## Printed text -/

/-- White space, as `trim` and `\\s` have it. -/
def isWhite (u : UInt16) : Bool :=
  (9 ≤ u && u ≤ 13) || u == 32 || u == 0xa0 || u == 0x1680 || (0x2000 ≤ u && u ≤ 0x200a) ||
    u == 0x2028 || u == 0x2029 || u == 0x202f || u == 0x205f || u == 0x3000 || u == 0xfeff

/-- `(str/trim s)`. -/
def trim (s : JsString) : JsString :=
  ((s.dropWhile isWhite).reverse.dropWhile isWhite).reverse

/-- Digits, letters and what stands between them are not white space. -/
theorem not_isWhite_of_range {u : UInt16} (h : 50 ≤ u.toNat ∧ u.toNat ≤ 122) :
    isWhite u = false := by
  simp only [isWhite, Bool.or_eq_false_iff, Bool.and_eq_false_iff, beq_eq_false_iff_ne, ne_eq,
    decide_eq_false_iff_not, UInt16.le_iff_toNat_le, ← UInt16.toNat_inj, UInt16.reduceToNat]
  omega

/-- A printed line, trimmed. -/
theorem trim_line {s : JsString} (h : ∀ u ∈ s, isWhite u = false) : trim (s ++ [10]) = s := by
  have hdrop : ∀ t : JsString, (∀ u ∈ t, isWhite u = false) → t.dropWhile isWhite = t := by
    intro t ht
    cases t with
    | nil => rfl
    | cons u t => rw [List.dropWhile_cons_of_neg (by simp [ht u])]
  cases s with
  | nil => rfl
  | cons u s =>
    rw [trim, List.cons_append, List.dropWhile_cons_of_neg (by simp [h u]), ← List.cons_append,
      List.reverse_append, List.reverse_singleton, List.singleton_append,
      List.dropWhile_cons_of_pos (by decide), hdrop _ (fun v hv => h v (List.mem_reverse.mp hv)),
      List.reverse_reverse]

/-- Put a unit in front of the first line. -/
def consLine (u : UInt16) : List JsString → List JsString
  | [] => [[u]]
  | l :: ls => (u :: l) :: ls

/-- Split at every `\n` and `\r\n`. -/
def breakLines : JsString → List JsString
  | [] => [[]]
  | [u] => if u = 10 then [[], []] else [[u]]
  | u :: v :: rest =>
    if u = 10 then [] :: breakLines (v :: rest)
    else if u = 13 ∧ v = 10 then [] :: breakLines rest
    else consLine u (breakLines (v :: rest))

/-- `(str/split-lines s)`: without empty lines at the end, but for an only one. -/
def splitLines (s : JsString) : List JsString :=
  match breakLines s with
  | [l] => [l]
  | ls => ls.rdropWhile (· = [])

/-- The last line of trimmed output. -/
def lastLine (out : JsString) : JsString := ((splitLines (trim out)).getLast?).getD []

/-! ## base64 -/

/-- The six bits a base64 digit stands for, in either alphabet. -/
def base64Digit (u : UInt16) : Option Nat :=
  if inRange 'A' 'Z' u then some (u.toNat - 65)
  else if inRange 'a' 'z' u then some (u.toNat - 71)
  else if inRange '0' '9' u then some (u.toNat + 4)
  else if u = unit '+' || u = unit '-' then some 62
  else if u = unit '/' || u = unit '_' then some 63
  else none

/-- The bytes of base64 digits; bits that fill no byte are dropped. -/
def base64Bytes : List Nat → Bytes
  | a :: b :: c :: d :: r =>
    byte (a * 4 + b / 16) :: byte (b % 16 * 16 + c / 4) :: byte (c % 4 * 64 + d) :: base64Bytes r
  | [a, b, c] => [byte (a * 4 + b / 16), byte (b % 16 * 16 + c / 4)]
  | [a, b] => [byte (a * 4 + b / 16)]
  | _ => []

/-- `Buffer.from(s, "base64url")`: what is not a digit is skipped. -/
def base64url (s : JsString) : Bytes := base64Bytes (s.filterMap base64Digit)

/-! ## Sets of strings -/

/-- `(conj set s)`. -/
def conj (set : List JsString) (s : JsString) : List JsString :=
  if set.contains s then set else s :: set

/-- `(disj set s)`. -/
def disj (set : List JsString) (s : JsString) : List JsString := set.filter (· ≠ s)

/-- `(sort set)`. -/
def sorted (set : List JsString) : List JsString := set.insertionSort (· ≤ ·)

@[simp] theorem mem_conj {set : List JsString} {s t : JsString} :
    t ∈ conj set s ↔ t = s ∨ t ∈ set := by
  unfold conj
  split
  · rename_i h
    simp only [List.contains_iff_mem] at h
    constructor
    · exact .inr
    · rintro (rfl | h')
      · exact h
      · exact h'
  · simp

@[simp] theorem mem_disj {set : List JsString} {s t : JsString} :
    t ∈ disj set s ↔ t ∈ set ∧ t ≠ s := by
  simp [disj]

@[simp] theorem mem_sorted {set : List JsString} {s : JsString} : s ∈ sorted set ↔ s ∈ set :=
  List.mem_insertionSort _

end Js
