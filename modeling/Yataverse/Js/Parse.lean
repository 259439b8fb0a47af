import Yataverse.Js.Json

/-!
# Reading and printing JSON text

- `parse`: `JSON.parse`, a recursive descent on the text. Each call consumes at least
  one unit, so the text's length is fuel enough.
- `numStr`: `String(x)` of a number.
- `print`: the text of a value without spaces, given how strings are quoted;
  `stringify` is `JSON.stringify` of a string.
-/

namespace Js

/-! ## Numbers as text -/

/-- Digits `s`, `k` of them, that name a double together with the exponent `n`: the
value is `s * 10 ^ (n - k)`. -/
structure Digits where
  s : Nat
  k : Nat
  n : Int

namespace Digits

/-- The value of the digits. -/
def value (d : Digits) : ℚ := d.s * 10 ^ (d.n - d.k)

/-- `k` digits just below or above `q`. A round up to `10 ^ k` is one digit more. -/
def near (q : ℚ) (k : Nat) (up : Bool) : Digits :=
  let n := Int.log 10 q + 1
  let s := ⌊q / 10 ^ (n - k)⌋.toNat + up.toNat
  if s = 10 ^ k then ⟨10 ^ (k - 1), k, n + 1⟩ else ⟨s, k, n⟩

/-- `k` digits that read back as `q`, the closer ones if there are two. -/
def ofLength (q : ℚ) (k : Nat) : Option Digits :=
  match [near q k false, near q k true].filter fun d => Number.ofRat d.value = Number.ofRat q with
  | [a, b] => some (if |b.value - q| < |a.value - q| then b else a)
  | [a] => some a
  | _ => none

/-- The fewest digits that read back as `q`. -/
def shortest (q : ℚ) : Option Digits := ((List.range 17).map (· + 1)).findSome? (ofLength q)

/-- The digits with a decimal point or an exponent. -/
def text (d : Digits) : JsString :=
  let ds := natStr d.s
  if d.k ≤ d.n ∧ d.n ≤ 21 then ds ++ List.replicate (d.n - d.k).toNat (unit '0')
  else if 0 < d.n ∧ d.n ≤ 21 then ds.take d.n.toNat ++ unit '.' :: ds.drop d.n.toNat
  else if -6 < d.n ∧ d.n ≤ 0 then js "0." ++ List.replicate (-d.n).toNat (unit '0') ++ ds
  else
    let e := d.n - 1
    let exponent := js (if 0 ≤ e then "e+" else "e-") ++ natStr e.natAbs
    if d.k = 1 then ds ++ exponent else ds.take 1 ++ unit '.' :: ds.drop 1 ++ exponent

end Digits

/-- The text of a rational that is a double. -/
def ratStr (q : ℚ) : JsString :=
  let t := ((Digits.shortest |q|).map Digits.text).getD []
  if q < 0 then unit '-' :: t else t

/-- `String(x)`. Integers up to `2 ^ 53` are written out. -/
def numStr : Number → JsString
  | .int n => if n.natAbs ≤ 2 ^ 53 then intStr n else ratStr n
  | .frac q => ratStr q
  | .inf false => js "Infinity"
  | .inf true => js "-Infinity"

/-! ## Strings as text -/

/-- A hexadecimal digit, lower case. -/
def hexDigit (n : Nat) : UInt16 := if n < 10 then (48 + n).toUInt16 else (87 + n).toUInt16

/-- The four hexadecimal digits of a code unit. -/
def hex4 (u : UInt16) : JsString :=
  [hexDigit (u.toNat / 4096), hexDigit (u.toNat / 256 % 16), hexDigit (u.toNat / 16 % 16),
    hexDigit (u.toNat % 16)]

/-- `\uXXXX`. -/
def unicodeEscape (u : UInt16) : JsString := unit '\\' :: unit 'u' :: hex4 u

/-- A code unit inside quotes, when it is not half of a pair. -/
def quoteUnit (u : UInt16) : JsString :=
  if u = unit '"' then js "\\\""
  else if u = unit '\\' then js "\\\\"
  else if u = 8 then js "\\b"
  else if u = 9 then js "\\t"
  else if u = 10 then js "\\n"
  else if u = 12 then js "\\f"
  else if u = 13 then js "\\r"
  else if u < 0x20 || isHigh u || isLow u then unicodeEscape u
  else [u]

/-- The code units inside quotes. A surrogate pair stands as it is. -/
def quoteUnits : JsString → JsString
  | [] => []
  | [u] => quoteUnit u
  | u :: v :: rest =>
    if isHigh u && isLow v then u :: v :: quoteUnits rest else quoteUnit u ++ quoteUnits (v :: rest)

/-- `JSON.stringify(s)` of a string. -/
def stringify (s : JsString) : JsString := unit '"' :: quoteUnits s ++ [unit '"']

namespace Json

variable (quote : JsString → JsString)

mutual

/-- The text of a value, its strings written by `quote`, without spaces. -/
def print : Json → JsString
  | null => js "null"
  | bool b => js (if b then "true" else "false")
  | num x => numStr x
  | str s => quote s
  | arr xs => unit '[' :: printList xs ++ [unit ']']
  | obj kvs => unit '{' :: printEntries kvs ++ [unit '}']

def printList : List Json → JsString
  | [] => []
  | [x] => print x
  | x :: y :: xs => print x ++ unit ',' :: printList (y :: xs)

def printEntries : List (JsString × Json) → JsString
  | [] => []
  | [e] => quote e.1 ++ unit ':' :: print e.2
  | e :: f :: kvs => quote e.1 ++ unit ':' :: print e.2 ++ unit ',' :: printEntries (f :: kvs)

end

/-! ## Reading -/

/-- JSON white space. -/
def isSpace (u : UInt16) : Bool := u == 32 || u == 9 || u == 10 || u == 13

/-- The value of a hexadecimal digit. -/
def hexValue (u : UInt16) : Option Nat :=
  if inRange '0' '9' u then some (u.toNat - 48)
  else if inRange 'a' 'f' u then some (u.toNat - 87)
  else if inRange 'A' 'F' u then some (u.toNat - 55)
  else none

/-- The code unit that four hexadecimal digits name. -/
def hexUnit (a b c d : UInt16) : Option UInt16 := do
  return ((((← hexValue a) * 16 + (← hexValue b)) * 16 + (← hexValue c)) * 16
    + (← hexValue d)).toUInt16

/-- The code unit that a one-letter escape names. -/
def shortEscape (u : UInt16) : Option UInt16 :=
  if u = unit '"' || u = unit '\\' || u = unit '/' then some u
  else if u = unit 'b' then some 8
  else if u = unit 't' then some 9
  else if u = unit 'n' then some 10
  else if u = unit 'f' then some 12
  else if u = unit 'r' then some 13
  else none

/-- Read a string after its opening quote. -/
def readString : JsString → Option (JsString × JsString)
  | [] => none
  | u :: r =>
    if u = unit '"' then some ([], r)
    else if u < 0x20 then none
    else if u = unit '\\' then
      match r with
      | [] => none
      | e :: r =>
        if e = unit 'u' then
          match r with
          | a :: b :: c :: d :: r => do
            let w ← hexUnit a b c d
            let (s, r) ← readString r
            return (w :: s, r)
          | _ => none
        else do
          let w ← shortEscape e
          let (s, r) ← readString r
          return (w :: s, r)
    else do
      let (s, r) ← readString r
      return (u :: s, r)

/-- Drop a leading `c`. -/
def skip (c : Char) : JsString → Option JsString
  | u :: r => if u = unit c then some r else none
  | [] => none

/-- Read a fraction, if there is one: its digits. -/
def readFraction (s : JsString) : Option (JsString × JsString) :=
  match skip '.' s with
  | none => some ([], s)
  | some r => if (spanDigits r).1 = [] then none else some (spanDigits r)

/-- Read a minus sign, if there is one. -/
def readSign (s : JsString) : Bool × JsString :=
  match skip '-' s with
  | some r => (true, r)
  | none => (false, s)

/-- Read an exponent, if there is one. -/
def readExponent (s : JsString) : Option (Int × JsString) :=
  match skip 'e' s <|> skip 'E' s with
  | none => some (0, s)
  | some r =>
    let (negative, r) :=
      match skip '+' r with
      | some r' => (false, r')
      | none => readSign r
    let (ds, r) := spanDigits r
    if ds = [] then none else some (if negative then -ofDigits ds else ofDigits ds, r)

/-- Read a number. -/
def readNumber (s : JsString) : Option (Json × JsString) := do
  let (negative, s) := readSign s
  let (whole, s) := spanDigits s
  if whole = [] || whole.head? = some (unit '0') && whole ≠ [unit '0'] then none
  else
    let (fraction, s) ← readFraction s
    let (e, s) ← readExponent s
    let q : ℚ := ofDigits (whole ++ fraction) * 10 ^ (e - fraction.length)
    return (num (Number.ofRat (if negative then -q else q)), s)

/-- Read the word `w`, which stands for `v`. -/
def readWord (w : JsString) (v : Json) (s : JsString) : Option (Json × JsString) :=
  if w.isPrefixOf s then some (v, s.drop w.length) else none

mutual

/-- Read a value. -/
def readValue : Nat → JsString → Option (Json × JsString)
  | 0, _ => none
  | fuel + 1, s =>
    let s := s.dropWhile isSpace
    match s with
    | [] => none
    | u :: r =>
      if u = unit '"' then (readString r).map fun (t, r) => (str t, r)
      else if u = unit '[' then
        match skip ']' (r.dropWhile isSpace) with
        | some r => some (arr [], r)
        | none => (readElements fuel r).map fun (xs, r) => (arr xs, r)
      else if u = unit '{' then
        match skip '}' (r.dropWhile isSpace) with
        | some r => some (obj [], r)
        | none => (readMembers fuel r).map fun (kvs, r) => (obj kvs, r)
      else if u = unit 'n' then readWord (js "null") null s
      else if u = unit 't' then readWord (js "true") (bool true) s
      else if u = unit 'f' then readWord (js "false") (bool false) s
      else readNumber s

/-- Read the elements of an array, to its closing bracket. -/
def readElements : Nat → JsString → Option (List Json × JsString)
  | 0, _ => none
  | fuel + 1, s => do
    let (v, s) ← readValue fuel s
    let s := s.dropWhile isSpace
    match skip ',' s with
    | some r =>
      let (xs, r) ← readElements fuel r
      return (v :: xs, r)
    | none => (skip ']' s).map fun r => ([v], r)

/-- Read the entries of an object, to its closing brace. -/
def readMembers : Nat → JsString → Option (List (JsString × Json) × JsString)
  | 0, _ => none
  | fuel + 1, s => do
    let (k, s) ← readString (← skip '"' (s.dropWhile isSpace))
    let (v, s) ← readValue fuel (← skip ':' (s.dropWhile isSpace))
    let s := s.dropWhile isSpace
    match skip ',' s with
    | some r =>
      -- a key that comes again later keeps the later value
      let (kvs, r) ← readMembers fuel r
      return (insertNew k v kvs, r)
    | none => (skip '}' s).map fun r => ([(k, v)], r)

end

/-- `JSON.parse`: `none` is the exception. -/
def parse (s : JsString) : Option Json :=
  match readValue (s.length + 1) s with
  | some (v, r) => if r.all isSpace then some v else none
  | none => none

end Json

end Js
