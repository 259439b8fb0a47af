import Yataverse.Js.Parse

/-!
# Properties of parsed values

- `Json.property`: a property of a value, undefined where there is none.
- `Json.text`: `(str v)` of a JS value.
- `Json.stringifyValue`: `JSON.stringify`.
-/

namespace Js.Json

/-- `v.k`; `none` is undefined. -/
def property (v : Json) (k : JsString) : Option Json :=
  match v with
  | obj kvs => (kvs.find? fun e => e.1 = k).map Prod.snd
  | _ => none

/-- A property with a value is what `get` returns. -/
theorem property_of_get {v w : Json} {k : JsString} (h : v.get k = w) (hw : w ≠ null) : v.property k = some w := by
  cases v with
  | obj kvs =>
    rw [get] at h
    rw [property]
    induction kvs with
    | nil => exact absurd h.symm hw
    | cons e kvs ih =>
      rw [lookup] at h
      by_cases hk : k = e.1
      · rw [if_pos hk] at h
        rw [List.find?_cons, decide_eq_true hk.symm]
        exact congrArg some h
      · rw [if_neg hk] at h
        rw [List.find?_cons, decide_eq_false (Ne.symm hk)]
        exact ih h
  | _ => exact absurd h.symm hw

mutual

/-- `String(v)`, but for `null`, of which `str` makes nothing. -/
def text : Json → JsString
  | null => []
  | bool b => js (if b then "true" else "false")
  | num x => numStr x
  | str s => s
  | arr xs => textList xs
  | obj _ => js "[object Object]"

/-- The elements, with commas between them. -/
def textList : List Json → JsString
  | [] => []
  | [x] => text x
  | x :: y :: xs => text x ++ unit ',' :: textList (y :: xs)

end

mutual

/-- An infinity is written as `null`. -/
def finite : Json → Json
  | num (.inf _) => null
  | arr xs => arr (finiteList xs)
  | obj kvs => obj (finiteEntries kvs)
  | null => null
  | bool b => bool b
  | num (.int n) => num (.int n)
  | num (.frac q) => num (.frac q)
  | str s => str s

def finiteList : List Json → List Json
  | [] => []
  | x :: xs => finite x :: finiteList xs

def finiteEntries : List (JsString × Json) → List (JsString × Json)
  | [] => []
  | e :: kvs => (e.1, finite e.2) :: finiteEntries kvs

end

/-- `JSON.stringify(v)`. -/
def stringifyValue (v : Json) : JsString := print stringify v.finite

end Js.Json
