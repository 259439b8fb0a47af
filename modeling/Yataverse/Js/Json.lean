import Yataverse.Js.Text
import Mathlib.Data.Int.Log
import Mathlib.Data.Rat.Floor

/-!
# JSON values and `JSON.parse`

- `Number`: a double other than NaN; `Number.ofRat` rounds a rational to the nearest one,
  ties to even.
- `Json`: the value of a JSON text. The entries of an object are kept in the order
  of their keys, each key once (`Json.WF`); with that, two objects with the same
  entries are one value.
- `parse`: `JSON.parse`. A repeated key keeps its last value.
-/

namespace Js

/-! ## Numbers -/

/-- A double: an integer, a number with a fractional part, or an infinity. -/
inductive Number where
  | int (n : Int)
  | frac (q : ℚ)
  | inf (negative : Bool)
deriving DecidableEq, Repr

namespace Number

/-- The nearest integer, ties to even. -/
def roundEven (q : ℚ) : Int :=
  let f := ⌊q⌋
  if q - f < 1 / 2 then f
  else if 1 / 2 < q - f then f + 1
  else if f % 2 = 0 then f
  else f + 1

/-- The nearest double to a rational, as a rational: 53 significant bits, and no
finer than `2 ^ -1074`. -/
def nearest (q : ℚ) : ℚ :=
  let step : ℚ := 2 ^ max (Int.log 2 |q| - 52) (-1074)
  roundEven (q / step) * step

/-- The double nearest to a rational. Integers up to `2 ^ 53` are doubles. -/
def ofRat (q : ℚ) : Number :=
  if q.den = 1 ∧ q.num.natAbs ≤ 2 ^ 53 then int q.num
  else
    let r := nearest q
    if 2 ^ 1024 ≤ |r| then inf (decide (r < 0))
    else if r.den = 1 then int r.num
    else frac r

/-- The double nearest to an integer. -/
def ofInt (n : Int) : Number := ofRat n

/-- Add an integer: `(inc x)` and `(dec x)`. -/
def add (x : Number) (k : Int) : Number :=
  match x with
  | int n => ofInt (n + k)
  | frac q => ofRat (q + k)
  | inf negative => inf negative

/-- Integers up to `2 ^ 53` are exact. -/
theorem ofInt_exact {n : Int} (h : n.natAbs ≤ 2 ^ 53) : ofInt n = int n := by
  rw [ofInt, ofRat, if_pos ⟨by simp, by simpa using h⟩]
  simp

/-- `(< x y)`. -/
def lt : Number → Number → Bool
  | int m, int n => m < n
  | int m, frac q => (m : ℚ) < q
  | frac p, int n => p < (n : ℚ)
  | frac p, frac q => p < q
  | inf a, inf b => a && !b
  | inf a, _ => a
  | _, inf b => !b

end Number

/-! ## Values -/

/-- A JSON value. -/
inductive Json where
  | null
  | bool (b : Bool)
  | num (x : Number)
  | str (s : JsString)
  | arr (xs : List Json)
  | obj (kvs : List (JsString × Json))

namespace Json

instance : Inhabited Json := ⟨null⟩

mutual

/-- Structural equality, decided. -/
def decEq : (a b : Json) → Decidable (a = b)
  | null, null => isTrue rfl
  | bool a, bool b => if h : a = b then isTrue (h ▸ rfl) else isFalse fun h' => h (by cases h'; rfl)
  | num a, num b => if h : a = b then isTrue (h ▸ rfl) else isFalse fun h' => h (by cases h'; rfl)
  | str a, str b => if h : a = b then isTrue (h ▸ rfl) else isFalse fun h' => h (by cases h'; rfl)
  | arr a, arr b =>
    match decEqList a b with
    | isTrue h => isTrue (h ▸ rfl)
    | isFalse h => isFalse fun h' => h (by cases h'; rfl)
  | obj a, obj b =>
    match decEqEntries a b with
    | isTrue h => isTrue (h ▸ rfl)
    | isFalse h => isFalse fun h' => h (by cases h'; rfl)
  | null, bool _ | null, num _ | null, str _ | null, arr _ | null, obj _ => isFalse nofun
  | bool _, null | bool _, num _ | bool _, str _ | bool _, arr _ | bool _, obj _ => isFalse nofun
  | num _, null | num _, bool _ | num _, str _ | num _, arr _ | num _, obj _ => isFalse nofun
  | str _, null | str _, bool _ | str _, num _ | str _, arr _ | str _, obj _ => isFalse nofun
  | arr _, null | arr _, bool _ | arr _, num _ | arr _, str _ | arr _, obj _ => isFalse nofun
  | obj _, null | obj _, bool _ | obj _, num _ | obj _, str _ | obj _, arr _ => isFalse nofun

def decEqList : (a b : List Json) → Decidable (a = b)
  | [], [] => isTrue rfl
  | a :: as, b :: bs =>
    match decEq a b with
    | isFalse h => isFalse fun h' => h (by cases h'; rfl)
    | isTrue h₁ =>
      match decEqList as bs with
      | isTrue h₂ => isTrue (h₁ ▸ h₂ ▸ rfl)
      | isFalse h => isFalse fun h' => h (by cases h'; rfl)
  | [], _ :: _ | _ :: _, [] => isFalse nofun

def decEqEntries : (a b : List (JsString × Json)) → Decidable (a = b)
  | [], [] => isTrue rfl
  | (k, a) :: as, (l, b) :: bs =>
    if hk : k = l then
      match decEq a b with
      | isFalse h => isFalse fun h' => h (by cases h'; rfl)
      | isTrue h₁ =>
        match decEqEntries as bs with
        | isTrue h₂ => isTrue (hk ▸ h₁ ▸ h₂ ▸ rfl)
        | isFalse h => isFalse fun h' => h (by cases h'; rfl)
    else isFalse fun h' => hk (by cases h'; rfl)
  | [], _ :: _ | _ :: _, [] => isFalse nofun

end

instance : DecidableEq Json := decEq

/-- The value of a key among entries, `null` when there is none. -/
def lookup (k : JsString) : List (JsString × Json) → Json
  | [] => null
  | (k', v) :: kvs => if k = k' then v else lookup k kvs

/-- The value of a key, `null` when there is none: `(get v k)`. -/
def get (v : Json) (k : JsString) : Json :=
  match v with
  | obj kvs => lookup k kvs
  | _ => null

/-- `(map? v)`. -/
def isObj : Json → Bool
  | obj _ => true
  | _ => false

/-- The keys of an object. -/
def keys : Json → List JsString
  | obj kvs => kvs.map Prod.fst
  | _ => []

/-- `(contains? v k)` for an object. -/
def contains (v : Json) (k : JsString) : Bool := v.keys.contains k

/-- `(dissoc v k ...)`. -/
def dissoc (v : Json) (ks : List JsString) : Json :=
  match v with
  | obj kvs => obj (kvs.filter fun e => !ks.contains e.1)
  | v => v

/-- The integer an integral number is: `js/Number.isInteger`. -/
def int? : Json → Option Int
  | num (.int n) => some n
  | _ => none

/-- A value that counts as true. -/
def truthy : Json → Bool
  | null => false
  | bool b => b
  | _ => true

/-- A value as a number: `null` counts as 0. Other values are not numbers here. -/
def number? : Json → Option Number
  | num x => some x
  | null => some (.int 0)
  | _ => none

/-- `(< x y)`: false where one of them is no number. -/
def lt (x y : Json) : Bool :=
  match x.number?, y.number? with
  | some x, some y => x.lt y
  | _, _ => false

/-- `(inc v)`. -/
def inc (v : Json) : Number := ((v.number?).getD (.int 0)).add 1

/-- The text of a string. -/
def str? : Json → Option JsString
  | str s => some s
  | _ => none

/-- Add an entry for a key that has none yet; an entry that is there stays. -/
def insertNew (k : JsString) (v : Json) : List (JsString × Json) → List (JsString × Json)
  | [] => [(k, v)]
  | (k', v') :: kvs =>
    if k < k' then (k, v) :: (k', v') :: kvs
    else if k = k' then (k', v') :: kvs
    else (k', v') :: insertNew k v kvs

/-- `(assoc m k v)`. -/
def assoc (k : JsString) (v : Json) : List (JsString × Json) → List (JsString × Json)
  | [] => [(k, v)]
  | (k', v') :: kvs =>
    if k < k' then (k, v) :: (k', v') :: kvs
    else if k = k' then (k, v) :: kvs
    else (k', v') :: assoc k v kvs

theorem lookup_assoc {k k' : JsString} {v : Json} {kvs : List (JsString × Json)} :
    lookup k' (assoc k v kvs) = if k' = k then v else lookup k' kvs := by
  induction kvs with
  | nil => simp [assoc, lookup]
  | cons e kvs ih =>
    simp only [assoc]
    split_ifs with h₁ h₂ h₃ h₄ h₅ <;> simp_all [lookup]

/-- The keys of entries are strictly increasing. -/
def KeysSorted (kvs : List (JsString × Json)) : Prop := (kvs.map Prod.fst).Pairwise (· < ·)

mutual

/-- In every object, at any depth, the keys are in order and none is repeated. -/
def WF : Json → Prop
  | arr xs => WFList xs
  | obj kvs => KeysSorted kvs ∧ WFEntries kvs
  | _ => True

def WFList : List Json → Prop
  | [] => True
  | x :: xs => WF x ∧ WFList xs

def WFEntries : List (JsString × Json) → Prop
  | [] => True
  | e :: kvs => WF e.2 ∧ WFEntries kvs

end

theorem wfEntries_iff {kvs : List (JsString × Json)} : WFEntries kvs ↔ ∀ e ∈ kvs, WF e.2 := by
  induction kvs with
  | nil => simp [WFEntries]
  | cons e kvs ih => simp [WFEntries, ih]

theorem wf_lookup {k : JsString} {kvs : List (JsString × Json)} (h : WFEntries kvs) :
    WF (lookup k kvs) := by
  induction kvs with
  | nil => trivial
  | cons e kvs ih =>
    rw [lookup]
    split
    · exact h.1
    · exact ih h.2

/-- What is read from a well-formed value is well formed. -/
theorem WF.get {v : Json} (h : WF v) (k : JsString) : WF (v.get k) := by
  cases v with
  | obj kvs => exact wf_lookup h.2
  | _ => trivial

theorem keysSorted_cons {k : JsString} {v : Json} {kvs : List (JsString × Json)} :
    KeysSorted ((k, v) :: kvs) ↔ (∀ e ∈ kvs, k < e.1) ∧ KeysSorted kvs := by
  simp [KeysSorted]

theorem lookup_of_mem {kvs : List (JsString × Json)} {e : JsString × Json}
    (ho : KeysSorted kvs) (he : e ∈ kvs) : lookup e.1 kvs = e.2 := by
  induction kvs with
  | nil => cases he
  | cons f kvs ih =>
    obtain ⟨hlt, ho⟩ := keysSorted_cons.mp ho
    rw [lookup]
    rcases List.mem_cons.mp he with rfl | he
    · rw [if_pos rfl]
    · rw [if_neg, ih ho he]
      rintro h
      exact List.lt_irrefl _ (h ▸ hlt e he)

theorem mem_of_lookup {kvs : List (JsString × Json)} {k : JsString} (h : lookup k kvs ≠ .null) :
    (k, lookup k kvs) ∈ kvs := by
  induction kvs with
  | nil => exact absurd rfl h
  | cons e kvs ih =>
    rw [lookup] at h ⊢
    split at h
    · rename_i hk
      rw [if_pos hk, hk]
      exact List.mem_cons_self ..
    · rename_i hk
      rw [if_neg hk]
      exact List.mem_cons_of_mem _ (ih h)

/-- Below every key, an entry goes in front. -/
theorem insertNew_of_lt {k : JsString} {v : Json} {kvs : List (JsString × Json)}
    (h : ∀ e ∈ kvs, k < e.1) : insertNew k v kvs = (k, v) :: kvs := by
  cases kvs with
  | nil => rfl
  | cons e kvs => rw [insertNew, if_pos (h e (by simp))]

theorem mem_insertNew {k : JsString} {v : Json} {kvs : List (JsString × Json)}
    {e : JsString × Json} (h : e ∈ insertNew k v kvs) : e = (k, v) ∨ e ∈ kvs := by
  induction kvs with
  | nil => simpa [insertNew] using h
  | cons e' kvs ih =>
    simp only [insertNew] at h
    split at h
    · simpa using h
    · split at h
      · exact .inr h
      · rcases List.mem_cons.mp h with rfl | h
        · simp
        · rcases ih h with h | h <;> simp [h]

theorem keysSorted_insertNew {k : JsString} {v : Json} {kvs : List (JsString × Json)}
    (h : KeysSorted kvs) : KeysSorted (insertNew k v kvs) := by
  induction kvs with
  | nil => simp [insertNew, KeysSorted]
  | cons e kvs ih =>
    obtain ⟨hlt, hs⟩ := keysSorted_cons.mp h
    simp only [insertNew]
    split
    case isTrue hk =>
      refine keysSorted_cons.mpr ⟨fun e' he' => ?_, h⟩
      rcases List.mem_cons.mp he' with rfl | he'
      · exact hk
      · exact List.lt_trans hk (hlt e' he')
    case isFalse hk =>
      split
      · exact h
      · rename_i hne
        refine keysSorted_cons.mpr ⟨fun e' he' => ?_, ih hs⟩
        rcases mem_insertNew he' with rfl | he'
        · rcases Std.lt_trichotomy e.1 k with h | h | h
          · exact h
          · exact absurd h.symm hne
          · exact absurd h hk
        · exact hlt e' he'

theorem wfEntries_insertNew {k : JsString} {v : Json} {kvs : List (JsString × Json)} (hv : WF v)
    (h : WFEntries kvs) : WFEntries (insertNew k v kvs) := by
  induction kvs with
  | nil => exact ⟨hv, trivial⟩
  | cons e kvs ih =>
    simp only [insertNew]
    split
    · exact ⟨hv, h⟩
    · split
      · exact h
      · exact ⟨h.1, ih h.2⟩

end Json

end Js
