import Yataverse.GraphHead.VerifyHead

/-!
# Child processes and the witnesses' head

- `Proc`: how a child process has ended, as `run!` reports it.
- `verifiedLine`: the line `VERIFIED <ref> seq <n> cid <cid>` that `lake_head verify`
  prints.
- `witnessHead`: the head of a ref proved by the witnesses.
-/

namespace GraphHead

open Js

/-- How a child process has ended: its exit code (none when it was killed), what it
printed, and its standard error. -/
structure Proc where
  code : Option Int
  out : Bytes
  err : JsString
deriving DecidableEq

/-- The process has exited with `n`. -/
def Proc.exited (p : Proc) (n : Int) : Bool := p.code = some n

/-- `(subs s 0 (min n (count s)))`. -/
def cut (n : Nat) (s : JsString) : JsString := s.take n

/-- Split off a non-empty run of units that are not white space: `\S+`. -/
def takeWord (s : JsString) : Option (JsString × JsString) :=
  let w := s.takeWhile fun u => !isWhite u
  if w = [] then none else some (w, s.drop w.length)

/-- Drop a prefix. -/
def dropPrefix (p s : JsString) : Option JsString :=
  if p.isPrefixOf s then some (s.drop p.length) else none

/-- `^VERIFIED \S+ seq (\d+) cid (\S+)`: the number and the CID. -/
def verifiedLine (line : JsString) : Option (JsString × JsString) := do
  let s ← dropPrefix (js "VERIFIED ") line
  let (_, s) ← takeWord s
  let s ← dropPrefix (js " seq ") s
  let (ds, s) := spanDigits s
  if ds = [] then none
  else
    let s ← dropPrefix (js " cid ") s
    let (cid, _) ← takeWord s
    return (ds, cid)

/-- `js/parseInt` of decimal digits. -/
def parseDigits (ds : JsString) : Number := Number.ofInt (ofDigits ds)

/-- `witness-head`: the head of a ref proved by the witnesses, `none` when no witness
holds a record. `verify` is how `lake_head verify` ended. -/
def witnessHead (verify : Proc) : Except Err (Option (Number × JsString)) :=
  let line := lastLine (ofUtf8 verify.out)
  match verify.exited 0, verifiedLine line with
  | true, some (seq, cid) => .ok (some (parseDigits seq, cid))
  | _, _ =>
    if verify.exited 4 then .ok none
    else if verify.exited 1 then .error (.refused (js "witnesses disagree: " ++ cut 200 line))
    else .error (.unmeasured (js "witnesses did not prove a head: " ++ cut 200 line))

/-- Only an exit with 0 proves a head. -/
theorem exited_of_witnessHead {verify : Proc} {head : Number × JsString}
    (h : witnessHead verify = .ok (some head)) : verify.exited 0 = true := by
  unfold witnessHead at h
  by_contra hc
  rw [Bool.not_eq_true] at hc
  simp only [hc] at h
  split_ifs at h
  cases h

end GraphHead
