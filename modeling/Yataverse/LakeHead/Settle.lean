import Yataverse.GraphHead.Witness
import Mathlib.Data.List.Sort

/-!
# What the witnesses report, and what a submission makes of it

`submit` of `lake_head.cljk`: a record is sent to every witness, and the head that the
witnesses report afterwards decides how the process exits.

- `verdict`: the head that enough witnesses report.
- `settle`: a look at the verdict: committed, refused, or look again.
- `verdict_verified`: a verified head is one that a witness has reported.
-/

namespace LakeHead

open Js GraphHead

/-- What one witness answers: the head of the ref, that it has none, or nothing. -/
inductive Report where
  | head (seq : Number) (cid : JsString)
  | noHead
  | unreachable
deriving DecidableEq

/-- The head of a report. -/
def Report.head? : Report → Option (Number × JsString)
  | head seq cid => some (seq, cid)
  | _ => none

/-- Count one more member of the group `key`. -/
def bump (key : Number × JsString) : List ((Number × JsString) × Nat) → List ((Number × JsString) × Nat)
  | [] => [(key, 1)]
  | (key', n) :: gs => if key' = key then (key', n + 1) :: gs else (key', n) :: bump key gs

/-- `(group-by (juxt :seq :cid) ok)`, with the sizes of the groups. -/
def groups (ok : List (Number × JsString)) : List ((Number × JsString) × Nat) :=
  ok.foldl (fun gs key => bump key gs) []

/-- `:status`, with what the callers read of the rest. -/
inductive Verdict where
  | verified (seq : Number) (cid : JsString)
  | split
  | absent
  | unmeasured (verified : Nat)
deriving DecidableEq

/-- `verdict`. -/
def verdict (results : List Report) (minAgree : Nat) : Verdict :=
  let ok := results.filterMap Report.head?
  let gs := groups ok
  match (gs.insertionSort fun g g' => g.2 ≤ g'.2).getLast?.filter fun g => minAgree ≤ g.2 with
  | some ((seq, cid), _) => .verified seq cid
  | none =>
    if 1 < gs.length then .split
    else if ok = [] ∧ minAgree ≤ (results.filter (· = .noHead)).length then .absent
    else .unmeasured ok.length

/-- How `submit` ends. -/
inductive Outcome where
  | committed
  | heldBy (seq : Number) (cid : JsString)
  | headAt (seq : Number)
  | gaveUp (submissions : Nat)
  | usage
  | killed
deriving DecidableEq

/-- The exit code; a process killed by its caller's timeout counts as 99. -/
def Outcome.code : Outcome → Int
  | committed => 0
  | heldBy _ _ => 1
  | headAt _ => 1
  | usage => 1
  | gaveUp _ => 3
  | killed => 99

/-- The last line of standard output when nothing was committed. -/
def Outcome.line : Outcome → JsString
  | committed => []
  | heldBy seq cid => js "REFUSE seq " ++ numStr seq ++ js " is held by " ++ cid
  | headAt seq => js "REFUSE head already at seq " ++ numStr seq
  | gaveUp n => js "UNMEASURED gave up after " ++ natStr n ++ js " submissions"
  | usage => js "REFUSE usage: submit <ledger> <seq> <manifest-cid>"
  | killed => []

/-- `settle`: `none` is another poll, or another submission. -/
def settle (seq : Number) (cid : JsString) : Verdict → Option Outcome
  | .verified seq' cid' =>
    if seq = seq' ∧ cid = cid' then some .committed
    else if cid ≠ cid' ∧ seq = seq' then some (.heldBy seq cid')
    else if seq.lt seq' then some (.headAt seq')
    else none
  | _ => none

/-- Polls after one submission, and submissions. -/
def pollsPerSubmission : Nat := 40

def submissions : Nat := 13

/-- The arguments `submit` takes: a natural number and a CID. -/
def validArgs (seq : Number) (cid : JsString) : Bool :=
  (match seq with
    | .int n => decide (0 ≤ n)
    | _ => false) && graphRe cid

/-! ## Verdicts are reported -/

theorem mem_bump {key : Number × JsString} {gs : List ((Number × JsString) × Nat)}
    {g : (Number × JsString) × Nat} (h : g ∈ bump key gs) : g.1 = key ∨ ∃ g' ∈ gs, g'.1 = g.1 := by
  induction gs with
  | nil =>
    obtain rfl := List.mem_singleton.mp h
    exact .inl rfl
  | cons g' gs ih =>
    simp only [bump] at h
    split at h
    · rename_i hk
      rcases List.mem_cons.mp h with rfl | h
      · exact .inl hk
      · exact .inr ⟨g, List.mem_cons_of_mem _ h, rfl⟩
    · rcases List.mem_cons.mp h with rfl | h
      · exact .inr ⟨_, List.mem_cons_self .., rfl⟩
      · rcases ih h with h | ⟨g'', hg, he⟩
        · exact .inl h
        · exact .inr ⟨g'', List.mem_cons_of_mem _ hg, he⟩

theorem mem_groups {ok : List (Number × JsString)} {g : (Number × JsString) × Nat}
    (h : g ∈ groups ok) : g.1 ∈ ok := by
  have key : ∀ (ok : List (Number × JsString)) (gs : List ((Number × JsString) × Nat)),
      g ∈ ok.foldl (fun gs key => bump key gs) gs → g.1 ∈ ok ∨ ∃ g' ∈ gs, g'.1 = g.1 := by
    intro ok
    induction ok with
    | nil => exact fun gs h => .inr ⟨g, h, rfl⟩
    | cons k ok ih =>
      intro gs h
      rcases ih _ h with h | ⟨g', hg, he⟩
      · exact .inl (List.mem_cons_of_mem _ h)
      · rcases mem_bump hg with hk | ⟨g'', hg, he'⟩
        · exact .inl (by rw [← he, hk]; exact List.mem_cons_self ..)
        · exact .inr ⟨g'', hg, he'.trans he⟩
  rcases key ok [] h with h | ⟨g', hg, -⟩
  · exact h
  · cases hg

/-- **A verified head is one that a witness has reported.** -/
theorem verdict_verified {results : List Report} {minAgree : Nat} {seq : Number} {cid : JsString}
    (h : verdict results minAgree = .verified seq cid) : Report.head seq cid ∈ results := by
  unfold verdict at h
  simp only at h
  split at h
  · rename_i seq' cid' n hlast
    cases h
    obtain ⟨hlast, -⟩ := Option.filter_eq_some_iff.mp hlast
    have hmem := List.mem_of_getLast? hlast
    have := mem_groups (List.mem_insertionSort _ |>.mp hmem)
    obtain ⟨r, hr, hhead⟩ := List.mem_filterMap.mp this
    cases r <;> simp_all [Report.head?]
  · split_ifs at h

/-- What settling says about the reported head. -/
theorem settle_eq_some {seq : Number} {cid : JsString} {v : Verdict} {o : Outcome}
    (h : settle seq cid v = some o) :
    (o = .committed ∧ v = .verified seq cid) ∨
    (∃ cid', o = .heldBy seq cid' ∧ v = .verified seq cid' ∧ cid' ≠ cid) ∨
    ∃ seq' cid', o = .headAt seq' ∧ v = .verified seq' cid' ∧ seq.lt seq' = true := by
  cases v with
  | verified seq' cid' =>
    simp only [settle] at h
    split_ifs at h with h₁ h₂ h₃
    · obtain ⟨rfl, rfl⟩ := h₁
      exact .inl ⟨(Option.some.inj h).symm, rfl⟩
    · obtain ⟨hc, rfl⟩ := h₂
      exact .inr (.inl ⟨cid', (Option.some.inj h).symm, rfl, Ne.symm hc⟩)
    · exact .inr (.inr ⟨seq', cid', (Option.some.inj h).symm, rfl, h₃⟩)
  | split => cases h
  | absent => cases h
  | unmeasured n => cases h

end LakeHead
