import Yataverse.Js.Property

/-!
# One pass of the R2 head follower

`r2_head_follower` compares the head that a writer has committed with the copy in R2, and with `--project` writes the
committed record to R2 where it is newer.

- `classify`: the five classes of a pair of heads.
- `Answers`: what the writer and R2 answer in a pass.
- `pair`, `attempt`, `oneGraph`: the pass over one graph, with the events it leaves.
- `attempt_forward`, `oneGraph_forward`: a record is only written over a lower sequence.
-/

namespace R2HeadFollower

open Js

/-! ## Classes -/

/-- `(= v w)` of two values that were parsed on their own: `null` is undefined, and an object is only equal to
itself. -/
def same : Option Json → Option Json → Bool
  | some (.bool a), some (.bool b) => a = b
  | some (.num x), some (.num y) => x = y
  | some (.str s), some (.str t) => s = t
  | v, w => v.getD .null = .null && w.getD .null = .null

/-- How `>` answers where one of the values is not a number. -/
abbrev Coerced := Option Json → Option Json → Bool

/-- `(> v w)` -/
def gt (coerced : Coerced) : Option Json → Option Json → Bool
  | some (.num x), some (.num y) => y.lt x
  | v, w => coerced v w

/-- What is compared of a head. -/
structure Head where
  sequence : Option Json
  value : Option Json

/-- `key-of`: of the JS object that was read, if one was. -/
def keyOf (head : Option Json) : Option Head :=
  match head with
  | some v => if v.truthy then some ⟨v.property (js "sequence"), v.property (js "value")⟩ else none
  | none => none

inductive Class where
  | absent
  | agree
  | diverged
  | ingaAhead
  | r2Ahead
deriving DecidableEq

/-- `classify` -/
def classify (coerced : Coerced) : (inga r2 : Option Head) → Class
  | some inga, some r2 =>
    if same inga.sequence r2.sequence then
      if same inga.value r2.value then .agree else .diverged
    else if gt coerced inga.sequence r2.sequence then .ingaAhead
    else .r2Ahead
  | _, _ => .absent

/-- The class of a pair that was read. -/
def classOf (coerced : Coerced) (p : Option Json × Option Json) : Class := classify coerced (keyOf p.1) (keyOf p.2)

/-- The first head has a higher sequence than the second. -/
def Higher (coerced : Coerced) (inga r2 : Option Json) : Prop :=
  ∃ i r, keyOf inga = some i ∧ keyOf r2 = some r ∧ gt coerced i.sequence r.sequence = true

theorem higher_of_ingaAhead {coerced : Coerced} {inga r2 : Option Json}
    (h : classOf coerced (inga, r2) = .ingaAhead) : Higher coerced inga r2 := by
  unfold classOf at h
  dsimp only at h
  cases hi : keyOf inga with
  | none =>
    rw [hi] at h
    cases h
  | some i =>
    cases hr : keyOf r2 with
    | none =>
      rw [hi, hr] at h
      cases h
    | some r =>
      rw [hi, hr, classify] at h
      refine ⟨i, r, hi, hr, ?_⟩
      split_ifs at h with _ _ hgt
      exact hgt

/-! ## The pass -/

/-- What the writer and R2 answer in a pass: the `k`-th time that they are asked. A head that is not there is
`none`. -/
structure Answers where
  /-- `inga-head` -/
  inga : Nat → Except String (Option Json)
  /-- `r2-head` -/
  r2 : Nat → Except String (Option Json)
  /-- The command of `project!`. That it succeeds does not say that R2 has changed. -/
  put : Nat → Except String Unit

inductive Event where
  /-- Both heads were read. -/
  | compared (inga r2 : Option Json)
  /-- `project!` was called. -/
  | put (record : Option Json)

/-- The line of a graph: its `detail` are the sequences of the first pair. -/
inductive Line where
  | projected (graph : JsString) (inga r2 : Option Json)
  | classified (c : Class) (graph : JsString) (inga r2 : Option Json)
  | unmeasured (graph : JsString) (message : String)
deriving DecidableEq

/-- A line and its exit code. -/
structure Answer where
  line : Line
  exit : Nat
deriving DecidableEq

/-- What is done leaves its events, also where it fails later. -/
abbrev Following := ExceptT String (StateM (List Event))

section

variable (coerced : Coerced) (answers : Answers)

/-- The heads of the `k`-th reading, the writer's before R2's. -/
def Answers.pair (k : Nat) : Except String (Option Json × Option Json) := do
  let inga ← answers.inga k
  let r2 ← answers.r2 k
  return (inga, r2)

def pair (k : Nat) : Following (Option Json × Option Json) := fun log =>
  match answers.pair k with
  | .ok (inga, r2) => (.ok (inga, r2), log ++ [.compared inga r2])
  | .error e => (.error e, log)

/-- `project!`, for the `n`-th time. -/
def project (n : Nat) (record : Option Json) : Following Unit := fun log =>
  (answers.put n, log ++ [.put record])

/-- `(attempt n)`, where `left` is `3 - n`. -/
def attempt : (left n : Nat) → Following Unit
  | 0, n => do
    let _ ← pair answers (n + 1)
  | left + 1, n => do
    let (i2, r2) ← pair answers (n + 1)
    if classOf coerced (i2, r2) = .ingaAhead then do
      project answers n i2
      attempt left (n + 1)

/-- The sequence in a line. -/
def detail (head : Option Json) : Option Json := head.bind fun v => v.property (js "sequence")

/-- `one-graph`, before its `catch`. -/
def follow (projects cutover : Bool) (graph : JsString) : Following Answer := do
  let (i, r) ← pair answers 0
  let c := classOf coerced (i, r)
  if c = .ingaAhead ∧ projects then do
    attempt coerced answers 3 0
    return ⟨.projected graph (detail i) (detail r), 0⟩
  else
    return ⟨.classified c graph (detail i) (detail r), if c = .diverged ∨ (c = .r2Ahead ∧ cutover) then 1 else 0⟩

/-- `one-graph`: the answer, and what the pass has done. -/
def oneGraph (projects cutover : Bool) (graph : JsString) : Answer × List Event :=
  match follow coerced answers projects cutover graph [] with
  | (.ok answer, log) => (answer, log)
  | (.error e, log) => (⟨.unmeasured graph e, 3⟩, log)

end

/-! ## Never backwards -/

variable {coerced : Coerced} {answers : Answers} {log log' : List Event} {α β : Type}

/-- One program after the other. -/
theorem following_bind (m : Following α) (f : α → Following β) (log : List Event) :
    (m >>= f) log = match m log with
      | (.ok a, log) => f a log
      | (.error e, log) => (.error e, log) := by
  simp only [bind, ExceptT.bind, ExceptT.mk, StateT.bind, ExceptT.bindCont]
  rcases m log with ⟨_ | a, log⟩ <;> rfl

/-- A record is only written right behind a pair in which R2's sequence is lower. -/
def Forward (coerced : Coerced) (log : List Event) : Prop :=
  ∀ before record after, log = before ++ .put record :: after →
    ∃ earlier r2, before = earlier ++ [.compared record r2] ∧ Higher coerced record r2

theorem forward_nil : Forward coerced [] := by
  rintro before record after h
  cases before <;> cases h

theorem Forward.compared (h : Forward coerced log) (inga r2 : Option Json) :
    Forward coerced (log ++ [.compared inga r2]) := by
  rintro before record after heq
  rcases List.eq_nil_or_concat after with rfl | ⟨rest, last, rfl⟩
  · cases (List.append_inj' heq rfl).2
  · rw [List.concat_eq_append, ← List.cons_append, ← List.append_assoc] at heq
    exact h before record rest (List.append_inj' heq rfl).1

theorem Forward.put {inga r2 : Option Json} (h : Forward coerced log) (hh : Higher coerced inga r2) :
    Forward coerced (log ++ [.compared inga r2] ++ [.put inga]) := by
  rintro before record after heq
  rcases List.eq_nil_or_concat after with rfl | ⟨rest, last, rfl⟩
  · obtain ⟨hbefore, hput⟩ := List.append_inj' heq rfl
    cases hput
    exact ⟨log, r2, hbefore.symm, hh⟩
  · rw [List.concat_eq_append, ← List.cons_append, ← List.append_assoc] at heq
    exact h.compared inga r2 before record rest (List.append_inj' heq rfl).1

/-- Behind a pair that could not be read, or behind one that was. -/
theorem pair_cases (answers : Answers) (k : Nat) (log : List Event) :
    (∃ e, answers.pair k = .error e ∧ pair answers k log = (.error e, log)) ∨
      ∃ inga r2, answers.pair k = .ok (inga, r2) ∧
        pair answers k log = (.ok (inga, r2), log ++ [.compared inga r2]) := by
  unfold pair
  rcases answers.pair k with e | ⟨inga, r2⟩
  · exact .inl ⟨e, rfl, rfl⟩
  · exact .inr ⟨inga, r2, rfl, rfl⟩

theorem attempt_zero (n : Nat) (log : List Event) :
    attempt coerced answers 0 n log = ((pair answers (n + 1) log).1.map fun _ => (), (pair answers (n + 1) log).2) := by
  rw [attempt, following_bind]
  rcases pair answers (n + 1) log with ⟨_ | _, _⟩ <;> rfl

/-- One more attempt. -/
theorem attempt_succ (left n : Nat) (log : List Event) :
    attempt coerced answers (left + 1) n log =
      match answers.pair (n + 1) with
      | .error e => (.error e, log)
      | .ok (i2, r2) =>
        if classOf coerced (i2, r2) = .ingaAhead then
          match answers.put n with
          | .error e => (.error e, log ++ [.compared i2 r2] ++ [.put i2])
          | .ok () => attempt coerced answers left (n + 1) (log ++ [.compared i2 r2] ++ [.put i2])
        else (.ok (), log ++ [.compared i2 r2]) := by
  rw [attempt, following_bind]
  rcases pair_cases answers (n + 1) log with ⟨e, hp, hlog⟩ | ⟨i2, r2, hp, hlog⟩
  · rw [hp, hlog]
  · rw [hp, hlog]
    dsimp only
    split_ifs with hc
    · rw [following_bind, project]
      cases answers.put n <;> rfl
    · rfl

/-- The attempts only write forwards. -/
theorem attempt_forward {left n : Nat} {r : Except String Unit} (hlog : Forward coerced log)
    (h : attempt coerced answers left n log = (r, log')) : Forward coerced log' := by
  induction left generalizing n log with
  | zero =>
    rw [attempt_zero] at h
    obtain rfl := (Prod.mk.inj h).2
    rcases pair_cases answers (n + 1) log with ⟨e, -, hpair⟩ | ⟨inga, r2, -, hpair⟩
    · rw [hpair]
      exact hlog
    · rw [hpair]
      exact hlog.compared inga r2
  | succ left ih =>
    rw [attempt_succ] at h
    rcases hpair : answers.pair (n + 1) with e | ⟨i2, r2⟩
    · rw [hpair] at h
      obtain rfl := (Prod.mk.inj h).2
      exact hlog
    · rw [hpair] at h
      dsimp only at h
      split_ifs at h with hc
      · have hput := hlog.put (higher_of_ingaAhead hc)
        cases hp : answers.put n with
        | error e =>
          rw [hp] at h
          obtain rfl := (Prod.mk.inj h).2
          exact hput
        | ok u =>
          rw [hp] at h
          exact ih hput h
      · obtain rfl := (Prod.mk.inj h).2
        exact hlog.compared i2 r2

/-- A pass over one graph. -/
theorem oneGraph_eq (projects cutover : Bool) (graph : JsString) :
    oneGraph coerced answers projects cutover graph =
      match answers.pair 0 with
      | .error e => (⟨.unmeasured graph e, 3⟩, [])
      | .ok (i, r) =>
        if classOf coerced (i, r) = .ingaAhead ∧ projects then
          match attempt coerced answers 3 0 [.compared i r] with
          | (.ok (), log) => (⟨.projected graph (detail i) (detail r), 0⟩, log)
          | (.error e, log) => (⟨.unmeasured graph e, 3⟩, log)
        else
          (⟨.classified (classOf coerced (i, r)) graph (detail i) (detail r),
            if classOf coerced (i, r) = .diverged ∨
              (classOf coerced (i, r) = .r2Ahead ∧ cutover) then 1 else 0⟩, [.compared i r]) := by
  rw [oneGraph, follow, following_bind]
  rcases pair_cases answers 0 [] with ⟨e, hp, hlog⟩ | ⟨i, r, hp, hlog⟩
  · rw [hp, hlog]
  · rw [hp, hlog, List.nil_append]
    dsimp only
    split_ifs with hc
    · rw [following_bind]
      rcases attempt coerced answers 3 0 [.compared i r] with ⟨_ | _, _⟩ <;> rfl
    · rfl
    · rfl

/-- **A pass never writes R2 backwards.** -/
theorem oneGraph_forward (projects cutover : Bool) (graph : JsString) :
    Forward coerced (oneGraph coerced answers projects cutover graph).2 := by
  rw [oneGraph_eq]
  rcases answers.pair 0 with e | ⟨i, r⟩
  · exact forward_nil
  · have hfirst : Forward coerced [.compared i r] := forward_nil.compared i r
    dsimp only
    split_ifs
    · rcases hlog : attempt coerced answers 3 0 [.compared i r] with ⟨_ | _, log⟩
      · exact attempt_forward hfirst hlog
      · exact attempt_forward hfirst hlog
    · exact hfirst
    · exact hfirst

end R2HeadFollower
