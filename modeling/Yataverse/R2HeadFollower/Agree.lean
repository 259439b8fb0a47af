import Yataverse.R2HeadFollower.Follow

/-!
# What a projection reports

The loop of `attempt` ends where a pair is no longer `inga-ahead`, or with the fourth pair behind three writes. Both
ends are reported as `PROJECTED` with exit 0; the class of the pair that ended the loop is not looked at.

- `Truthful`: what the exit codes promise of a pass.
- `EndsAt`, `Settles`: the pair at which the answers let the loop end, and that it agrees.
- `attempt_ok`, `attempt_error`, `attempt_of_endsAt`: the loop against the answers.
- **`oneGraph_truthful_iff`**: a pass keeps the promise exactly where every end of the loop agrees.
-/

namespace R2HeadFollower

open Js

/-! ## The promise -/

/-- The last pair that was compared. -/
def lastPair (log : List Event) : Option (Option Json × Option Json) :=
  (log.filterMap fun
    | .compared inga r2 => some (inga, r2)
    | .put _ => none).getLast?

/-- R2 never goes backwards, `PROJECTED` with exit 0 says that the last pair agrees, and a last pair that is
`diverged` or `r2-ahead` gives exit 1. -/
structure Truthful (coerced : Coerced) (out : Answer × List Event) : Prop where
  forward : Forward coerced out.2
  agreed : ∀ graph inga r2, out.1.line = .projected graph inga r2 → out.1.exit = 0 →
    ∃ p, lastPair out.2 = some p ∧ classOf coerced p = .agree
  refused : ∀ p, lastPair out.2 = some p → classOf coerced p = .diverged ∨ classOf coerced p = .r2Ahead →
    out.1.exit = 1

/-! ## The end of the loop -/

/-- The answers bring the loop to its end at the `k`-th pair, of class `c`. -/
structure EndsAt (coerced : Coerced) (answers : Answers) (k : Nat) (c : Class) : Prop where
  ahead : ∀ j < k, ∃ p, answers.pair j = .ok p ∧ classOf coerced p = .ingaAhead
  written : ∀ j, j + 1 < k → answers.put j = .ok ()
  reached : ∃ p, answers.pair k = .ok p ∧ classOf coerced p = c
  retry : 1 ≤ k
  done : k = 4 ∨ k < 4 ∧ c ≠ .ingaAhead

/-- Wherever the loop may end, the pair agrees. -/
def Settles (coerced : Coerced) (answers : Answers) : Prop := ∀ k c, EndsAt coerced answers k c → c = .agree

variable {coerced : Coerced} {answers : Answers} {log log' : List Event} {left n k : Nat} {c : Class} {e : String}
  {p : Option Json × Option Json}

@[simp] theorem lastPair_compared (log : List Event) (inga r2 : Option Json) :
    lastPair (log ++ [.compared inga r2]) = some (inga, r2) := by
  simp [lastPair]

@[simp] theorem lastPair_put (log : List Event) (record : Option Json) :
    lastPair (log ++ [.put record]) = lastPair log := by
  simp [lastPair]

/-- The loop ends at one pair only. -/
theorem EndsAt.unique {k' : Nat} {c' : Class} (h : EndsAt coerced answers k c) (h' : EndsAt coerced answers k' c') :
    k = k' := by
  have hnot {k k' : Nat} {c c' : Class} (h : EndsAt coerced answers k c) (h' : EndsAt coerced answers k' c') :
      ¬ k < k' := by
    intro hlt
    obtain ⟨p, hp, hc⟩ := h.reached
    obtain ⟨q, hq, hahead⟩ := h'.ahead k hlt
    obtain rfl := Except.ok.inj (hp.symm.trans hq)
    rcases h.done with hk | ⟨-, hne⟩
    · have := h'.done
      omega
    · exact hne (hc.symm.trans hahead)
  exact Nat.le_antisymm (Nat.not_lt.mp (hnot h' h)) (Nat.not_lt.mp (hnot h h'))

/-- A loop that does not fail has come to its end. -/
theorem attempt_ok (hleft : n + left = 3)
    (hahead : ∀ j < n + 1, ∃ p, answers.pair j = .ok p ∧ classOf coerced p = .ingaAhead)
    (hwritten : ∀ j < n, answers.put j = .ok ()) (h : attempt coerced answers left n log = (.ok (), log')) :
    ∃ k p, EndsAt coerced answers k (classOf coerced p) ∧ lastPair log' = some p := by
  induction left generalizing n log with
  | zero =>
    rw [attempt_zero] at h
    rcases pair_cases answers (n + 1) log with ⟨e, -, hlog⟩ | ⟨inga, r2, hp, hlog⟩
    · rw [hlog] at h
      cases (Prod.mk.inj h).1
    · rw [hlog] at h
      obtain rfl := (Prod.mk.inj h).2
      exact ⟨n + 1, (inga, r2),
        ⟨hahead, fun j hj => hwritten j (by omega), ⟨_, hp, rfl⟩, by omega, .inl (by omega)⟩, lastPair_compared ..⟩
  | succ left ih =>
    rw [attempt_succ] at h
    rcases hp : answers.pair (n + 1) with e | ⟨i2, r2⟩
    · rw [hp] at h
      cases (Prod.mk.inj h).1
    · rw [hp] at h
      dsimp only at h
      split_ifs at h with hc
      · cases hput : answers.put n with
        | error e =>
          rw [hput] at h
          cases (Prod.mk.inj h).1
        | ok u =>
          rw [hput] at h
          refine ih (by omega) ?_ ?_ h
          · intro j hj
            rcases Nat.lt_succ_iff_lt_or_eq.mp hj with hlt | rfl
            · exact hahead j hlt
            · exact ⟨_, hp, hc⟩
          · intro j hj
            rcases Nat.lt_succ_iff_lt_or_eq.mp hj with hlt | rfl
            · exact hwritten j hlt
            · exact hput
      · obtain rfl := (Prod.mk.inj h).2
        exact ⟨n + 1, (i2, r2),
          ⟨hahead, fun j hj => hwritten j (by omega), ⟨_, hp, rfl⟩, by omega, .inr ⟨by omega, hc⟩⟩,
          lastPair_compared ..⟩

/-- A loop that fails has compared no pair behind one that is `inga-ahead`. -/
theorem attempt_error (hlast : lastPair log = some p) (hahead : classOf coerced p = .ingaAhead)
    (h : attempt coerced answers left n log = (.error e, log')) :
    ∃ p, lastPair log' = some p ∧ classOf coerced p = .ingaAhead := by
  induction left generalizing n log p with
  | zero =>
    rw [attempt_zero] at h
    rcases pair_cases answers (n + 1) log with ⟨e, -, hlog⟩ | ⟨inga, r2, -, hlog⟩
    · rw [hlog] at h
      obtain rfl := (Prod.mk.inj h).2
      exact ⟨p, hlast, hahead⟩
    · rw [hlog] at h
      cases (Prod.mk.inj h).1
  | succ left ih =>
    rw [attempt_succ] at h
    rcases hp : answers.pair (n + 1) with e | ⟨i2, r2⟩
    · rw [hp] at h
      obtain rfl := (Prod.mk.inj h).2
      exact ⟨p, hlast, hahead⟩
    · rw [hp] at h
      dsimp only at h
      split_ifs at h with hc
      · have hlast' : lastPair (log ++ [.compared i2 r2] ++ [.put i2]) = some (i2, r2) := by
          rw [lastPair_put, lastPair_compared]
        cases hput : answers.put n with
        | error e =>
          rw [hput] at h
          obtain rfl := (Prod.mk.inj h).2
          exact ⟨_, hlast', hc⟩
        | ok u =>
          rw [hput] at h
          exact ih hlast' hc h
      · cases (Prod.mk.inj h).1

/-- The loop comes to the end that the answers have. -/
theorem attempt_of_endsAt (hleft : n + left = 3) (hk : n < k) (hend : EndsAt coerced answers k c)
    (hp : answers.pair k = .ok p) (log : List Event) :
    ∃ log', attempt coerced answers left n log = (.ok (), log') ∧ lastPair log' = some p := by
  have hlast : k = n + 1 → answers.pair (n + 1) = .ok p := by
    rintro rfl
    exact hp
  induction left generalizing n log with
  | zero =>
    have hpair := hlast (by have := hend.done; omega)
    rw [attempt_zero]
    rcases pair_cases answers (n + 1) log with ⟨e, herr, -⟩ | ⟨inga, r2, hok, hlog⟩
    · cases herr.symm.trans hpair
    · obtain rfl := Except.ok.inj (hok.symm.trans hpair)
      rw [hlog]
      exact ⟨_, rfl, lastPair_compared ..⟩
  | succ left ih =>
    rw [attempt_succ]
    rcases Nat.lt_or_eq_of_le (Nat.succ_le_of_lt hk) with hlt | heq
    · obtain ⟨⟨i2, r2⟩, hpair, hahead⟩ := hend.ahead (n + 1) hlt
      have hput := hend.written n hlt
      rw [hpair]
      dsimp only
      rw [if_pos hahead, hput]
      refine ih (by omega) hlt _ ?_
      rintro rfl
      exact hp
    · have hpair := hlast heq.symm
      obtain ⟨q, hq, hc⟩ := hend.reached
      obtain rfl := Except.ok.inj (hp.symm.trans hq)
      have hne : classOf coerced p ≠ .ingaAhead := by
        rw [hc]
        rcases hend.done with hfour | ⟨-, hne⟩
        · omega
        · exact hne
      rw [hpair]
      dsimp only
      rw [if_neg hne]
      exact ⟨_, rfl, lastPair_compared ..⟩

/-! ## The report -/

/-- The loop behind a first pair that is `inga-ahead`. -/
theorem attempt_start {inga r2 : Option Json} (hfirst : answers.pair 0 = .ok (inga, r2))
    (hahead : classOf coerced (inga, r2) = .ingaAhead)
    (h : attempt coerced answers 3 0 [.compared inga r2] = (.ok (), log)) :
    ∃ k p, EndsAt coerced answers k (classOf coerced p) ∧ lastPair log = some p := by
  refine attempt_ok rfl ?_ ?_ h
  · intro j hj
    obtain rfl := Nat.lt_one_iff.mp hj
    exact ⟨_, hfirst, hahead⟩
  · intro j hj
    exact absurd hj (Nat.not_lt_zero j)

/-- `PROJECTED` with exit 0, where the answers settle. -/
theorem agreed_of_settles (hsettles : Settles coerced answers) {graph g : JsString} {inga r2 : Option Json}
    (hline : (oneGraph coerced answers true true graph).1.line = .projected g inga r2) :
    ∃ p, lastPair (oneGraph coerced answers true true graph).2 = some p ∧ classOf coerced p = .agree := by
  rw [oneGraph_eq] at hline ⊢
  rcases hfirst : answers.pair 0 with e | ⟨i, r⟩
  · rw [hfirst] at hline
    cases hline
  rw [hfirst] at hline
  dsimp only at hline ⊢
  by_cases hahead : classOf coerced (i, r) = .ingaAhead ∧ true = true
  · rw [if_pos hahead] at hline ⊢
    rcases hloop : attempt coerced answers 3 0 [.compared i r] with ⟨e | u, log⟩
    · rw [hloop] at hline
      cases hline
    · obtain ⟨k, p, hend, hlast⟩ := attempt_start hfirst hahead.1 hloop
      exact ⟨p, hlast, hsettles k _ hend⟩
  · rw [if_neg hahead] at hline
    cases hline

/-- A last pair that is `diverged` or `r2-ahead`, where the answers settle: it was the first one. -/
theorem refused_of_settles (hsettles : Settles coerced answers) {graph : JsString}
    (hlast : lastPair (oneGraph coerced answers true true graph).2 = some p)
    (hclass : classOf coerced p = .diverged ∨ classOf coerced p = .r2Ahead) :
    (oneGraph coerced answers true true graph).1.exit = 1 := by
  have hne : classOf coerced p ≠ .agree ∧ classOf coerced p ≠ .ingaAhead := by
    rcases hclass with hc | hc <;> rw [hc] <;> exact ⟨by decide, by decide⟩
  rw [oneGraph_eq] at hlast ⊢
  rcases hfirst : answers.pair 0 with e | ⟨i, r⟩
  · rw [hfirst] at hlast
    cases hlast
  rw [hfirst] at hlast
  dsimp only at hlast ⊢
  by_cases hahead : classOf coerced (i, r) = .ingaAhead ∧ true = true
  · rw [if_pos hahead] at hlast
    rcases hloop : attempt coerced answers 3 0 [.compared i r] with ⟨e | u, log⟩
    · rw [hloop] at hlast
      obtain ⟨q, hq, hc⟩ := attempt_error (lastPair_compared [] i r) hahead.1 hloop
      obtain rfl := Option.some.inj (hlast.symm.trans hq)
      exact absurd hc hne.2
    · rw [hloop] at hlast
      obtain ⟨k, q, hend, hq⟩ := attempt_start hfirst hahead.1 hloop
      obtain rfl := Option.some.inj (hlast.symm.trans hq)
      exact absurd (hsettles k _ hend) hne.1
  · rw [if_neg hahead] at hlast ⊢
    obtain rfl := Option.some.inj hlast
    rcases hclass with hc | hc
    · exact if_pos (.inl hc)
    · exact if_pos (.inr ⟨hc, rfl⟩)

/-- **A pass with `--project` and `--cutover` keeps the promise** of its exit codes exactly where every pair at which
the answers let the loop end agrees. -/
theorem oneGraph_truthful_iff (coerced : Coerced) (answers : Answers) (graph : JsString) :
    Truthful coerced (oneGraph coerced answers true true graph) ↔ Settles coerced answers := by
  constructor
  · intro h k c hend
    obtain ⟨⟨i, r⟩, hfirst, hahead⟩ := hend.ahead 0 hend.retry
    obtain ⟨p, hp, hc⟩ := hend.reached
    have hleft : 0 + 3 = 3 := rfl
    obtain ⟨log, hloop, hlast⟩ := attempt_of_endsAt hleft hend.retry hend hp [.compared i r]
    rw [oneGraph_eq, hfirst] at h
    dsimp only at h
    rw [if_pos ⟨hahead, rfl⟩, hloop] at h
    obtain ⟨q, hq, hagree⟩ := h.agreed _ _ _ rfl rfl
    obtain rfl := Option.some.inj (hlast.symm.trans hq)
    exact hc.symm.trans hagree
  · intro hsettles
    exact ⟨oneGraph_forward true true graph, fun g inga r2 hline _ => agreed_of_settles hsettles hline,
      fun p hlast hclass => refused_of_settles hsettles hlast hclass⟩

namespace Sample

/-- A head as its object. -/
def headOf (sequence : Int) (value : String) : Json :=
  .obj [(js "sequence", .num (.int sequence)), (js "value", .str (js value))]

/-- The writer holds `b` at 5. Another party writes `c` at 5 to R2 behind the first reading, where `a` was at 4. -/
def answers₀ : Answers :=
  ⟨fun _ => .ok (some (headOf 5 "b")),
    fun k => .ok (some (if k = 0 then headOf 4 "a" else headOf 5 "c")), fun _ => .ok ()⟩

/-- In the pass of `answers₀` nothing is written, the second pair is `diverged`, and it is reported as projected. -/
theorem oneGraph_not_truthful :
    ¬ ∀ coerced answers graph, Truthful coerced (oneGraph coerced answers true true graph) := by
  intro h
  obtain ⟨p, hp, hc⟩ := (h (fun _ _ => false) answers₀ (js "g")).agreed (js "g") (some (.num (.int 5)))
    (some (.num (.int 4))) rfl rfl
  obtain rfl : (some (headOf 5 "b"), some (headOf 5 "c")) = p := Option.some.inj hp
  cases hc

end Sample

end R2HeadFollower
