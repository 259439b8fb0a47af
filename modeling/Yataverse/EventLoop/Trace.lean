import Yataverse.EventLoop.Run

/-!
# Traces: what happened between two moments of a run

A statement such as "at some moment between its arrival and its answer" is about the
steps of a run, not only about where it ends.

- `Loop.Trace`: a run with its labels, each step meeting a condition.
- `Loop.Trace.moment`: where a quantity of the world grows by at most one a step, every
  value between those at a request's arrival and at the end is taken at some moment at
  which the request is in flight.
-/

namespace EventLoop

open Function

namespace Loop

variable {ι S E C X : Type} {R : C → Type} {ε α : Type} [DecidableEq ι]

/-- `c` goes to the last configuration by the labels, each step meeting `P`. -/
inductive Trace (M : Loop ι S E C X R ε α) (P : Cfg ι S E C R ε α → Label ι X → Prop) :
    Cfg ι S E C R ε α → List (Label ι X) → Cfg ι S E C R ε α → Prop where
  | nil {c : Cfg ι S E C R ε α} : Trace M P c [] c
  | cons {c c' c'' : Cfg ι S E C R ε α} {l : Label ι X} {ls : List (Label ι X)} :
      P c l → M.step c l = some c' → Trace M P c' ls c'' → Trace M P c (l :: ls) c''

variable {M : Loop ι S E C X R ε α} {P : Cfg ι S E C R ε α → Label ι X → Prop}
  {c c' : Cfg ι S E C R ε α} {l : Label ι X} {ls : List (Label ι X)} {i : ι}

/-- Request `i` is in flight only when it was before the step, or arrives with it. -/
theorem inFlight_of_step (hs : M.step c l = some c') (hn : c.phase i ≠ .unborn)
    (h : (c'.phase i).inFlight = true) : (c.phase i).inFlight = true := by
  by_contra hc
  have hkeep : ∀ (c₀ : Cfg ι S E C R ε α) (j : ι) (p : Phase S C R ε α), c₀.phase = c.phase →
      (c.phase j).inFlight = true ∨ c.phase j = .unborn →
      (update c₀.phase j p i).inFlight = (c.phase i).inFlight := by
    intro c₀ j p hph hj
    rw [hph, update_of_ne]
    rintro rfl
    rcases hj with hj | hj
    · exact hc hj
    · exact hn hj
  cases l with
  | arrive j =>
    obtain ⟨hu, rfl⟩ := step_arrive hs
    rw [afterTurn, hkeep (arrival c j) j _ rfl (.inr hu)] at h
    exact hc h
  | turn j =>
    obtain ⟨t, ht, rfl⟩ := step_turn hs
    rw [afterTurn, hkeep c j _ rfl (.inl (by rw [ht]; rfl))] at h
    exact hc h
  | serve j x =>
    obtain ⟨cmd, k, r, e', hw, -, rfl⟩ := step_serve hs
    rw [hkeep c j _ rfl (.inl (by rw [hw]; rfl))] at h
    exact hc h
  | tick x =>
    obtain ⟨e', -, rfl⟩ := step_tick hs
    exact hc h
  | kill j =>
    obtain ⟨hj, rfl⟩ := step_kill hs
    rw [hkeep c j _ rfl (.inl hj)] at h
    exact hc h

omit [DecidableEq ι] in
theorem ofStop_born (st : Task.Stop S C R ε α) : Phase.ofStop st ≠ .unborn := by
  rintro _
  cases st <;> contradiction

theorem afterTurn_born {t : Task S C R ε α} : (afterTurn c i t).phase i ≠ .unborn := by
  simpa [afterTurn] using ofStop_born _

/-- A request in flight is answered by a turn of its own. -/
theorem turn_of_done {r : Except ε α} (hs : M.step c l = some c')
    (hf : (c.phase i).inFlight = true) (h : c'.phase i = .done r) : l = .turn i := by
  have hkeep : ∀ (c₀ : Cfg ι S E C R ε α) (j : ι) (p : Phase S C R ε α), c₀.phase = c.phase →
      (∀ r', p ≠ .done r') → update c₀.phase j p i ≠ .done r := by
    intro c₀ j p hph hp
    rw [hph]
    by_cases hj : i = j
    · subst hj
      rw [update_self]
      exact hp r
    · rw [update_of_ne hj]
      intro hd
      rw [hd] at hf
      cases hf
  cases l with
  | arrive j =>
    obtain ⟨hu, rfl⟩ := step_arrive hs
    have hj : i ≠ j := by
      rintro rfl
      rw [hu] at hf
      cases hf
    have h : c.phase i = .done r := by simpa [afterTurn, Loop.arrival, hj] using h
    rw [h] at hf
    cases hf
  | turn j =>
    by_cases hj : i = j
    · rw [hj]
    · obtain ⟨t, -, rfl⟩ := step_turn hs
      have h : c.phase i = .done r := by simpa [afterTurn, hj] using h
      rw [h] at hf
      cases hf
  | serve j x =>
    obtain ⟨cmd, k, r', e', -, -, rfl⟩ := step_serve hs
    exact absurd h (hkeep c j _ rfl fun r he => by cases he)
  | tick x =>
    obtain ⟨e', -, rfl⟩ := step_tick hs
    rw [h] at hf
    cases hf
  | kill j =>
    obtain ⟨-, rfl⟩ := step_kill hs
    exact absurd h (hkeep c j _ rfl fun r he => by cases he)

/-- A request stays born, and the record of its arrival stays. -/
theorem born_of_step (hs : M.step c l = some c') (hn : c.phase i ≠ .unborn) :
    c'.phase i ≠ .unborn ∧ c'.arrived i = c.arrived i := by
  have hkeep : ∀ (c₀ : Cfg ι S E C R ε α) (j : ι) (p : Phase S C R ε α), c₀.phase = c.phase →
      p ≠ .unborn → update c₀.phase j p i ≠ .unborn := by
    intro c₀ j p hph hp
    rw [hph]
    by_cases hj : i = j
    · subst hj
      rwa [update_self]
    · rwa [update_of_ne hj]
  cases l with
  | arrive j =>
    obtain ⟨hu, rfl⟩ := step_arrive hs
    refine ⟨hkeep (arrival c j) j _ rfl (ofStop_born _), update_of_ne ?_ _ _⟩
    rintro rfl
    exact hn hu
  | turn j =>
    obtain ⟨t, -, rfl⟩ := step_turn hs
    exact ⟨hkeep c j _ rfl (ofStop_born _), rfl⟩
  | serve j x =>
    obtain ⟨cmd, k, r, e', -, -, rfl⟩ := step_serve hs
    exact ⟨hkeep c j _ rfl nofun, rfl⟩
  | tick x =>
    obtain ⟨e', -, rfl⟩ := step_tick hs
    exact ⟨hn, rfl⟩
  | kill j =>
    obtain ⟨-, rfl⟩ := step_kill hs
    exact ⟨hkeep c j _ rfl nofun, rfl⟩

/-- A request that is not born by a step has left no record of an arrival. -/
theorem unborn_of_step (hs : M.step c l = some c') (hn : c.phase i = .unborn)
    (hl : ∀ j, l = .arrive j → j ≠ i) : c'.phase i = .unborn ∧ c'.arrived i = c.arrived i := by
  have hkeep : ∀ (c₀ : Cfg ι S E C R ε α) (j : ι) (p : Phase S C R ε α), c₀.phase = c.phase →
      j ≠ i → update c₀.phase j p i = .unborn := by
    intro c₀ j p hph hj
    rw [hph, update_of_ne (Ne.symm hj), hn]
  have hborn : ∀ j, c.phase j ≠ .unborn → j ≠ i := by
    rintro j hj rfl
    exact hj hn
  cases l with
  | arrive j =>
    obtain ⟨-, rfl⟩ := step_arrive hs
    exact ⟨hkeep (arrival c j) j _ rfl (hl j rfl), update_of_ne (Ne.symm (hl j rfl)) _ _⟩
  | turn j =>
    obtain ⟨t, ht, rfl⟩ := step_turn hs
    exact ⟨hkeep c j _ rfl (hborn j (by simp [ht])), rfl⟩
  | serve j x =>
    obtain ⟨cmd, k, r, e', hw, -, rfl⟩ := step_serve hs
    exact ⟨hkeep c j _ rfl (hborn j (by simp [hw])), rfl⟩
  | tick x =>
    obtain ⟨e', -, rfl⟩ := step_tick hs
    exact ⟨hn, rfl⟩
  | kill j =>
    obtain ⟨hj, rfl⟩ := step_kill hs
    refine ⟨hkeep c j _ rfl (hborn j fun h => ?_), rfl⟩
    rw [h] at hj
    cases hj

namespace Trace

theorem reaches (h : Trace M P c ls c') : M.Reaches P c c' := by
  induction h with
  | nil => exact .refl
  | cons hp hs _ ih => exact (Reaches.refl.tail hp hs).trans ih

theorem mono {Q : Cfg ι S E C R ε α → Label ι X → Prop} (hPQ : ∀ c l, P c l → Q c l)
    (h : Trace M P c ls c') : Trace M Q c ls c' := by
  induction h with
  | nil => exact .nil
  | cons hp hs _ ih => exact .cons (hPQ _ _ hp) hs ih

theorem run (h : Trace M P c ls c') : M.run c ls = some c' := by
  induction h with
  | nil => rfl
  | cons _ hs _ ih => rw [run_cons, hs, Option.bind_some, ih]

/-- In a trace, request `i` is in flight from its arrival to the last moment at which
it is. -/
theorem inFlight (h : Trace M P c ls c') (hn : c.phase i ≠ .unborn)
    (hf : (c'.phase i).inFlight = true) : (c.phase i).inFlight = true := by
  induction h with
  | nil => exact hf
  | cons _ hs _ ih => exact inFlight_of_step hs hn (ih (born_of_step hs hn).1 hf)

theorem born (h : Trace M P c ls c') (hn : c.phase i ≠ .unborn) :
    c'.phase i ≠ .unborn ∧ c'.arrived i = c.arrived i := by
  induction h with
  | nil => exact ⟨hn, rfl⟩
  | cons _ hs _ ih =>
    obtain ⟨h₁, h₂⟩ := born_of_step hs hn
    obtain ⟨h₃, h₄⟩ := ih h₁
    exact ⟨h₃, h₄.trans h₂⟩

/-- The moment of an arrival: what is recorded of it is the world at that moment. -/
theorem arrival (h : Trace M P c ls c') (hn : c.phase i = .unborn) (hb : c'.phase i ≠ .unborn) :
    ∃ ls₁ ls₂ c₁ c₂, ls = ls₁ ++ ls₂ ∧ Trace M P c ls₁ c₂ ∧ Trace M P c₂ ls₂ c' ∧
      M.step c₁ (.arrive i) = some c₂ ∧ c'.arrived i = some c₁.world := by
  induction h with
  | nil => exact absurd hn hb
  | @cons c c₁ c'' l ls hp hs h ih =>
    by_cases hl : l = .arrive i
    · subst hl
      obtain ⟨-, rfl⟩ := step_arrive hs
      refine ⟨[.arrive i], ls, c, _, rfl, .cons hp hs .nil, h, hs, ?_⟩
      rw [(h.born afterTurn_born).2]
      exact update_self ..
    · obtain ⟨h₁, -⟩ := unborn_of_step hs hn fun j hj hji => hl (hji ▸ hj)
      obtain ⟨ls₁, ls₂, d₁, d₂, rfl, ht₁, ht₂, hstep, ha⟩ := ih h₁ hb
      exact ⟨l :: ls₁, ls₂, d₁, d₂, rfl, .cons hp hs ht₁, ht₂, hstep, ha⟩

theorem append {c'' : Cfg ι S E C R ε α} {ls' : List (Label ι X)} (h : Trace M P c ls c')
    (h' : Trace M P c' ls' c'') : Trace M P c (ls ++ ls') c'' := by
  induction h with
  | nil => exact h'
  | cons hp hs _ ih => exact .cons hp hs (ih h')

/-- A run is a trace where the condition follows from what its labels keep. -/
theorem of_run {Q : Cfg ι S E C R ε α → Prop} {p : Label ι X → Bool}
    (hkeep : ∀ c l c', Q c → p l = true → M.step c l = some c' → Q c')
    (hP : ∀ c l, Q c → p l = true → P c l) : ∀ {ls : List (Label ι X)} {c c' : Cfg ι S E C R ε α},
      Q c → ls.all p = true → M.run c ls = some c' → Trace M P c ls c'
  | [], c, c', _, _, h => by
    obtain rfl : c = c' := by simpa using h
    exact .nil
  | l :: ls, c, c', hq, hall, h => by
    obtain ⟨hl, hall⟩ := Bool.and_eq_true_iff.mp hall
    obtain ⟨c₁, h₁, h₂⟩ := Option.bind_eq_some_iff.mp h
    exact .cons (hP c l hq hl) h₁ (of_run hkeep hP (hkeep c l c₁ hq hl h₁) hall h₂)

/-- A quantity that grows by at most one a step takes every value on its way. -/
theorem takes {f : Cfg ι S E C R ε α → Nat}
    (hf : ∀ c c' l, M.step c l = some c' → f c' ≤ f c + 1) (h : Trace M P c ls c') {n : Nat}
    (h₁ : f c ≤ n) (h₂ : n ≤ f c') : ∃ ls₁ ls₂ c₁, ls = ls₁ ++ ls₂ ∧ Trace M P c ls₁ c₁ ∧
      Trace M P c₁ ls₂ c' ∧ f c₁ = n := by
  induction h with
  | nil => exact ⟨[], [], _, rfl, .nil, .nil, by omega⟩
  | @cons c c₁ c'' l ls hp hs h ih =>
    by_cases hn : f c = n
    · exact ⟨[], l :: ls, c, rfl, .nil, .cons hp hs h, hn⟩
    · have := hf _ _ _ hs
      obtain ⟨ls₁, ls₂, d, rfl, ht₁, ht₂, hd⟩ := ih (by omega) h₂
      exact ⟨l :: ls₁, ls₂, d, rfl, .cons hp hs ht₁, ht₂, hd⟩

/-- **Moments of a request**: where a quantity of the world grows by at most one a step,
every value between those at the arrival of a request and at the end is taken at some
moment at which the request is in flight. -/
theorem moment {s : S} {e : E} {f : E → Nat}
    (hf : ∀ c c' l, M.step c l = some c' → f c'.env ≤ f c.env + 1)
    (h : Trace M P (.start s e) ls c') (hc : (c'.phase i).inFlight = true) {w : S × E}
    (ha : c'.arrived i = some w) {n : Nat} (h₁ : f w.2 ≤ n) (h₂ : n ≤ f c'.env) :
    ∃ ls₁ ls₂ c₁, ls = ls₁ ++ ls₂ ∧ Trace M P (.start s e) ls₁ c₁ ∧ Trace M P c₁ ls₂ c' ∧
      (c₁.phase i).inFlight = true ∧ f c₁.env = n := by
  have hb : c'.phase i ≠ .unborn := by
    intro hu
    rw [hu] at hc
    cases hc
  obtain ⟨ls₁, ls₂, d, d', rfl, ht₁, ht₂, hstep, hw⟩ := h.arrival rfl hb
  obtain rfl : w = d.world := Option.some.inj (ha.symm.trans hw)
  obtain ⟨-, hd'⟩ := step_arrive hstep
  have hborn : d'.phase i ≠ .unborn := by
    rw [hd']
    exact afterTurn_born
  have henv : f d'.env ≤ n := by
    rw [hd']
    exact h₁
  obtain ⟨ls₃, ls₄, c₁, rfl, ht₃, ht₄, hn⟩ := ht₂.takes (f := fun c => f c.env) hf henv h₂
  exact ⟨ls₁ ++ ls₃, ls₄, c₁, by simp, ht₁.append ht₃, ht₄,
    ht₄.inFlight (ht₃.born hborn).1 hc, hn⟩

end Trace

end Loop

end EventLoop
