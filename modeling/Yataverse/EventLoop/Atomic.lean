import Yataverse.EventLoop.Run

/-!
# Requests that prepare, then commit in one turn

A request that only awaits answers until it holds a value, and then reads and writes the
memory without awaiting anything more, is atomic however many others run beside it.

- `Task.Gives P`: a chain that leaves the memory alone and resolves with what satisfies `P`.
- `Loop.Atomic`: each request is a preparation that leaves the memory alone, followed by
  a commit that ends in the turn it starts in.
- `Atomic.step_cases`: a step changes nothing an observer sees, or rejects a request, or
  commits one.
- `Atomic.invariant`: what every rejection and every commit preserves holds in every
  configuration reached.
-/

namespace EventLoop

open Function

variable {ι S E C X : Type} {R : C → Type} {ε α β : Type}

/-- The answers given so far. -/
def Cfg.answers (c : Cfg ι S E C R ε α) (i : ι) : Option (Except ε α) :=
  match c.phase i with
  | .done r => some r
  | _ => none

/-- The request whose step a label is. -/
def Label.request : Label ι X → Option ι
  | .arrive i => some i
  | .turn i => some i
  | .serve i _ => some i
  | .tick _ => none
  | .kill i => some i

/-! ## Preparations -/

namespace Task

/-- The chain leaves the memory alone, and resolves only with what satisfies `P`. -/
def Gives (P : β → Prop) : Task S C R ε β → Prop
  | ret b => P b
  | throw _ => True
  | get k => ∀ s, (k s).Gives P
  | upd _ _ => False
  | await _ k => ∀ r, (k r).Gives P

theorem Gives.bind {P : β → Prop} {Q : α → Prop} {t : Task S C R ε β} {f : β → Task S C R ε α}
    (ht : t.Gives P) (hf : ∀ b, P b → (f b).Gives Q) : (t.bind f).Gives Q := by
  induction t with
  | ret b => exact hf b ht
  | throw e => trivial
  | get k ih => exact fun s => ih s (ht s)
  | upd g k ih => exact ht.elim
  | await c k ih => exact fun r => ih r (ht r)

/-- The turn of a preparation followed by `f`: it awaits, is rejected, or becomes a turn
of `f` in the same memory. -/
theorem Gives.turn_bind {P : β → Prop} {u : Task S C R ε β} {f : β → Task S C R ε α}
    (h : u.Gives P) (s : S) :
    (∃ c, ∃ k : R c → Task S C R ε β,
      (u.bind f).turn s = (s, .waiting c fun r => (k r).bind f) ∧ ∀ x, (k x).Gives P) ∨
    (∃ e, (u.bind f).turn s = (s, .settled (.error e))) ∨
    ∃ b, P b ∧ (u.bind f).turn s = (f b).turn s := by
  induction u with
  | ret b => exact .inr (.inr ⟨b, h, rfl⟩)
  | throw e => exact .inr (.inl ⟨e, rfl⟩)
  | get k ih => exact ih s (h s)
  | upd g k ih => exact h.elim
  | await c k ih => exact .inl ⟨c, k, rfl, h⟩

end Task

namespace Loop

variable [DecidableEq ι] {M : Loop ι S E C X R ε α} {P : ι → β → Prop}
  {prep : ι → Task S C R ε β} {commit : ι → β → Task S C R ε α}

/-- Every request prepares a value that satisfies `P` without touching the memory, and
then commits it in one turn. -/
structure Atomic (M : Loop ι S E C X R ε α) (P : ι → β → Prop) (prep : ι → Task S C R ε β)
    (commit : ι → β → Task S C R ε α) : Prop where
  spawn : ∀ i, M.spawn i = (prep i).bind (commit i)
  gives : ∀ i, (prep i).Gives (P i)
  settles : ∀ i b s, ∃ r, ((commit i b).turn s).2 = .settled r

/-- A request in flight is still preparing. -/
def Preparing (P : ι → β → Prop) (commit : ι → β → Task S C R ε α) (i : ι) :
    Phase S C R ε α → Prop
  | .ready t => ∃ u : Task S C R ε β, u.Gives (P i) ∧ t = u.bind (commit i)
  | .waiting c k => ∃ u : R c → Task S C R ε β,
      (∀ x, (u x).Gives (P i)) ∧ k = fun x => (u x).bind (commit i)
  | _ => True

/-- The answer `r` of request `i`: a rejection that leaves the memory alone, or what its
commit gives for a value that satisfies `P`. -/
def Answers (P : ι → β → Prop) (commit : ι → β → Task S C R ε α) (i : ι) (s s' : S)
    (r : Except ε α) : Prop :=
  (s' = s ∧ ∃ e, r = .error e) ∨ ∃ b, P i b ∧ (commit i b).turn s = (s', .settled r)

namespace Atomic

/-- A turn of what is left of a request: it goes on preparing, or is answered. -/
theorem afterTurn (hM : M.Atomic P prep commit) {i : ι} {u : Task S C R ε β}
    (hu : u.Gives (P i)) {c : Cfg ι S E C R ε α} (hc : c.answers i = none)
    (hph : ∀ j, Preparing P commit j (c.phase j)) :
    (∀ j, Preparing P commit j ((Loop.afterTurn c i (u.bind (commit i))).phase j)) ∧
    (((Loop.afterTurn c i (u.bind (commit i))).mem = c.mem ∧
        (Loop.afterTurn c i (u.bind (commit i))).answers = c.answers) ∨
      ∃ r, Answers P commit i c.mem (Loop.afterTurn c i (u.bind (commit i))).mem r ∧
        (Loop.afterTurn c i (u.bind (commit i))).answers = update c.answers i (some r)) := by
  have others : ∀ p : Phase S C R ε α, Preparing P commit i p →
      ∀ j, Preparing P commit j (update c.phase i p j) := by
    intro p hp j
    by_cases hj : j = i
    · subst hj
      simpa using hp
    · simpa [hj] using hph j
  have answered : ∀ (s : S) (h : List (Event ι ε α)) (p : Phase S C R ε α),
      Cfg.answers { c with mem := s, phase := update c.phase i p, hist := h } =
        update c.answers i (match p with | .done r => some r | _ => none) := by
    intro s h p
    funext j
    by_cases hj : j = i
    · subst hj
      simp [Cfg.answers]
    · simp [Cfg.answers, hj]
  have settled : ∀ s' r, (u.bind (commit i)).turn c.mem = (s', .settled r) →
      Answers P commit i c.mem s' r →
      (∀ j, Preparing P commit j ((Loop.afterTurn c i (u.bind (commit i))).phase j)) ∧
        ∃ r, Answers P commit i c.mem (Loop.afterTurn c i (u.bind (commit i))).mem r ∧
          (Loop.afterTurn c i (u.bind (commit i))).answers = update c.answers i (some r) := by
    intro s' r ht ha
    rw [Loop.afterTurn, ht]
    exact ⟨others _ trivial, r, ha, answered ..⟩
  rcases hu.turn_bind (f := commit i) c.mem with ⟨cmd, k, ht, hk⟩ | ⟨e, ht⟩ | ⟨b, hb, ht⟩
  · rw [Loop.afterTurn, ht]
    refine ⟨others _ ⟨k, hk, rfl⟩, .inl ⟨rfl, ?_⟩⟩
    rw [answered, Phase.ofStop_waiting, ← hc, update_eq_self]
  · obtain ⟨h₁, h₂⟩ := settled _ _ ht (.inl ⟨rfl, e, rfl⟩)
    exact ⟨h₁, .inr h₂⟩
  · obtain ⟨r, hr⟩ := hM.settles i b c.mem
    have hr' : (commit i b).turn c.mem = (((commit i b).turn c.mem).1, .settled r) :=
      Prod.ext rfl hr
    obtain ⟨h₁, h₂⟩ := settled _ _ (ht.trans hr') (.inr ⟨b, hb, hr'⟩)
    exact ⟨h₁, .inr h₂⟩

/-- **One step**: what is seen of the requests stays, or one request that had no answer
gets one. -/
theorem step_cases (hM : M.Atomic P prep commit) {c c' : Cfg ι S E C R ε α} {l : Label ι X}
    (hph : ∀ j, Preparing P commit j (c.phase j)) (hs : M.step c l = some c') :
    (∀ j, Preparing P commit j (c'.phase j)) ∧
    ((c'.mem = c.mem ∧ c'.answers = c.answers) ∨
      ∃ i r, l.request = some i ∧ c.answers i = none ∧
        Answers P commit i c.mem c'.mem r ∧ c'.answers = update c.answers i (some r)) := by
  have quietly : ∀ (i : ι) (e : E) (p : Phase S C R ε α), c.answers i = none →
      Preparing P commit i p → (∀ r, p ≠ .done r) →
      (∀ j, Preparing P commit j (update c.phase i p j)) ∧
        Cfg.answers { c with env := e, phase := update c.phase i p } = c.answers := by
    intro i e p hn hp hd
    refine ⟨fun j => ?_, funext fun j => ?_⟩ <;> by_cases hj : j = i
    · subst hj
      simpa using hp
    · simpa [hj] using hph j
    · subst hj
      rw [hn]
      cases p <;> simp_all [Cfg.answers]
    · simp [Cfg.answers, hj]
  cases l with
  | arrive i =>
    obtain ⟨hu, rfl⟩ := step_arrive hs
    have hn : c.answers i = none := by rw [Cfg.answers, hu]
    rw [hM.spawn i]
    obtain ⟨h₁, h₂⟩ := hM.afterTurn (c := arrival c i) (hM.gives i) hn hph
    exact ⟨h₁, h₂.imp id fun ⟨r, hr⟩ => ⟨i, r, rfl, hn, hr⟩⟩
  | turn i =>
    obtain ⟨t, ht, rfl⟩ := step_turn hs
    have hn : c.answers i = none := by rw [Cfg.answers, ht]
    have hp := hph i
    rw [ht] at hp
    obtain ⟨u, hu, rfl⟩ := hp
    obtain ⟨h₁, h₂⟩ := hM.afterTurn hu hn hph
    exact ⟨h₁, h₂.imp id fun ⟨r, hr⟩ => ⟨i, r, rfl, hn, hr⟩⟩
  | serve i x =>
    obtain ⟨cmd, k, r, e', hw, -, rfl⟩ := step_serve hs
    have hp := hph i
    rw [hw] at hp
    obtain ⟨u, hu, rfl⟩ := hp
    obtain ⟨h₁, h₂⟩ := quietly i e' (.ready ((u r).bind (commit i))) (by rw [Cfg.answers, hw])
      ⟨u r, hu r, rfl⟩ nofun
    exact ⟨h₁, .inl ⟨rfl, h₂⟩⟩
  | tick x =>
    obtain ⟨e', -, rfl⟩ := step_tick hs
    exact ⟨hph, .inl ⟨rfl, rfl⟩⟩
  | kill i =>
    obtain ⟨hf, rfl⟩ := step_kill hs
    have hn : c.answers i = none := by
      rw [Cfg.answers]
      split
      · rename_i r hd
        rw [hd] at hf
        cases hf
      · rfl
    obtain ⟨h₁, h₂⟩ := quietly i c.env .killed hn trivial nofun
    exact ⟨h₁, .inl ⟨rfl, h₂⟩⟩

variable {K : Cfg ι S E C R ε α → Label ι X → Prop} {s : S} {e : E} {c c' : Cfg ι S E C R ε α}

/-- In every configuration reached, the requests in flight are preparing. -/
theorem preparing (hM : M.Atomic P prep commit) (h : M.Reaches K (.start s e) c) :
    ∀ j, Preparing P commit j (c.phase j) :=
  h.invariant (I := fun c => ∀ j, Preparing P commit j (c.phase j))
    (fun _ _ _ hc _ hs => (hM.step_cases hc hs).1) fun _ => trivial

/-- **Every run**: what each rejection and each commit preserves holds of the memory and
the answers of every configuration reached. -/
theorem invariant (hM : M.Atomic P prep commit) {I : S → (ι → Option (Except ε α)) → Prop}
    (init : I s fun _ => none)
    (answer : ∀ i s s' a r, I s a → a i = none → Answers P commit i s s' r →
      I s' (update a i (some r))) (h : M.Reaches K (.start s e) c) : I c.mem c.answers := by
  have key : (∀ j, Preparing P commit j (c.phase j)) ∧ I c.mem c.answers := by
    refine h.invariant (I := fun c => (∀ j, Preparing P commit j (c.phase j)) ∧
      I c.mem c.answers) ?_ ⟨fun _ => trivial, init⟩
    rintro c c' l ⟨hph, hi⟩ - hs
    obtain ⟨hph', ⟨hm, ha⟩ | ⟨i, r, -, hn, hr, ha⟩⟩ := hM.step_cases hph hs
    · exact ⟨hph', by rwa [hm, ha]⟩
    · exact ⟨hph', by rw [ha]; exact answer i _ _ _ r hi hn hr⟩
  exact key.2

/-- An answer is never taken back. -/
theorem answers_mono (hM : M.Atomic P prep commit)
    (hph : ∀ j, Preparing P commit j (c.phase j)) (h : M.Reaches K c c') {i : ι}
    {r : Except ε α} (hi : c.answers i = some r) : c'.answers i = some r := by
  have key : (∀ j, Preparing P commit j (c'.phase j)) ∧ c'.answers i = some r := by
    refine h.invariant (I := fun c => (∀ j, Preparing P commit j (c.phase j)) ∧
      c.answers i = some r) ?_ ⟨hph, hi⟩
    rintro c c' l ⟨hph, hi⟩ - hs
    obtain ⟨hph', ⟨-, ha⟩ | ⟨j, r', -, hn, -, ha⟩⟩ := hM.step_cases hph hs
    · exact ⟨hph', by rwa [ha]⟩
    · refine ⟨hph', ?_⟩
      rw [ha, update_of_ne, hi]
      rintro rfl
      rw [hi] at hn
      cases hn
  exact key.2

end Atomic

end Loop

end EventLoop
