import Yataverse.EventLoop.Task

/-!
# Tasks that are killed

A process that is killed leaves its memory as its last operation has left it. Where the
memory is durable (files), the next process starts from there, so that what a task does
has to be right after every one of its operations and not only at its end.

- `Task.upTo`: a task that is killed after so many updates and commands. `answer` says
  what the outside answers to the commands, one after the other.
- `Task.finish`: a task that runs to its end.
- `Task.Safe`: every memory on the way, from this one and for all answers, satisfies `E`,
  and every end `Q`.
- `Safe.upTo`, `Safe.finish`: what a killed run leaves, and how a run ends.
- `Safe.chain`: the rule for two tasks where what they do is a transitive relation.
-/

namespace EventLoop.Task

variable {S C : Type} {R : C → Type} {ε ε' α β : Type}

/-- A run that is killed after `n` operations: the memory it leaves, and its result if it
has ended by then. `i` counts the commands so far. -/
def upTo (answer : Nat → (c : C) → R c) : Nat → Nat → Task S C R ε α → S → S × Option (Except ε α)
  | _, _, ret a, s => (s, some (.ok a))
  | _, _, throw e, s => (s, some (.error e))
  | n, i, get k, s => upTo answer n i (k s) s
  | 0, _, upd _ _, s => (s, none)
  | n + 1, i, upd f k, s => upTo answer n i k (f s)
  | 0, _, await _ _, s => (s, none)
  | n + 1, i, await c k, s => upTo answer n (i + 1) (k (answer i c)) s

/-- A run to its end. -/
def finish (answer : Nat → (c : C) → R c) : Nat → Task S C R ε α → S → S × Except ε α
  | _, ret a, s => (s, .ok a)
  | _, throw e, s => (s, .error e)
  | i, get k, s => finish answer i (k s) s
  | i, upd f k, s => finish answer i k (f s)
  | i, await c k, s => finish answer (i + 1) (k (answer i c)) s

/-- Every memory on the way from `s` satisfies `E`, and every end `Q`. -/
def Safe (E : S → Prop) (Q : Except ε α → S → Prop) : Task S C R ε α → S → Prop
  | ret a, s => E s ∧ Q (.ok a) s
  | throw e, s => E s ∧ Q (.error e) s
  | get k, s => (k s).Safe E Q s
  | upd f k, s => E s ∧ k.Safe E Q (f s)
  | await _ k, s => E s ∧ ∀ r, (k r).Safe E Q s

variable {E E' : S → Prop} {Q Q' : Except ε α → S → Prop} {t : Task S C R ε α} {s : S}
  {answer : Nat → (c : C) → R c} {n i : Nat}

theorem Safe.now (h : t.Safe E Q s) : E s := by
  induction t with
  | ret a => exact h.1
  | throw e => exact h.1
  | get k ih => exact ih s h
  | upd f k => exact h.1
  | await c k => exact h.1

theorem Safe.imp (hE : ∀ s, E s → E' s) (hQ : ∀ r s, Q r s → Q' r s) (h : t.Safe E Q s) : t.Safe E' Q' s := by
  induction t generalizing s with
  | ret a => exact ⟨hE s h.1, hQ _ s h.2⟩
  | throw e => exact ⟨hE s h.1, hQ _ s h.2⟩
  | get k ih => exact ih s h
  | upd f k ih => exact ⟨hE s h.1, ih h.2⟩
  | await c k ih => exact ⟨hE s h.1, fun r => ih r (h.2 r)⟩

/-- An end satisfies `E` too. -/
theorem Safe.held (h : t.Safe E Q s) : t.Safe E (fun r s => E s ∧ Q r s) s := by
  induction t generalizing s with
  | ret a => exact ⟨h.1, h⟩
  | throw e => exact ⟨h.1, h⟩
  | get k ih => exact ih s h
  | upd f k ih => exact ⟨h.1, ih h.2⟩
  | await c k ih => exact ⟨h.1, fun r => ih r (h.2 r)⟩

theorem Safe.get {k : S → Task S C R ε α} (h : (k s).Safe E Q s) : (get k).Safe E Q s := h

/-- **One task after the other**: the second starts from what the end of the first
satisfies. -/
theorem Safe.bind {f : α → Task S C R ε β} {P : Except ε α → S → Prop} {Q : Except ε β → S → Prop}
    (h : t.Safe E P s) (hthrow : ∀ e s, P (.error e) s → Q (.error e) s)
    (hf : ∀ a s, E s → P (.ok a) s → (f a).Safe E Q s) : (t.bind f).Safe E Q s := by
  induction t generalizing s with
  | ret a => exact hf a s h.1 h.2
  | throw e => exact ⟨h.1, hthrow e s h.2⟩
  | get k ih => exact ih s h
  | upd g k ih => exact ⟨h.1, ih h.2⟩
  | await c k ih => exact ⟨h.1, fun r => ih r (h.2 r)⟩

/-- **One task after the other**, within a transitive relation: each task starts from the memory
that it is compared with. -/
theorem Safe.chain {W : S → S → Prop} (htrans : ∀ s₁ s₂ s₃, W s₁ s₂ → W s₂ s₃ → W s₁ s₃)
    {f : α → Task S C R ε β} {P : Except ε α → S → Prop} {Q : Except ε β → S → Prop}
    (h : t.Safe (W s) P s) (hthrow : ∀ e s', W s s' → P (.error e) s' → Q (.error e) s')
    (hf : ∀ a s', W s s' → P (.ok a) s' → (f a).Safe (W s') Q s') : (t.bind f).Safe (W s) Q s := by
  refine Safe.bind h.held (fun e s' he => hthrow e s' he.1 he.2) fun a s' hw ha => ?_
  exact (hf a s' hw ha.2).imp (fun s'' hw' => htrans s s' s'' hw hw') fun _ _ hq => hq

/-- **What a killed run leaves.** -/
theorem Safe.upTo (h : t.Safe E Q s) :
    E (t.upTo answer n i s).1 ∧ ∀ r, (t.upTo answer n i s).2 = some r → Q r (t.upTo answer n i s).1 := by
  induction t generalizing s n i with
  | ret a =>
    cases n <;>
    · refine ⟨h.1, fun r hr => ?_⟩
      obtain rfl := Option.some.inj hr
      exact h.2
  | throw e =>
    cases n <;>
    · refine ⟨h.1, fun r hr => ?_⟩
      obtain rfl := Option.some.inj hr
      exact h.2
  | get k ih => cases n <;> exact ih s h
  | upd f k ih =>
    cases n with
    | zero => exact ⟨h.1, fun r hr => by cases hr⟩
    | succ n => exact ih h.2
  | await c k ih =>
    cases n with
    | zero => exact ⟨h.1, fun r hr => by cases hr⟩
    | succ n => exact ih _ (h.2 _)

/-- **How a run ends.** -/
theorem Safe.finish (h : t.Safe E Q s) : E (t.finish answer i s).1 ∧ Q (t.finish answer i s).2 (t.finish answer i s).1 := by
  induction t generalizing s i with
  | ret a => exact h
  | throw e => exact h
  | get k ih => exact ih s h
  | upd f k ih => exact ih h.2
  | await c k ih => exact ih _ (h.2 _)

end EventLoop.Task
