import Yataverse.EventLoop.Task

/-!
# Tasks whose commands are answered by what they are

Where a task asks for every command at most once, the outside is a function of the command,
and a run is the value of the task under it.

- `Task.eval`: the memory a run ends with, and how it ends.
- `Task.ensure`: `try` and `finally`.
- `Task.attempt`: an operation that succeeds or raises.
- `eval_bind`, `eval_handle`, `eval_ensure`: a run of a composed task.
- `Keeps.eval`: a task that only reads leaves the memory as it is.
-/

namespace EventLoop.Task

variable {S C : Type} {R : C → Type} {ε ε' α β : Type} (answer : (c : C) → R c)

/-- A run to its end. -/
def eval : Task S C R ε α → S → S × Except ε α
  | ret a, s => (s, .ok a)
  | throw e, s => (s, .error e)
  | get k, s => (k s).eval s
  | upd f k, s => k.eval (f s)
  | await c k, s => (k (answer c)).eval s

/-- `try` with `finally`: `clean` runs however the task ends, and what it raises takes the
place of the end. -/
def ensure (t : Task S C R ε α) (clean : Task S C R ε Unit) : Task S C R ε α :=
  ((t.bind fun a => ret (Except.ok a)).handle fun e => ret (Except.error e)).bind fun r =>
    clean.bind fun _ =>
      match r with
      | .ok a => ret a
      | .error e => throw e

/-- An operation that has no effect on the memory, and raises where it does not succeed. -/
def attempt (raise : C → ε) (c : C) : Task S C (fun _ => Bool) ε Unit :=
  await c fun ok => if ok then ret () else throw (raise c)

@[simp] theorem eval_ret (a : α) (s : S) :
    (ret a : Task S C R ε α).eval answer s = (s, .ok a) := rfl
@[simp] theorem eval_throw (e : ε) (s : S) :
    (throw e : Task S C R ε α).eval answer s = (s, .error e) := rfl
@[simp] theorem eval_get (k : S → Task S C R ε α) (s : S) :
    (get k).eval answer s = (k s).eval answer s := rfl
@[simp] theorem eval_upd (f : S → S) (k : Task S C R ε α) (s : S) :
    (upd f k).eval answer s = k.eval answer (f s) := rfl
@[simp] theorem eval_await (c : C) (k : R c → Task S C R ε α) (s : S) :
    (await c k).eval answer s = (k (answer c)).eval answer s := rfl

variable {answer} {t : Task S C R ε α} {s s' : S} {a : α} {e : ε}

/-- One task after the other. -/
theorem eval_bind (f : α → Task S C R ε β) : (t.bind f).eval answer s =
    match (t.eval answer s).2 with
    | .ok a => (f a).eval answer (t.eval answer s).1
    | .error e => ((t.eval answer s).1, .error e) := by
  induction t generalizing s with
  | ret a => rfl
  | throw e => rfl
  | get k ih => exact ih s
  | upd g k ih => exact ih
  | await c k ih => exact ih _

/-- A composed task returns where its parts do. -/
theorem eval_bind_eq_ok {f : α → Task S C R ε β} {b : β} : ((t.bind f).eval answer s).2 = .ok b ↔
    ∃ a, (t.eval answer s).2 = .ok a ∧ ((f a).eval answer (t.eval answer s).1).2 = .ok b := by
  rw [eval_bind]
  cases (t.eval answer s).2 with
  | ok a =>
    refine ⟨fun h => ⟨a, rfl, h⟩, ?_⟩
    rintro ⟨a', ha, h⟩
    obtain rfl := Except.ok.inj ha
    exact h
  | error e =>
    refine ⟨fun h => (by cases h), ?_⟩
    rintro ⟨a, ha, -⟩
    cases ha

/-- A task with a handler. -/
theorem eval_handle (h : ε → Task S C R ε' α) : (t.handle h).eval answer s =
    match (t.eval answer s).2 with
    | .ok a => ((t.eval answer s).1, .ok a)
    | .error e => (h e).eval answer (t.eval answer s).1 := by
  induction t generalizing s with
  | ret a => rfl
  | throw e => rfl
  | get k ih => exact ih s
  | upd g k ih => exact ih
  | await c k ih => exact ih _

theorem eval_bind_ok (f : α → Task S C R ε β) (h : t.eval answer s = (s', .ok a)) :
    (t.bind f).eval answer s = (f a).eval answer s' := by
  rw [eval_bind, h]

theorem eval_bind_error (f : α → Task S C R ε β) (h : t.eval answer s = (s', .error e)) :
    (t.bind f).eval answer s = (s', .error e) := by
  rw [eval_bind, h]

theorem eval_handle_ok (f : ε → Task S C R ε' α) (h : t.eval answer s = (s', .ok a)) :
    (t.handle f).eval answer s = (s', .ok a) := by
  rw [eval_handle, h]

theorem eval_handle_error (f : ε → Task S C R ε' α) (h : t.eval answer s = (s', .error e)) :
    (t.handle f).eval answer s = (f e).eval answer s' := by
  rw [eval_handle, h]

/-- `clean` runs from where the task ends. -/
theorem eval_ensure (clean : Task S C R ε Unit) : (t.ensure clean).eval answer s =
    ((clean.eval answer (t.eval answer s).1).1,
      match (clean.eval answer (t.eval answer s).1).2 with
      | .ok _ => (t.eval answer s).2
      | .error e => .error e) := by
  rw [ensure, eval_bind, eval_handle, eval_bind]
  cases (t.eval answer s).2 <;>
  · dsimp only [eval_ret]
    rw [eval_bind]
    cases (clean.eval answer (t.eval answer s).1).2 <;> rfl

@[simp] theorem eval_attempt {ok : C → Bool} {raise : C → ε} {c : C} :
    (attempt raise c : Task S C (fun _ => Bool) ε Unit).eval ok s =
      (s, if ok c = true then .ok () else .error (raise c)) := by
  rw [attempt, eval_await]
  cases ok c <;> rfl

theorem keeps_attempt {raise : C → ε} {c : C} :
    (attempt raise c : Task S C (fun _ => Bool) ε Unit).Keeps (fun _ => True) (· = ·) := by
  refine ⟨trivial, fun r => ?_⟩
  cases r <;> trivial

/-- A task that only reads leaves the memory as it is. -/
theorem Keeps.eval {cmd : C → Prop} (h : t.Keeps cmd (· = ·)) : (t.eval answer s).1 = s := by
  induction t generalizing s with
  | ret a => rfl
  | throw e => rfl
  | get k ih => exact ih s (h s)
  | upd g k ih => exact (ih h.2).trans (h.1 s).symm
  | await c k ih => exact ih _ (h.2 _)

end EventLoop.Task
