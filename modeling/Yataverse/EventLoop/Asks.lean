import Yataverse.EventLoop.Task

/-!
# What a task may ask and how it may end

The outside is a relation: which answers a command may have. Every run of a task
against it is covered, whatever the other tasks do to the memory.

- `Task.Yields ans r`: some run ends with `r`.
- `Task.Asks ans q`: some run awaits the command `q`.
-/

namespace EventLoop

namespace Task

variable {S C : Type} {R : C → Type} {ε ε' α β : Type} (ans : (c : C) → R c → Prop)

/-- Some run ends with `r`. -/
def Yields (r : Except ε α) : Task S C R ε α → Prop
  | ret a => r = .ok a
  | throw e => r = .error e
  | get k => ∃ s, (k s).Yields r
  | upd _ k => k.Yields r
  | await c k => ∃ x, ans c x ∧ (k x).Yields r

/-- Some run awaits the command `q`. -/
def Asks (q : C) : Task S C R ε α → Prop
  | ret _ => False
  | throw _ => False
  | get k => ∃ s, (k s).Asks q
  | upd _ k => k.Asks q
  | await c k => q = c ∨ ∃ x, ans c x ∧ (k x).Asks q

variable {ans} {q : C}

@[simp] theorem yields_ret {a : α} {r : Except ε α} :
    (ret a : Task S C R ε α).Yields ans r ↔ r = .ok a := Iff.rfl
@[simp] theorem yields_throw {e : ε} {r : Except ε α} :
    (throw e : Task S C R ε α).Yields ans r ↔ r = .error e := Iff.rfl
@[simp] theorem yields_get {k : S → Task S C R ε α} {r : Except ε α} :
    (get k).Yields ans r ↔ ∃ s, (k s).Yields ans r := Iff.rfl
@[simp] theorem yields_upd {f : S → S} {k : Task S C R ε α} {r : Except ε α} :
    (upd f k).Yields ans r ↔ k.Yields ans r := Iff.rfl
@[simp] theorem yields_await {c : C} {k : R c → Task S C R ε α} {r : Except ε α} :
    (await c k).Yields ans r ↔ ∃ x, ans c x ∧ (k x).Yields ans r := Iff.rfl

@[simp] theorem asks_ret {a : α} : (ret a : Task S C R ε α).Asks ans q ↔ False := Iff.rfl
@[simp] theorem asks_throw {e : ε} : (throw e : Task S C R ε α).Asks ans q ↔ False := Iff.rfl
@[simp] theorem asks_get {k : S → Task S C R ε α} :
    (get k).Asks ans q ↔ ∃ s, (k s).Asks ans q := Iff.rfl
@[simp] theorem asks_upd {f : S → S} {k : Task S C R ε α} :
    (upd f k).Asks ans q ↔ k.Asks ans q := Iff.rfl
@[simp] theorem asks_await {c : C} {k : R c → Task S C R ε α} :
    (await c k).Asks ans q ↔ q = c ∨ ∃ x, ans c x ∧ (k x).Asks ans q := Iff.rfl

/-- The rest of a chain runs from what the first part yields. -/
theorem yields_bind {t : Task S C R ε β} {f : β → Task S C R ε α} {r : Except ε α} :
    (t.bind f).Yields ans r ↔ (∃ b, t.Yields ans (.ok b) ∧ (f b).Yields ans r) ∨
      ∃ e, r = .error e ∧ t.Yields ans (.error e) := by
  induction t with
  | ret b => simp
  | throw e => simp
  | get k ih => simp only [bind_get, yields_get, ih]; grind
  | upd g k ih => simpa using ih
  | await c k ih => simp only [bind_await, yields_await, ih]; grind

theorem asks_bind {t : Task S C R ε β} {f : β → Task S C R ε α} :
    (t.bind f).Asks ans q ↔ t.Asks ans q ∨ ∃ b, t.Yields ans (.ok b) ∧ (f b).Asks ans q := by
  induction t with
  | ret b => simp
  | throw e => simp
  | get k ih => simp only [bind_get, asks_get, yields_get, ih]; grind
  | upd g k ih => simpa using ih
  | await c k ih => simp only [bind_await, asks_await, yields_await, ih]; grind

/-- The handler runs from what the first part rejects with. -/
theorem yields_handle {t : Task S C R ε' α} {h : ε' → Task S C R ε α} {r : Except ε α} :
    (t.handle h).Yields ans r ↔ (∃ a, r = .ok a ∧ t.Yields ans (.ok a)) ∨
      ∃ e, t.Yields ans (.error e) ∧ (h e).Yields ans r := by
  induction t with
  | ret b => simp [handle]
  | throw e => simp [handle]
  | get k ih => simp only [handle, yields_get, ih]; grind
  | upd g k ih => simpa [handle] using ih
  | await c k ih => simp only [handle, yields_await, ih]; grind

theorem asks_handle {t : Task S C R ε' α} {h : ε' → Task S C R ε α} :
    (t.handle h).Asks ans q ↔ t.Asks ans q ∨ ∃ e, t.Yields ans (.error e) ∧ (h e).Asks ans q := by
  induction t with
  | ret b => simp [handle]
  | throw e => simp [handle]
  | get k ih => simp only [handle, asks_get, yields_get, ih]; grind
  | upd g k ih => simpa [handle] using ih
  | await c k ih => simp only [handle, asks_await, yields_await, ih]; grind

end Task

end EventLoop
