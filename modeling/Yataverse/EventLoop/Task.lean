import Mathlib.Logic.Function.Basic

/-!
# Tasks: what one request does between its awaits

A server written with promises runs each request as a chain of callbacks. Between
two awaits a callback runs to its end without interruption and reads and writes
the memory of the process (variables, files written synchronously); at an await
it hands a command to the outside (a child process, another host) and the rest of
the chain is resumed with the answer.

- `Task S C R ε α`: such a chain, over the memory `S`, the commands `C` (the
  answer to `c` has type `R c`), rejecting with `ε` and resolving with `α`.
- `Task.bind`, `Task.handle`: `.then` and `.catch`.
- `Task.turn`: one turn of the event loop, up to the next await or the end.
- `Task.Keeps`: what every memory update and every command of a chain respects.
-/

namespace EventLoop

/-- A promise chain: it resolves, rejects, reads the memory, updates it, or awaits
the answer to a command. -/
inductive Task (S C : Type) (R : C → Type) (ε α : Type) where
  | ret (a : α)
  | throw (e : ε)
  | get (k : S → Task S C R ε α)
  | upd (f : S → S) (k : Task S C R ε α)
  | await (c : C) (k : R c → Task S C R ε α)

namespace Task

variable {S C : Type} {R : C → Type} {ε ε' α β γ : Type}

/-- `.then`: continue with `f` when the chain resolves. -/
def bind : Task S C R ε α → (α → Task S C R ε β) → Task S C R ε β
  | ret a, f => f a
  | throw e, _ => throw e
  | get k, f => get fun s => (k s).bind f
  | upd g k, f => upd g (k.bind f)
  | await c k, f => await c fun r => (k r).bind f

/-- `.catch`: continue with `h` when the chain rejects. -/
def handle : Task S C R ε α → (ε → Task S C R ε' α) → Task S C R ε' α
  | ret a, _ => ret a
  | throw e, h => h e
  | get k, h => get fun s => (k s).handle h
  | upd g k, h => upd g (k.handle h)
  | await c k, h => await c fun r => (k r).handle h

/-- Await one command. -/
def call (c : C) : Task S C R ε (R c) := await c ret

/-- Read the memory through `q`. -/
def reads (q : S → α) : Task S C R ε α := get fun s => ret (q s)

/-- Update the memory. -/
def modify (f : S → S) : Task S C R ε Unit := upd f (ret ())

instance : Monad (Task S C R ε) where
  pure := ret
  bind := bind

instance : MonadExceptOf ε (Task S C R ε) where
  throw := throw
  tryCatch := handle

@[simp] theorem pure_eq (a : α) : (pure a : Task S C R ε α) = ret a := rfl
@[simp] theorem bind_eq (t : Task S C R ε α) (f : α → Task S C R ε β) :
    (t >>= f) = t.bind f := rfl
@[simp] theorem throw_eq (e : ε) : (throwThe ε e : Task S C R ε α) = throw e := rfl
@[simp] theorem throwExcept_eq (e : ε) : (MonadExcept.throw e : Task S C R ε α) = throw e := rfl
@[simp] theorem map_eq (f : α → β) (t : Task S C R ε α) :
    (f <$> t) = t.bind fun a => ret (f a) := rfl

@[simp] theorem bind_ret (a : α) (f : α → Task S C R ε β) : (ret a).bind f = f a := rfl
@[simp] theorem bind_throw (e : ε) (f : α → Task S C R ε β) : (throw e).bind f = throw e := rfl
@[simp] theorem bind_get (k : S → Task S C R ε α) (f : α → Task S C R ε β) :
    (get k).bind f = get fun s => (k s).bind f := rfl
@[simp] theorem bind_upd (g : S → S) (k : Task S C R ε α) (f : α → Task S C R ε β) :
    (upd g k).bind f = upd g (k.bind f) := rfl
@[simp] theorem bind_await (c : C) (k : R c → Task S C R ε α) (f : α → Task S C R ε β) :
    (await c k).bind f = await c fun r => (k r).bind f := rfl

@[simp] theorem handle_ret (a : α) (h : ε → Task S C R ε' α) : (ret a).handle h = ret a := rfl
@[simp] theorem handle_throw (e : ε) (h : ε → Task S C R ε' α) : (throw e).handle h = h e := rfl
@[simp] theorem handle_get (k : S → Task S C R ε α) (h : ε → Task S C R ε' α) :
    (get k).handle h = get fun s => (k s).handle h := rfl
@[simp] theorem handle_upd (g : S → S) (k : Task S C R ε α) (h : ε → Task S C R ε' α) :
    (upd g k).handle h = upd g (k.handle h) := rfl
@[simp] theorem handle_await (c : C) (k : R c → Task S C R ε α) (h : ε → Task S C R ε' α) :
    (await c k).handle h = await c fun r => (k r).handle h := rfl

@[simp] theorem bind_ret_right (t : Task S C R ε α) : t.bind ret = t := by
  induction t with
  | ret a => rfl
  | throw e => rfl
  | get k ih => simp [ih]
  | upd g k ih => simp [ih]
  | await c k ih => simp [ih]

theorem bind_assoc (t : Task S C R ε α) (f : α → Task S C R ε β) (g : β → Task S C R ε γ) :
    (t.bind f).bind g = t.bind fun a => (f a).bind g := by
  induction t with
  | ret a => rfl
  | throw e => rfl
  | get k ih => simp [ih]
  | upd h k ih => simp [ih]
  | await c k ih => simp [ih]

/-! ## One turn of the event loop -/

/-- Where a turn leaves a chain: at an await, or settled. -/
inductive Stop (S C : Type) (R : C → Type) (ε α : Type) where
  | waiting (c : C) (k : R c → Task S C R ε α)
  | settled (r : Except ε α)

/-- Run a chain to its next await or its end. Nothing else runs meanwhile. -/
def turn : Task S C R ε α → S → S × Stop S C R ε α
  | ret a, s => (s, .settled (.ok a))
  | throw e, s => (s, .settled (.error e))
  | get k, s => (k s).turn s
  | upd f k, s => k.turn (f s)
  | await c k, s => (s, .waiting c k)

@[simp] theorem turn_ret (a : α) (s : S) :
    (ret a : Task S C R ε α).turn s = (s, .settled (.ok a)) := rfl
@[simp] theorem turn_throw (e : ε) (s : S) :
    (throw e : Task S C R ε α).turn s = (s, .settled (.error e)) := rfl
@[simp] theorem turn_get (k : S → Task S C R ε α) (s : S) :
    (get k).turn s = (k s).turn s := rfl
@[simp] theorem turn_upd (f : S → S) (k : Task S C R ε α) (s : S) :
    (upd f k).turn s = k.turn (f s) := rfl
@[simp] theorem turn_await (c : C) (k : R c → Task S C R ε α) (s : S) :
    (await c k).turn s = (s, .waiting c k) := rfl

/-! ## What a chain does and asks for -/

/-- Every memory update of the chain, now or after any answer, is within `rel`, and every
command within `cmd`. -/
def Keeps (cmd : C → Prop) (rel : S → S → Prop) : Task S C R ε α → Prop
  | ret _ => True
  | throw _ => True
  | get k => ∀ s, (k s).Keeps cmd rel
  | upd f k => (∀ s, rel s (f s)) ∧ k.Keeps cmd rel
  | await c k => cmd c ∧ ∀ r, (k r).Keeps cmd rel

variable {cmd : C → Prop} {rel : S → S → Prop}

theorem Keeps.bind {t : Task S C R ε α} {f : α → Task S C R ε β}
    (ht : t.Keeps cmd rel) (hf : ∀ a, (f a).Keeps cmd rel) : (t.bind f).Keeps cmd rel := by
  induction t with
  | ret a => exact hf a
  | throw e => trivial
  | get k ih => exact fun s => ih s (ht s)
  | upd g k ih => exact ⟨ht.1, ih ht.2⟩
  | await c k ih => exact ⟨ht.1, fun r => ih r (ht.2 r)⟩

theorem Keeps.handle {t : Task S C R ε α} {h : ε → Task S C R ε' α}
    (ht : t.Keeps cmd rel) (hh : ∀ e, (h e).Keeps cmd rel) : (t.handle h).Keeps cmd rel := by
  induction t with
  | ret a => trivial
  | throw e => exact hh e
  | get k ih => exact fun s => ih s (ht s)
  | upd g k ih => exact ⟨ht.1, ih ht.2⟩
  | await c k ih => exact ⟨ht.1, fun r => ih r (ht.2 r)⟩

/-- A turn of a chain that keeps a preorder stays within it, and leaves a chain that
keeps it. -/
theorem Keeps.turn (hrefl : ∀ s, rel s s)
    (htrans : ∀ s s' s'', rel s s' → rel s' s'' → rel s s'') :
    ∀ {t : Task S C R ε α}, t.Keeps cmd rel → ∀ s, rel s (t.turn s).1 ∧
      ∀ c k, (t.turn s).2 = .waiting c k → cmd c ∧ ∀ r, (k r).Keeps cmd rel
  | ret _, _, s => ⟨hrefl s, nofun⟩
  | throw _, _, s => ⟨hrefl s, nofun⟩
  | get k, h, s => Keeps.turn hrefl htrans (h s) s
  | upd f k, h, s => by
    obtain ⟨h₁, h₂⟩ := Keeps.turn hrefl htrans h.2 (f s)
    exact ⟨htrans _ _ _ (h.1 s) h₁, h₂⟩
  | await c k, h, s => by
    refine ⟨hrefl s, ?_⟩
    rintro _ _ ⟨⟩
    exact h

end Task

end EventLoop
