import Yataverse.EventLoop.Kill

/-!
# Tasks on a part of the memory

A program whose memory has several parts runs tasks that know one of them only.

- `Part`: a part of the memory.
- `Task.onPart`: a task on a part, as one on the whole.
- `Safe.onPart`: it does there what it does on its own, and the rest stays as it is.
-/

namespace EventLoop

variable {S S₀ C C₀ : Type} {R : C → Type} {R₀ : C₀ → Type} {ε ε₀ α : Type}

/-- The part of the memory `S` that is an `S₀`. -/
structure Part (S S₀ : Type) where
  view : S → S₀
  put : S₀ → S → S
  view_put : ∀ a s, view (put a s) = a
  put_view : ∀ s, put (view s) s = s
  put_put : ∀ a b s, put a (put b s) = put a s

namespace Task

/-- A task on a part, with its commands among those of the whole. -/
def onPart (part : Part S S₀) (cmd : C₀ → C) (answer : (c : C₀) → R (cmd c) → R₀ c) (raise : ε₀ → ε) :
    Task S₀ C₀ R₀ ε₀ α → Task S C R ε α
  | ret a => ret a
  | throw e => throw (raise e)
  | get k => get fun s => (k (part.view s)).onPart part cmd answer raise
  | upd f k => upd (fun s => part.put (f (part.view s)) s) (k.onPart part cmd answer raise)
  | await c k => await (cmd c) fun r => (k (answer c r)).onPart part cmd answer raise

variable {part : Part S S₀} {cmd : C₀ → C} {answer : (c : C₀) → R (cmd c) → R₀ c} {raise : ε₀ → ε}
  {t : Task S₀ C₀ R₀ ε₀ α} {E : S₀ → Prop} {Q : Except ε₀ α → S₀ → Prop} {s : S}

/-- The rest of the memory stays as it is. -/
theorem Safe.onPart (h : t.Safe E Q (part.view s)) : (t.onPart part cmd answer raise).Safe
    (fun s' => ∃ a, E a ∧ s' = part.put a s)
    (fun r s' => ∃ r₀ a, Q r₀ a ∧ r = r₀.mapError raise ∧ s' = part.put a s) s := by
  induction t generalizing s with
  | ret a => exact ⟨⟨_, h.1, (part.put_view s).symm⟩, _, _, h.2, rfl, (part.put_view s).symm⟩
  | throw e => exact ⟨⟨_, h.1, (part.put_view s).symm⟩, _, _, h.2, rfl, (part.put_view s).symm⟩
  | get k ih => exact ih _ h
  | upd f k ih =>
    refine ⟨⟨_, h.1, (part.put_view s).symm⟩, ?_⟩
    have hk := ih (s := part.put (f (part.view s)) s) (by rw [part.view_put]; exact h.2)
    refine hk.imp ?_ ?_
    · rintro s' ⟨a, ha, rfl⟩
      exact ⟨a, ha, part.put_put a _ s⟩
    · rintro r s' ⟨r₀, a, hq, hr, rfl⟩
      exact ⟨r₀, a, hq, hr, part.put_put a _ s⟩
  | await c k ih => exact ⟨⟨_, h.1, (part.put_view s).symm⟩, fun r => ih _ (h.2 _)⟩

end Task

end EventLoop
