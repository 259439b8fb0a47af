import Yataverse.Fallible.Rules

/-!
# Loops that may fail

- `foldlM_inv`: what every step keeps holds behind the loop.
- **`foldlM_adds`**: where every step adds its own part to what can be seen of the state, the loop adds
  the parts of all its items.
-/

namespace Fallible

variable {ε σ α ι : Type} {f : σ → α → Except ε σ} {xs : List α} {s s' : σ}

theorem foldlM_cons_ok {x : α} (h : (x :: xs).foldlM f s = .ok s') : ∃ s₁, f s x = .ok s₁ ∧ xs.foldlM f s₁ = .ok s' := by
  rw [List.foldlM_cons] at h
  exact bind_eq_ok.mp h

theorem foldlM_inv {P : σ → Prop} (hstep : ∀ s x s', x ∈ xs → P s → f s x = .ok s' → P s') (hs : P s)
    (h : xs.foldlM f s = .ok s') : P s' := by
  induction xs generalizing s with
  | nil =>
    obtain rfl := Except.ok.inj h
    exact hs
  | cons x xs ih =>
    obtain ⟨s₁, hx, h⟩ := foldlM_cons_ok h
    exact ih (fun s y s' hy => hstep s y s' (List.mem_cons_of_mem _ hy)) (hstep s x s₁ List.mem_cons_self hs hx) h

/-- **What a loop adds**: `Seen s i` says that `i` can be seen in `s`, and `Part x i` that `x` adds it. -/
theorem foldlM_adds {Inv : σ → Prop} {Seen : σ → ι → Prop} {Part : α → ι → Prop}
    (hstep : ∀ s x s', Inv s → f s x = .ok s' → Inv s' ∧ ∀ i, Seen s' i ↔ Seen s i ∨ Part x i) (hs : Inv s)
    (h : xs.foldlM f s = .ok s') : Inv s' ∧ ∀ i, Seen s' i ↔ Seen s i ∨ ∃ x ∈ xs, Part x i := by
  induction xs generalizing s with
  | nil =>
    obtain rfl := Except.ok.inj h
    exact ⟨hs, fun i => ⟨.inl, fun hi => hi.elim id fun ⟨x, hx, _⟩ => absurd hx (List.not_mem_nil)⟩⟩
  | cons x xs ih =>
    obtain ⟨s₁, hx, h⟩ := foldlM_cons_ok h
    obtain ⟨hinv, hone⟩ := hstep s x s₁ hs hx
    obtain ⟨hinv', hrest⟩ := ih hinv h
    refine ⟨hinv', fun i => ?_⟩
    rw [hrest, hone, or_assoc, List.exists_mem_cons_iff]

end Fallible
