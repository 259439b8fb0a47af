import Mathlib.Algebra.GroupWithZero.Nat
import Mathlib.Algebra.Order.BigOperators.Group.List
import Mathlib.Algebra.Order.Group.Nat

/-!
# First-come budgets

Whoever needs some of a budget waits until it is there, behind those that came before.

- `drain`: those in front are let in while there is enough.
- `Accounts`: what is used is what the holders hold, less what was given back without having been taken.
- **`Accounts.held_le`**: so much more than the limit is held at most.
- **`Accounts.none_waits`**: while nobody holds anything, nobody waits.
-/

namespace Limiting

variable {ι : Type*}

/-- What is used of a budget, and who waits for how much. -/
structure Budget (ι : Type*) where
  used : Int
  waiters : List (ι × Nat)

/-- Together. -/
def total (ws : List (ι × Nat)) : Nat := (ws.map Prod.snd).sum

namespace Budget

/-- Let in those that are in front while there is enough, with a list of them. -/
def drain (limit used : Int) : List (ι × Nat) → Budget ι × List (ι × Nat)
  | [] => (⟨used, []⟩, [])
  | w :: ws =>
    if used + w.2 ≤ limit then ((drain limit (used + w.2) ws).1, w :: (drain limit (used + w.2) ws).2)
    else (⟨used, w :: ws⟩, [])

/-- Wait for some of it. -/
def acquire (limit : Int) (b : Budget ι) (w : ι × Nat) : Budget ι × List (ι × Nat) := drain limit b.used (b.waiters ++ [w])

/-- Give some of it back. -/
def release (limit : Int) (b : Budget ι) (n : Nat) : Budget ι × List (ι × Nat) := drain limit (b.used - n) b.waiters

end Budget

open Budget

variable {limit used refunded : Int} {b : Budget ι} {ws held held' : List (ι × Nat)} {w : ι × Nat} {n : Nat}

@[simp] theorem total_nil : total ([] : List (ι × Nat)) = 0 := rfl

@[simp] theorem total_cons : total (w :: ws) = w.2 + total ws := List.sum_cons

@[simp] theorem total_append : total (ws ++ held) = total ws + total held := by
  rw [total, List.map_append, List.sum_append, total, total]

theorem total_perm (h : held.Perm held') : total held = total held' := (h.map Prod.snd).sum_eq

theorem total_subperm (h : held.Subperm held') : total held ≤ total held' := by
  obtain ⟨ws, hperm, hsub⟩ := h
  rw [← total_perm hperm]
  exact (hsub.map Prod.snd).sum_le_sum fun _ _ => Nat.zero_le _

/-! ## Letting in -/

/-- Those in front are let in, in their order. -/
theorem drain_order : (drain limit used ws).2 ++ (drain limit used ws).1.waiters = ws := by
  induction ws generalizing used with
  | nil => rfl
  | cons w ws ih =>
    rw [drain]
    split_ifs
    · rw [List.cons_append, ih]
    · rfl

theorem drain_waiters : (drain limit used ws).1.waiters = ws.drop (drain limit used ws).2.length := by
  induction ws generalizing used with
  | nil => rfl
  | cons w ws ih =>
    rw [drain]
    split_ifs
    · exact ih
    · rfl

theorem drain_used : (drain limit used ws).1.used = used + total (drain limit used ws).2 := by
  induction ws generalizing used with
  | nil => exact (add_zero used).symm
  | cons w ws ih =>
    rw [drain]
    split_ifs
    · rw [ih, total_cons, Int.natCast_add, add_assoc]
    · exact (add_zero used).symm

theorem drain_le (h : used ≤ limit) : (drain limit used ws).1.used ≤ limit := by
  induction ws generalizing used with
  | nil => exact h
  | cons w ws ih =>
    rw [drain]
    split_ifs with hw
    · exact ih hw
    · exact h

/-- For the first one that still waits there is not enough. -/
theorem drain_full (h : w ∈ (drain limit used ws).1.waiters.head?) : limit < (drain limit used ws).1.used + w.2 := by
  induction ws generalizing used with
  | nil => cases h
  | cons v ws ih =>
    rw [drain] at h ⊢
    split_ifs at h ⊢ with hv
    · exact ih h
    · obtain rfl := Option.some.inj h
      exact not_le.mp hv

/-! ## Accounts -/

/-- The books of a budget: `held` are those that were let in and have given nothing back, and `refunded` was given back
without having been taken. -/
structure Accounts (limit : Int) (b : Budget ι) (held : List (ι × Nat)) (refunded : Int) : Prop where
  used : b.used = total held - refunded
  bound : b.used ≤ limit
  fits : ∀ w ∈ b.waiters, (w.2 : Int) ≤ limit
  full : ∀ w ∈ b.waiters.head?, limit < b.used + w.2

theorem Accounts.start (h : 0 ≤ limit) : Accounts limit (⟨0, []⟩ : Budget ι) [] 0 :=
  ⟨rfl, h, by simp, by simp⟩

theorem Accounts.drain (hused : used = total held - refunded) (hbound : used ≤ limit)
    (hfits : ∀ w ∈ ws, (w.2 : Int) ≤ limit) :
    Accounts limit (Budget.drain limit used ws).1 (held ++ (Budget.drain limit used ws).2) refunded := by
  refine ⟨?_, drain_le hbound, fun w hw => hfits w ?_, fun w => drain_full⟩
  · rw [drain_used, hused, total_append, Int.natCast_add]
    omega
  · rw [← @drain_order _ limit used ws]
    exact List.mem_append_right _ hw

theorem Accounts.acquire (h : Accounts limit b held refunded) (hw : (w.2 : Int) ≤ limit) :
    Accounts limit (b.acquire limit w).1 (held ++ (b.acquire limit w).2) refunded := by
  refine Accounts.drain h.used h.bound fun v hv => ?_
  rcases List.mem_append.mp hv with hv | hv
  · exact h.fits v hv
  · obtain rfl := List.mem_singleton.mp hv
    exact hw

theorem Accounts.release [DecidableEq ι] (h : Accounts limit b held refunded) (hw : w ∈ held) :
    Accounts limit (b.release limit w.2).1 (held.erase w ++ (b.release limit w.2).2) refunded := by
  have htotal := total_perm (List.perm_cons_erase hw)
  rw [total_cons] at htotal
  refine Accounts.drain ?_ ?_ h.fits
  · rw [h.used, htotal, Int.natCast_add]
    omega
  · have := h.bound
    omega

/-- Giving back what was never taken. -/
theorem Accounts.refund (h : Accounts limit b held refunded) :
    Accounts limit (b.release limit n).1 (held ++ (b.release limit n).2) (refunded + n) := by
  refine Accounts.drain ?_ ?_ h.fits
  · rw [h.used]
    omega
  · have := h.bound
    omega

/-- **What is held** exceeds the limit by no more than what was given back without having been taken. -/
theorem Accounts.held_le (h : Accounts limit b held refunded) : (total held : Int) ≤ limit + refunded := by
  have := h.used
  have := h.bound
  omega

/-- **Nobody waits** while nobody holds anything. -/
theorem Accounts.none_waits (h : Accounts limit b [] refunded) (hrefunded : 0 ≤ refunded) : b.waiters = [] := by
  cases hw : b.waiters with
  | nil => rfl
  | cons w ws =>
    -- the first one fits, and would have been let in
    have hfits := h.fits w (hw ▸ List.mem_cons_self)
    have hfull := h.full w (by rw [hw]; rfl)
    rw [h.used, total_nil] at hfull
    push_cast at hfull
    omega

end Limiting
