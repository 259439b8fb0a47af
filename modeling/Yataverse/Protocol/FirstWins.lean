import Mathlib.Data.List.Infix
import Mathlib.Logic.Function.Basic

/-!
# First-wins logs

Parties propose entries for numbered slots of named logs; an arbiter appends a proposal
to its log when its slot is the next free one. So each slot has at most one entry, and
slot `n + 1` is taken only after slot `n`.

- `Arbiter`: the logs, and every proposal that was sent.
- `send`, `commit`: the two moves. What a proposer learns of its proposal it learns by
  reading the logs.
- `Grows`: committed entries stay where they are.
- `Ordered`: an entry was proposed for the slot it stands in; `Ordered.send` and
  `Ordered.commit` keep it.
- `Lost`: the slot of a proposal has another entry; it never is committed
  (`Lost.not_mem`).
-/

namespace FirstWins

open Function

/-- The logs, by name, and the proposals that were sent. -/
structure Arbiter (κ μ : Type) where
  log : κ → List μ
  sent : List μ

variable {κ μ : Type} (ref : μ → κ) (slot : μ → Option Nat)

/-- No proposals yet. -/
def Arbiter.empty : Arbiter κ μ := ⟨fun _ => [], []⟩

/-- A proposal is sent. -/
def Arbiter.send (a : Arbiter κ μ) (m : μ) : Arbiter κ μ := { a with sent := m :: a.sent }

/-- The arbiter appends a proposal to its log, if its slot is the next one. -/
def Arbiter.commit [DecidableEq κ] [DecidableEq μ] (a : Arbiter κ μ) (m : μ) :
    Option (Arbiter κ μ) :=
  if m ∈ a.sent ∧ slot m = some (a.log (ref m)).length then
    some { a with log := update a.log (ref m) (a.log (ref m) ++ [m]) }
  else none

/-- Committed entries stay where they are. -/
def Grows (a a' : Arbiter κ μ) : Prop := ∀ k, a.log k <+: a'.log k

/-- Every entry was sent, and stands in the log and the slot it was proposed for. -/
def Ordered (a : Arbiter κ μ) : Prop :=
  ∀ k n m, (a.log k)[n]? = some m → m ∈ a.sent ∧ ref m = k ∧ slot m = some n

/-- The slot of a proposal has another entry. -/
def Lost (a : Arbiter κ μ) (m : μ) : Prop :=
  ∃ n m', slot m = some n ∧ (a.log (ref m))[n]? = some m' ∧ m' ≠ m

variable {ref slot} {a a' a'' : Arbiter κ μ} {k : κ} {m : μ} {n : Nat}

theorem Grows.refl (a : Arbiter κ μ) : Grows a a := fun _ => List.prefix_rfl

theorem Grows.trans (h : Grows a a') (h' : Grows a' a'') : Grows a a'' :=
  fun k => (h k).trans (h' k)

theorem Grows.of_log_eq (h : a'.log = a.log) : Grows a a' := fun k => by rw [h]

/-- An entry stays in its slot. -/
theorem Grows.get (h : Grows a a') (hm : (a.log k)[n]? = some m) : (a'.log k)[n]? = some m := by
  obtain ⟨t, ht⟩ := h k
  rw [← ht, List.getElem?_append_left (List.getElem?_eq_some_iff.mp hm).1, hm]

theorem Grows.length_le (h : Grows a a') (k : κ) : (a.log k).length ≤ (a'.log k).length :=
  (h k).length_le

@[simp] theorem send_log (a : Arbiter κ μ) (m : μ) : (a.send m).log = a.log := rfl

@[simp] theorem mem_send_sent {m' : μ} : m' ∈ (a.send m).sent ↔ m' = m ∨ m' ∈ a.sent :=
  List.mem_cons

theorem Ordered.send (h : Ordered ref slot a) (m : μ) : Ordered ref slot (a.send m) := by
  intro k n m' hm
  obtain ⟨h₁, h₂⟩ := h k n m' hm
  exact ⟨List.mem_cons_of_mem _ h₁, h₂⟩

theorem Lost.grows (h : Lost ref slot a m) (hg : Grows a a') : Lost ref slot a' m := by
  obtain ⟨n, m', hs, hm, hne⟩ := h
  exact ⟨n, m', hs, hg.get hm, hne⟩

/-- A lost proposal is in no log. -/
theorem Lost.not_mem (h : Lost ref slot a m) (ho : Ordered ref slot a) : ∀ k, m ∉ a.log k := by
  intro k hk
  obtain ⟨n, m', hs, hm, hne⟩ := h
  obtain ⟨n', hn'⟩ := List.mem_iff_getElem?.mp hk
  obtain ⟨-, rfl, hs'⟩ := ho k n' m hn'
  obtain rfl : n = n' := Option.some.inj (hs.symm.trans hs')
  exact hne (Option.some.inj (hm.symm.trans hn'))

section Commit

variable [DecidableEq κ] [DecidableEq μ]

/-- What a commit does. -/
theorem commit_eq_some (h : a.commit ref slot m = some a') :
    m ∈ a.sent ∧ slot m = some (a.log (ref m)).length ∧ a'.sent = a.sent ∧
      a'.log = update a.log (ref m) (a.log (ref m) ++ [m]) := by
  unfold Arbiter.commit at h
  split at h
  · rename_i hc
    obtain rfl := Option.some.inj h
    exact ⟨hc.1, hc.2, rfl, rfl⟩
  · cases h

theorem commit_grows (h : a.commit ref slot m = some a') : Grows a a' := by
  obtain ⟨-, -, -, hl⟩ := commit_eq_some h
  intro k
  rw [hl]
  by_cases hk : k = ref m
  · subst hk
    rw [update_self]
    exact List.prefix_append _ _
  · rw [update_of_ne hk]

/-- A log grows by at most one entry at a commit. -/
theorem commit_length_le (h : a.commit ref slot m = some a') (k : κ) :
    (a'.log k).length ≤ (a.log k).length + 1 := by
  obtain ⟨-, -, -, hl⟩ := commit_eq_some h
  rw [hl]
  by_cases hk : k = ref m
  · subst hk
    simp
  · rw [update_of_ne hk]
    omega

theorem Ordered.commit (ho : Ordered ref slot a) (h : a.commit ref slot m = some a') :
    Ordered ref slot a' := by
  obtain ⟨hm, hs, hsent, hl⟩ := commit_eq_some h
  intro k n m' hn
  rw [hsent]
  rw [hl] at hn
  by_cases hk : k = ref m
  · subst hk
    rw [update_self] at hn
    rcases lt_trichotomy n (a.log (ref m)).length with hlt | rfl | hgt
    · rw [List.getElem?_append_left hlt] at hn
      exact ho _ n m' hn
    · obtain rfl : m = m' := by simpa using hn
      exact ⟨hm, rfl, hs⟩
    · rw [List.getElem?_eq_none (by simpa using Nat.succ_le_of_lt hgt)] at hn
      cases hn
  · rw [update_of_ne hk] at hn
    exact ho k n m' hn

end Commit

end FirstWins
