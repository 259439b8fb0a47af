import Mathlib.Tactic.Common

/-!
# Reading a source while keeping what is read

A copy loop reads a source from front to back and keeps every item it reads. It does not
see what it has not read, so it behaves the same wherever what it reads stands.

- `Tape`: what is left to read, and what has been read.
- `Tee ε α`: a reader that keeps what it reads; `next`, `take`, `count` are its steps.
- `Reads`: the reader reads this part of a source and gives this.
- `Local`: the reader consumes a part of the source, and does the same with that part in
  front of anything else. `Local.bind` and the lemmas beside the steps are its rules.
-/

namespace Copying

variable {τ ε α β : Type}

/-- What is left of a source, and what has been read of it. -/
structure Tape (τ : Type) where
  rest : List τ
  done : List τ

/-- A reader of items `τ` that keeps what it reads and may fail with `ε`. -/
abbrev Tee (τ ε : Type) := StateT (Tape τ) (Except ε)

namespace Tee

/-- Fail. -/
def fail (e : ε) : Tee τ ε α := fun _ => .error e

/-- Read one item; `e` where there is none. -/
def next (e : ε) : Tee τ ε τ := fun s =>
  match s.rest with
  | [] => .error e
  | x :: rest => .ok (x, ⟨rest, s.done ++ [x]⟩)

/-- Read `n` items; `e` where there are fewer. -/
def take (n : Nat) (e : ε) : Tee τ ε (List τ) := fun s =>
  if n ≤ s.rest.length then .ok (s.rest.take n, ⟨s.rest.drop n, s.done ++ s.rest.take n⟩)
  else .error e

/-- How much has been read. -/
def count : Tee τ ε Nat := fun s => .ok (s.done.length, s)

/-! ## Readers do not see what they have not read -/

/-- What `p` reads is a part of the source, and in front of anything else it reads the
same and gives the same. -/
def Local (p : Tee τ ε α) : Prop :=
  ∀ s a s', p s = .ok (a, s') → ∃ part, s.rest = part ++ s'.rest ∧ s'.done = s.done ++ part ∧
    ∀ other, p ⟨part ++ other, s.done⟩ = .ok (a, ⟨other, s'.done⟩)

theorem run_bind_eq_ok {p : Tee τ ε α} {f : α → Tee τ ε β} {s s'' : Tape τ} {b : β} :
    (p >>= f) s = .ok (b, s'') ↔ ∃ a s', p s = .ok (a, s') ∧ f a s' = .ok (b, s'') := by
  show (p s >>= fun r => f r.1 r.2) = _ ↔ _
  cases p s with
  | error e => exact ⟨nofun, fun ⟨_, _, h, _⟩ => nomatch h⟩
  | ok r =>
    constructor
    · exact fun h => ⟨r.1, r.2, rfl, h⟩
    · rintro ⟨a, s', ⟨⟩, h⟩
      exact h

theorem local_pure (a : α) : Local (pure a : Tee τ ε α) := by
  rintro s _ _ ⟨⟩
  exact ⟨[], rfl, (List.append_nil _).symm, fun _ => rfl⟩

theorem local_fail (e : ε) : Local (fail e : Tee τ ε α) := nofun

theorem local_count : Local (count : Tee τ ε Nat) := by
  rintro s _ _ ⟨⟩
  exact ⟨[], rfl, (List.append_nil _).symm, fun _ => rfl⟩

theorem local_next (e : ε) : Local (next e : Tee τ ε τ) := by
  rintro ⟨rest, done⟩ a s' h
  cases rest with
  | nil => cases h
  | cons x rest =>
    obtain ⟨rfl, rfl⟩ := Prod.mk.inj (Except.ok.inj h)
    exact ⟨[x], rfl, rfl, fun _ => rfl⟩

theorem run_take_eq_ok {n : Nat} {e : ε} {s s' : Tape τ} {part : List τ} :
    take n e s = .ok (part, s') ↔
      part.length = n ∧ s.rest = part ++ s'.rest ∧ s'.done = s.done ++ part := by
  obtain ⟨rest, done⟩ := s
  obtain ⟨rest', done'⟩ := s'
  constructor
  · intro h
    simp only [take] at h
    split at h
    · rename_i hn
      obtain ⟨rfl, hs⟩ := Prod.mk.inj (Except.ok.inj h)
      obtain ⟨rfl, rfl⟩ := Tape.mk.inj hs
      exact ⟨List.length_take_of_le hn, (List.take_append_drop n rest).symm, rfl⟩
    · cases h
  · rintro ⟨rfl, h, h'⟩
    obtain rfl : rest = part ++ rest' := h
    obtain rfl : done' = done ++ part := h'
    simp [take]

theorem local_take (n : Nat) (e : ε) : Local (take n e : Tee τ ε (List τ)) := by
  rintro s part s' h
  obtain ⟨hn, hrest, hdone⟩ := run_take_eq_ok.mp h
  exact ⟨part, hrest, hdone, fun other => run_take_eq_ok.mpr ⟨hn, rfl, hdone⟩⟩

theorem Local.bind {p : Tee τ ε α} {f : α → Tee τ ε β} (hp : Local p) (hf : ∀ a, Local (f a)) :
    Local (p >>= f) := by
  rintro s b s'' h
  obtain ⟨a, s', h₁, h₂⟩ := run_bind_eq_ok.mp h
  obtain ⟨part, hrest, hdone, hsame⟩ := hp s a s' h₁
  obtain ⟨part', hrest', hdone', hsame'⟩ := hf a s' b s'' h₂
  refine ⟨part ++ part', ?_, ?_, fun other => ?_⟩
  · rw [hrest, hrest', List.append_assoc]
  · rw [hdone', hdone, List.append_assoc]
  · rw [List.append_assoc]
    exact run_bind_eq_ok.mpr ⟨a, _, hsame _, hsame' other⟩

theorem Local.ite {c : Prop} [Decidable c] {p q : Tee τ ε α} (hp : Local p) (hq : Local q) :
    Local (if c then p else q) := by
  split
  · exact hp
  · exact hq

/-- A check: fail with `e` unless `c`. -/
def require (c : Prop) [Decidable c] (e : ε) : Tee τ ε Unit := if c then pure () else fail e

theorem run_require_eq_ok {c : Prop} [Decidable c] {e : ε} {u : Unit} {s s' : Tape τ} :
    require c e s = .ok (u, s') ↔ c ∧ s' = s := by
  unfold require
  split
  · rename_i hc
    exact ⟨fun h => ⟨hc, (Prod.mk.inj (Except.ok.inj h)).2.symm⟩, fun ⟨_, h⟩ => h ▸ rfl⟩
  · rename_i hc
    exact ⟨nofun, fun ⟨h, _⟩ => absurd h hc⟩

theorem local_require (c : Prop) [Decidable c] (e : ε) : Local (require c e : Tee τ ε Unit) :=
  Local.ite (local_pure ()) (local_fail e)

/-! ## What a reader reads -/

/-- Behind `done`, `p` reads `part` and gives `a`. -/
def Reads (p : Tee τ ε α) (done part : List τ) (a : α) : Prop :=
  ∀ rest, p ⟨part ++ rest, done⟩ = .ok (a, ⟨rest, done ++ part⟩)

variable {p : Tee τ ε α} {f : α → Tee τ ε β} {done part part' : List τ} {a : α} {b : β}

theorem reads_pure : Reads (pure a : Tee τ ε α) done [] a := by
  intro rest
  rw [List.append_nil]
  rfl

theorem reads_next {e : ε} {x : τ} : Reads (next e) done [x] x := fun _ => rfl

theorem reads_take {e : ε} : Reads (take part.length e) done part part := by
  intro rest
  exact run_take_eq_ok.mpr ⟨rfl, rfl, rfl⟩

theorem reads_count : Reads (count : Tee τ ε Nat) done [] done.length := by
  intro rest
  rw [List.append_nil]
  rfl

theorem reads_require {c : Prop} [Decidable c] {e : ε} (hc : c) : Reads (require c e) done [] () := by
  intro rest
  rw [List.append_nil]
  exact run_require_eq_ok.mpr ⟨hc, rfl⟩

/-- One reader after the other. -/
theorem Reads.bind (h : Reads p done part a) (h' : Reads (f a) (done ++ part) part' b) :
    Reads (p >>= f) done (part ++ part') b := by
  intro rest
  refine run_bind_eq_ok.mpr ⟨a, ⟨part' ++ rest, done ++ part⟩, ?_, ?_⟩
  · rw [List.append_assoc]
    exact h (part' ++ rest)
  · rw [← List.append_assoc]
    exact h' rest

/-- A step that reads nothing comes first. -/
theorem Reads.bind_nil (h : Reads p done [] a) (h' : Reads (f a) done part b) :
    Reads (p >>= f) done part b := by
  rw [← List.append_nil done] at h'
  exact Reads.bind h h'

/-- A step that reads nothing comes last. -/
theorem Reads.bind_last (h : Reads p done part a) (h' : Reads (f a) (done ++ part) [] b) :
    Reads (p >>= f) done part b := by
  rw [← List.append_nil part]
  exact h.bind h'

end Tee

end Copying
