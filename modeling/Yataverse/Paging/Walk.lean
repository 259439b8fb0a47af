import Mathlib.Data.List.Basic
import Mathlib.Tactic.Common

/-!
# Walks over pages

A list is served in pages; each page but the last one says where the next one is.

- `walk`: the pages from a place on, as long as there is a next one.
- `Chunked`: each page is a part of what remains, and not an empty one.
- **`Chunked.walk`**: the walk ends, and its pages are the list.
-/

namespace Paging

variable {C P α : Type*} {page : C → Option P} {next : P → Option C} {rows : P → List α} {place : Nat → C} {all : List α}

/-- The pages from a place on. -/
def walk (page : C → Option P) (next : P → Option C) : Nat → C → Option (List P)
  | 0, _ => none
  | fuel + 1, c =>
    (page c).bind fun p =>
      match next p with
      | none => some [p]
      | some c' => (walk page next fuel c').map (p :: ·)

/-- Each page is a part of what remains. -/
structure Chunk (next : P → Option C) (rows : P → List α) (place : Nat → C) (all : List α) (offset : Nat) (p : P) : Prop where
  ne_nil : rows p ≠ []
  part : rows p <+: all.drop offset
  next : next p = if offset + (rows p).length < all.length then some (place (offset + (rows p).length)) else none

/-- A list that is served in pages. -/
def Chunked (page : C → Option P) (next : P → Option C) (rows : P → List α) (place : Nat → C) (all : List α) : Prop :=
  ∀ offset < all.length, ∃ p, page (place offset) = some p ∧ Chunk next rows place all offset p

/-- What a walk has seen. -/
structure Walked (page : C → Option P) (next : P → Option C) (rows : P → List α) (place : Nat → C) (all : List α)
    (offset : Nat) (pages : List P) : Prop where
  flat : pages.flatMap rows = all.drop offset
  chunks : ∀ p ∈ pages, ∃ o, offset ≤ o ∧ o < all.length ∧ page (place o) = some p ∧ Chunk next rows place all o p

/-- **The walk ends and sees the list**, each element once and in order. -/
theorem Chunked.walk (h : Chunked page next rows place all) {offset fuel : Nat} (hoffset : offset < all.length)
    (hfuel : all.length - offset ≤ fuel) :
    ∃ pages, Paging.walk page next fuel (place offset) = some pages ∧ Walked page next rows place all offset pages := by
  induction fuel generalizing offset with
  | zero => omega
  | succ fuel ih =>
    obtain ⟨p, hp, hchunk⟩ := h offset hoffset
    have hpos := List.length_pos_of_ne_nil hchunk.ne_nil
    obtain ⟨rest, hrest⟩ := hchunk.part
    have hdrop : rest = all.drop (offset + (rows p).length) := by
      rw [← List.drop_drop, ← hrest, List.drop_left]
    rw [Paging.walk, hp, Option.bind_some, hchunk.next]
    by_cases hmore : offset + (rows p).length < all.length
    · obtain ⟨pages, hpages, hwalked⟩ := ih hmore (by omega)
      rw [if_pos hmore]
      dsimp only
      rw [hpages]
      refine ⟨p :: pages, rfl, ?_, fun q hq => ?_⟩
      · rw [List.flatMap_cons, hwalked.flat, ← hdrop, hrest]
      · rcases List.mem_cons.mp hq with rfl | hq
        · exact ⟨offset, Nat.le_refl _, hoffset, hp, hchunk⟩
        · obtain ⟨o, hle, hlt, hq⟩ := hwalked.chunks q hq
          exact ⟨o, by omega, hlt, hq⟩
    · rw [if_neg hmore]
      refine ⟨[p], rfl, ?_, fun q hq => ?_⟩
      · rw [List.drop_of_length_le (Nat.le_of_not_lt hmore)] at hdrop
        rw [List.flatMap_singleton, ← hrest, hdrop, List.append_nil]
      · obtain rfl := List.mem_singleton.mp hq
        exact ⟨offset, Nat.le_refl _, hoffset, hp, hchunk⟩

end Paging
