import Mathlib.Data.List.Infix

/-!
# The first match

A search without an anchor tries every place of a text, one after the other.

- `first`: what is matched at the first place where something is.
- `first_skip`: a piece where nothing can begin is passed over.
- `first_cut`: behind a piece that a match cannot leave, the search goes on.
- `headed`: a pattern that begins with fixed symbols.
-/

namespace Search

variable {α β : Type*} {f : List α → Option β} {s t piece rest head : List α} {a stop : α} {b : β}

/-- What `f` matches at the first place where it matches. -/
def first (f : List α → Option β) : List α → Option β
  | [] => f []
  | a :: s => (f (a :: s)).or (first f s)

theorem first_of_some (h : f s = some b) : first f s = some b := by
  cases s with
  | nil => exact h
  | cons a s => rw [first, h, Option.some_or]

theorem first_of_none (h : f (a :: s) = none) : first f (a :: s) = first f s := by rw [first, h, Option.none_or]

/-- A piece where nothing can begin is passed over. -/
theorem first_skip (h : ∀ t, t ≠ [] → t <:+ piece → f (t ++ rest) = none) : first f (piece ++ rest) = first f rest := by
  induction piece with
  | nil => rfl
  | cons a piece ih =>
    have hhere := h (a :: piece) (List.cons_ne_nil _ _) (List.suffix_refl _)
    rw [List.cons_append] at hhere ⊢
    rw [first_of_none hhere]
    exact ih fun t hne ht => h t hne (ht.trans (List.suffix_cons _ _))

/-- Behind a piece that a match cannot leave, the search goes on. -/
theorem first_cut (hnil : f [] = none) (h : ∀ t, t ≠ [] → t <:+ piece → f (t ++ rest) = f t) :
    first f (piece ++ rest) = (first f piece).or (first f rest) := by
  induction piece with
  | nil => rw [first, hnil, Option.none_or, List.nil_append]
  | cons a piece ih =>
    have hhere := h (a :: piece) (List.cons_ne_nil _ _) (List.suffix_refl _)
    rw [List.cons_append] at hhere ⊢
    rw [first, hhere, first, ih fun t hne ht => h t hne (ht.trans (List.suffix_cons _ _)), Option.or_assoc]

/-! ## Patterns that begin with fixed symbols -/

/-- In front of a symbol that `head` does not have, `head` begins where it began. -/
theorem prefix_append_stop (hstop : stop ∉ head) : head <+: t ++ stop :: rest ↔ head <+: t := by
  constructor
  · intro h
    rcases List.prefix_or_prefix_of_prefix h (List.prefix_append t _) with h' | ⟨u, rfl⟩
    · exact h'
    · cases u with
      | nil => exact ⟨[], by simp⟩
      | cons c u =>
        have hc : (c :: u) <+: stop :: rest := (List.prefix_append_right_inj t).mp h
        obtain rfl := (List.cons_prefix_cons.mp hc).1
        exact absurd (List.mem_append_right t List.mem_cons_self) hstop
  · exact fun h => h.trans (List.prefix_append _ _)

/-- Up to the first `stop`, two texts are the same. -/
theorem prefix_stop_iff (hs : stop ∉ s) (ht : stop ∉ t) : s ++ [stop] <+: t ++ stop :: rest ↔ t = s := by
  constructor
  · rintro ⟨u, hu⟩
    rw [List.append_assoc, List.singleton_append] at hu
    induction s generalizing t with
    | nil =>
      cases t with
      | nil => rfl
      | cons c t => exact absurd ((List.cons.inj hu).1 ▸ List.mem_cons_self) ht
    | cons c s ih =>
      cases t with
      | nil => exact absurd ((List.cons.inj hu).1 ▸ List.mem_cons_self) hs
      | cons d t =>
        obtain ⟨rfl, hmore⟩ := List.cons.inj hu
        rw [ih (mt (List.mem_cons_of_mem _) hs) (mt (List.mem_cons_of_mem _) ht) hmore]
  · rintro rfl
    exact ⟨rest, by rw [List.append_assoc, List.singleton_append]⟩

/-- Symbols that differ from those of `head` somewhere do not begin it. -/
theorem not_prefix_append [DecidableEq α] (h : (head.zip s).any (fun p => decide (p.1 ≠ p.2)) = true) :
    ¬ head <+: s ++ rest := by
  obtain ⟨⟨a, b⟩, hmem, hne⟩ := List.any_eq_true.mp h
  obtain ⟨i, hi, heq⟩ := List.getElem_of_mem hmem
  rw [List.getElem_zip] at heq
  obtain ⟨rfl, rfl⟩ := Prod.mk.inj heq
  rintro ⟨u, hu⟩
  have hlen := List.length_zip ▸ hi
  have hget := congrArg (fun l => l[i]?) hu
  rw [List.getElem?_append_left (by omega), List.getElem?_append_left (by omega), List.getElem?_eq_getElem (by omega),
    List.getElem?_eq_getElem (by omega)] at hget
  exact of_decide_eq_true hne (Option.some.inj hget)

section

variable [DecidableEq α]

/-- `head`, and what `f` matches behind it. -/
def headed (head : List α) (f : List α → Option β) (s : List α) : Option β :=
  if head <+: s then f (s.drop head.length) else none

theorem headed_append (head : List α) (f : List α → Option β) (s : List α) : headed head f (head ++ s) = f s := by
  rw [headed, if_pos (List.prefix_append _ _), List.drop_left]

theorem headed_of_not (h : ¬ head <+: s) : headed head f s = none := if_neg h

/-- Nothing begins in a piece without the first symbol. -/
theorem first_headed_skip (hhead : head.head? = some a) (hpiece : a ∉ piece) :
    first (headed head f) (piece ++ rest) = first (headed head f) rest := by
  refine first_skip fun t hne ht => headed_of_not ?_
  obtain ⟨head, rfl⟩ := List.head?_eq_some_iff.mp hhead
  cases t with
  | nil => exact absurd rfl hne
  | cons c t =>
    rintro ⟨u, hu⟩
    rw [List.cons_append, List.cons_append] at hu
    have hc := (List.cons.inj hu).1
    exact hpiece (hc ▸ ht.subset List.mem_cons_self)

/-- Nor in a piece that begins with it and goes on otherwise. -/
theorem first_headed_skip_cons (hhead : head.head? = some a) (hpiece : a ∉ piece) (h : ¬ head <+: a :: piece ++ rest) :
    first (headed head f) (a :: piece ++ rest) = first (headed head f) rest := by
  rw [List.cons_append] at h ⊢
  rw [first_of_none (headed_of_not h), first_headed_skip hhead hpiece]

/-- In front of a symbol that `head` does not have, the search ends there. -/
theorem first_headed_cut (hne : head ≠ []) (hstop : stop ∉ head) (hf : ∀ t, f (t ++ stop :: rest) = f t) :
    first (headed head f) (piece ++ stop :: rest) =
      (first (headed head f) piece).or (first (headed head f) (stop :: rest)) := by
  refine first_cut (headed_of_not fun h => hne (List.prefix_nil.mp h)) fun t _ _ => ?_
  by_cases h : head <+: t
  · obtain ⟨u, rfl⟩ := h
    rw [List.append_assoc, headed_append, headed_append, hf]
  · rw [headed_of_not h, headed_of_not (mt (prefix_append_stop hstop).mp h)]

end

end Search
