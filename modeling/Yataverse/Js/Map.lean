import Mathlib.Data.List.Nodup

/-!
# JavaScript maps

- `JsMap`: a `Map`, as its entries in the order in which their keys were first set. The
  keys are distinct by construction.
- `get_set`, `has_set`: what is read after a `set`.
- `get_eq_some`: what is read at all.
-/

namespace Js

variable {κ ν : Type} [DecidableEq κ]

/-- Replace the value of `k`, or add the entry at the end. -/
def setEntry (k : κ) (v : ν) : List (κ × ν) → List (κ × ν)
  | [] => [(k, v)]
  | e :: es => if e.1 = k then (k, v) :: es else e :: setEntry k v es

theorem mem_keys_setEntry {k k' : κ} {v : ν} {es : List (κ × ν)} :
    k' ∈ (setEntry k v es).map Prod.fst ↔ k' = k ∨ k' ∈ es.map Prod.fst := by
  induction es with
  | nil => simp [setEntry]
  | cons e es ih =>
    by_cases he : e.1 = k
    · simp [setEntry, he]
    · simp only [setEntry, if_neg he, List.map_cons, List.mem_cons, ih]
      exact or_left_comm

theorem nodup_keys_setEntry (k : κ) (v : ν) {es : List (κ × ν)}
    (h : (es.map Prod.fst).Nodup) : ((setEntry k v es).map Prod.fst).Nodup := by
  induction es with
  | nil => simp [setEntry]
  | cons e es ih =>
    obtain ⟨hne, h⟩ := List.nodup_cons.mp h
    by_cases he : e.1 = k
    · rw [setEntry, if_pos he]
      exact List.nodup_cons.mpr ⟨by rwa [he] at hne, h⟩
    · rw [setEntry, if_neg he, List.map_cons, List.nodup_cons, mem_keys_setEntry]
      exact ⟨fun hc => hc.elim he hne, ih h⟩

theorem lookup_cons_ite (k : κ) (e : κ × ν) (es : List (κ × ν)) :
    (e :: es).lookup k = if k = e.1 then some e.2 else es.lookup k := by
  obtain ⟨k₁, v₁⟩ := e
  by_cases h : k = k₁
  · rw [h, List.lookup_cons_self, if_pos rfl]
  · rw [List.lookup_cons, beq_false_of_ne h, if_neg h]

theorem lookup_setEntry (k k' : κ) (v : ν) (es : List (κ × ν)) :
    (setEntry k v es).lookup k' = if k' = k then some v else es.lookup k' := by
  induction es with
  | nil => exact lookup_cons_ite ..
  | cons e es ih =>
    by_cases he : e.1 = k
    · rw [setEntry, if_pos he, lookup_cons_ite, lookup_cons_ite, he]
      split <;> rfl
    · rw [setEntry, if_neg he, lookup_cons_ite, lookup_cons_ite, ih]
      by_cases h : k' = k
      · rw [if_pos h, if_pos h, if_neg (h ▸ Ne.symm he)]
      · rw [if_neg h, if_neg h]

theorem mem_setEntry {k : κ} {v : ν} {es : List (κ × ν)} {e : κ × ν}
    (h : e ∈ setEntry k v es) : e = (k, v) ∨ e ∈ es := by
  induction es with
  | nil => exact .inl (List.mem_singleton.mp h)
  | cons e' es ih =>
    rw [setEntry] at h
    split_ifs at h
    · exact (List.mem_cons.mp h).imp id (List.mem_cons_of_mem _)
    · rcases List.mem_cons.mp h with rfl | h
      · exact .inr List.mem_cons_self
      · exact (ih h).imp id (List.mem_cons_of_mem _)

theorem setEntry_new {k : κ} {v : ν} {es : List (κ × ν)} (h : k ∉ es.map Prod.fst) :
    setEntry k v es = es ++ [(k, v)] := by
  induction es with
  | nil => rfl
  | cons e es ih =>
    rw [List.map_cons, List.mem_cons, not_or] at h
    rw [setEntry, if_neg (Ne.symm h.1), ih h.2, List.cons_append]

/-- A `Map`. -/
structure JsMap (κ ν : Type) where
  entries : List (κ × ν)
  nodup : (entries.map Prod.fst).Nodup

namespace JsMap

/-- `new Map()`. -/
def empty : JsMap κ ν := ⟨[], List.nodup_nil⟩

def get (m : JsMap κ ν) (k : κ) : Option ν := m.entries.lookup k

def has (m : JsMap κ ν) (k : κ) : Bool := (m.get k).isSome

def set (m : JsMap κ ν) (k : κ) (v : ν) : JsMap κ ν :=
  ⟨setEntry k v m.entries, nodup_keys_setEntry k v m.nodup⟩

@[simp] theorem get_empty (k : κ) : (empty : JsMap κ ν).get k = none := rfl

@[simp] theorem has_empty (k : κ) : (empty : JsMap κ ν).has k = false := rfl

theorem get_set (m : JsMap κ ν) (k k' : κ) (v : ν) :
    (m.set k v).get k' = if k' = k then some v else m.get k' := lookup_setEntry k k' v m.entries

theorem has_set (m : JsMap κ ν) (k k' : κ) (v : ν) :
    (m.set k v).has k' = true ↔ k' = k ∨ m.has k' = true := by
  rw [has, get_set]
  split <;> simp [has, *]

theorem has_iff {m : JsMap κ ν} {k : κ} : m.has k = true ↔ k ∈ m.entries.map Prod.fst := by
  rw [has, get]
  induction m.entries with
  | nil => simp
  | cons e es ih =>
    rw [lookup_cons_ite, List.map_cons, List.mem_cons]
    by_cases hk : k = e.1
    · simp [hk]
    · rw [if_neg hk, ih]
      simp [hk]

/-- The entries are what is read. -/
theorem get_eq_some {m : JsMap κ ν} {e : κ × ν} : m.get e.1 = some e.2 ↔ e ∈ m.entries := by
  constructor
  · intro h
    obtain ⟨ls, rs, heq, -⟩ := List.lookup_eq_some_iff.mp h
    exact heq ▸ List.mem_append_right _ List.mem_cons_self
  · intro h
    obtain ⟨ls, rs, heq⟩ := List.append_of_mem h
    refine List.lookup_eq_some_iff.mpr ⟨ls, rs, heq, fun e' he' => ?_⟩
    have hnodup := m.nodup
    rw [heq, List.map_append] at hnodup
    refine bne_iff_ne.mpr fun hkey => ?_
    exact (List.nodup_append.mp hnodup).2.2 e'.1 (List.mem_map_of_mem he') e.1 List.mem_cons_self hkey.symm

theorem has_eq_true {m : JsMap κ ν} {k : κ} : m.has k = true ↔ ∃ v, m.get k = some v :=
  Option.isSome_iff_exists

end JsMap

end Js
