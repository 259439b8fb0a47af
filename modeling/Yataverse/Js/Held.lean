import Yataverse.Js.Shortest

/-!
# The numbers of a parsed text

- `Numbers P`: every number, at any depth.
- **`numbers_of_parse`**: `JSON.parse` rounds, so that every number of a parsed text is held by a double.
-/

namespace Js

namespace Json

section Numbers

variable (P : Number → Prop)

mutual

/-- Every number, at any depth. -/
def Numbers : Json → Prop
  | num x => P x
  | arr xs => NumbersList xs
  | obj kvs => NumbersEntries kvs
  | _ => True

def NumbersList : List Json → Prop
  | [] => True
  | x :: xs => Numbers x ∧ NumbersList xs

def NumbersEntries : List (JsString × Json) → Prop
  | [] => True
  | e :: kvs => Numbers e.2 ∧ NumbersEntries kvs

end

end Numbers

variable {P : Number → Prop}

theorem numbersEntries_iff {kvs : List (JsString × Json)} : NumbersEntries P kvs ↔ ∀ e ∈ kvs, Numbers P e.2 := by
  induction kvs with
  | nil => simp [NumbersEntries]
  | cons e kvs ih => simp [NumbersEntries, ih]

theorem Numbers.get {v : Json} (h : Numbers P v) (k : JsString) : Numbers P (v.get k) := by
  cases v with
  | obj kvs =>
    induction kvs with
    | nil => trivial
    | cons e kvs ih =>
      rw [Numbers, NumbersEntries] at h
      rw [Json.get, lookup]
      split_ifs
      · exact h.1
      · exact ih h.2
  | _ => trivial

theorem numbersEntries_insertNew {k : JsString} {v : Json} {kvs : List (JsString × Json)} (hv : Numbers P v)
    (h : NumbersEntries P kvs) : NumbersEntries P (insertNew k v kvs) := by
  rw [numbersEntries_iff] at h ⊢
  intro e he
  rcases mem_insertNew he with rfl | he
  · exact hv
  · exact h e he

theorem readNumber_numbers (hP : ∀ q, P (Number.ofRat q)) {s r : JsString} {v : Json}
    (h : readNumber s = some (v, r)) : Numbers P v := by
  simp only [readNumber] at h
  split at h
  · cases h
  · simp only [Option.bind_eq_bind, Option.bind_eq_some_iff] at h
    obtain ⟨_, _, _, _, h⟩ := h
    obtain ⟨rfl, -⟩ := Prod.mk.inj (Option.some.inj h)
    exact hP _

theorem readWord_numbers {w s r : JsString} {v v' : Json} (hv : Numbers P v')
    (h : readWord w v' s = some (v, r)) : Numbers P v := by
  rw [readWord] at h
  split at h
  · obtain ⟨rfl, -⟩ := Prod.mk.inj (Option.some.inj h)
    exact hv
  · cases h

mutual

theorem readValue_numbers (hP : ∀ q, P (Number.ofRat q)) : ∀ {fuel : Nat} {s r : JsString} {v : Json},
    readValue fuel s = some (v, r) → Numbers P v
  | fuel + 1, s, r, v, h => by
    simp only [readValue] at h
    split at h
    · cases h
    · split_ifs at h
      · obtain ⟨p, -, hp⟩ := Option.map_eq_some_iff.mp h
        obtain ⟨rfl, -⟩ := Prod.mk.inj hp
        trivial
      · split at h
        · obtain ⟨rfl, -⟩ := Prod.mk.inj (Option.some.inj h)
          trivial
        · obtain ⟨⟨xs, r'⟩, hx, hp⟩ := Option.map_eq_some_iff.mp h
          obtain ⟨rfl, -⟩ := Prod.mk.inj hp
          exact readElements_numbers hP hx
      · split at h
        · obtain ⟨rfl, -⟩ := Prod.mk.inj (Option.some.inj h)
          trivial
        · obtain ⟨⟨kvs, r'⟩, hx, hp⟩ := Option.map_eq_some_iff.mp h
          obtain ⟨rfl, -⟩ := Prod.mk.inj hp
          exact readMembers_numbers hP hx
      · exact readWord_numbers (by trivial) h
      · exact readWord_numbers (by trivial) h
      · exact readWord_numbers (by trivial) h
      · exact readNumber_numbers hP h

theorem readElements_numbers (hP : ∀ q, P (Number.ofRat q)) : ∀ {fuel : Nat} {s r : JsString} {xs : List Json},
    readElements fuel s = some (xs, r) → NumbersList P xs
  | fuel + 1, s, r, xs, h => by
    simp only [readElements, Option.bind_eq_bind, Option.bind_eq_some_iff] at h
    obtain ⟨⟨v, s'⟩, hv, h⟩ := h
    have hw := readValue_numbers hP hv
    split at h
    · obtain ⟨⟨xs', r'⟩, hx, h⟩ := Option.bind_eq_some_iff.mp h
      obtain ⟨rfl, -⟩ := Prod.mk.inj (Option.some.inj h)
      exact ⟨hw, readElements_numbers hP hx⟩
    · obtain ⟨_, -, hp⟩ := Option.map_eq_some_iff.mp h
      obtain ⟨rfl, -⟩ := Prod.mk.inj hp
      exact ⟨hw, trivial⟩

theorem readMembers_numbers (hP : ∀ q, P (Number.ofRat q)) :
    ∀ {fuel : Nat} {s r : JsString} {kvs : List (JsString × Json)},
      readMembers fuel s = some (kvs, r) → NumbersEntries P kvs
  | fuel + 1, s, r, kvs, h => by
    simp only [readMembers, Option.bind_eq_bind, Option.bind_eq_some_iff] at h
    obtain ⟨_, -, ⟨k, s'⟩, -, _, -, ⟨v, s''⟩, hv, h⟩ := h
    have hw := readValue_numbers hP hv
    split at h
    · obtain ⟨⟨kvs', r'⟩, hx, h⟩ := Option.bind_eq_some_iff.mp h
      obtain ⟨rfl, -⟩ := Prod.mk.inj (Option.some.inj h)
      exact numbersEntries_insertNew hw (readMembers_numbers hP hx)
    · obtain ⟨_, -, hp⟩ := Option.map_eq_some_iff.mp h
      obtain ⟨rfl, -⟩ := Prod.mk.inj hp
      exact ⟨hw, trivial⟩

end

/-- **Parsed numbers are doubles.** -/
theorem numbers_of_parse {s : JsString} {v : Json} (h : parse s = some v) : Numbers Number.Held v := by
  simp only [parse] at h
  split at h
  · rename_i hv
    split at h
    · obtain rfl := Option.some.inj h
      exact readValue_numbers Number.ofRat_held hv
    · cases h
  · cases h

end Json

end Js
