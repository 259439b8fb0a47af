import Yataverse.Js.Decode
import Yataverse.Js.Held
import Yataverse.Js.Property
import Yataverse.Js.Readers

/-!
# `JSON.parse` behind `JSON.stringify`

- `Finite`: a number that is printed.
- `sort`: a value as it is read back, with the keys in order.
- **`parse_stringify`**: any value with finite numbers is read back, whatever the order of its keys is.
- **`parse_written`**: also where the text is written to a file as UTF-8.
-/

namespace Js

namespace Json

/-- A double that `JSON.stringify` prints: it is not infinite. -/
def Finite (x : Number) : Prop := x.Held ∧ x.value?.isSome = true

theorem Finite.value {x : Number} (h : Finite x) : ∃ q, x.value? = some q := Option.isSome_iff_exists.mp h.2

mutual

/-- A value as it is read back: the keys are in order, and the last one of equal ones counts. -/
def sort : Json → Json
  | arr xs => arr (sortList xs)
  | obj kvs => obj (sortEntries kvs)
  | v => v

def sortList : List Json → List Json
  | [] => []
  | x :: xs => sort x :: sortList xs

def sortEntries : List (JsString × Json) → List (JsString × Json)
  | [] => []
  | e :: kvs => insertNew e.1 (sort e.2) (sortEntries kvs)

end

variable {v : Json} {kvs kvs' : List (JsString × Json)} {k k' : JsString} {s t r : JsString}

/-! ## Reading back -/

/-- How the text of a value starts. -/
theorem print_starts (h : v.Numbers Finite) : ∃ u t, print stringify v = u :: t ∧ Starts u := by
  cases v with
  | null => exact ⟨_, _, rfl, by unfold Starts; decide⟩
  | bool b => cases b <;> exact ⟨_, _, rfl, by unfold Starts; decide⟩
  | num x =>
    obtain ⟨q, hq⟩ := Finite.value h
    obtain ⟨u, t, htext, hu⟩ := numStr_cons h.1 hq
    exact ⟨u, t, htext, .of_digit hu⟩
  | str s =>
    obtain ⟨body, hbody, -⟩ := readsBack_stringify s
    exact ⟨_, _, hbody, by unfold Starts; decide⟩
  | arr xs => exact ⟨_, _, rfl, by unfold Starts; decide⟩
  | obj kvs => exact ⟨_, _, rfl, by unfold Starts; decide⟩

theorem printList_starts {x : Json} {xs : List Json} (h : NumbersList Finite (x :: xs)) :
    ∃ u t, printList stringify (x :: xs) = u :: t ∧ Starts u := by
  obtain ⟨u, t, hprint, hu⟩ := print_starts h.1
  cases xs with
  | nil => exact ⟨u, t, hprint, hu⟩
  | cons y xs => exact ⟨u, _, by rw [printList, hprint, List.cons_append], hu⟩

mutual

/-- The text of a value, with something else behind it. -/
theorem readValue_stringify : ∀ (v : Json) (fuel : Nat) (r : JsString), v.Numbers Finite → Stops r →
    (print stringify v).length ≤ fuel → readValue fuel (print stringify v ++ r) = some (sort v, r)
  | null, fuel + 1, r, _, _, _ => rfl
  | bool true, fuel + 1, r, _, _, _ => rfl
  | bool false, fuel + 1, r, _, _, _ => rfl
  | num x, fuel, r, hx, hr, hf => by
    obtain ⟨q, hq⟩ := Finite.value hx
    obtain ⟨u, t, htext, hu⟩ := numStr_cons hx.1 hq
    have hread := readNumber_numStr hx.1 hq hr
    rw [print] at hf ⊢
    obtain ⟨fuel, rfl⟩ : ∃ k, fuel = k + 1 := ⟨fuel - 1, by simp [htext] at hf; omega⟩
    rw [htext, List.cons_append] at hread ⊢
    rw [readValue_number hu, hread]
    rfl
  | str s, fuel, r, _, _, hf => by
    obtain ⟨body, h, hb⟩ := readsBack_stringify s
    obtain ⟨fuel, rfl⟩ : ∃ k, fuel = k + 1 := ⟨fuel - 1, by simp [print, h] at hf; omega⟩
    rw [print, h, List.cons_append, readValue, dropWhile_unit (by decide)]
    simp [hb, sort]
  | arr [], fuel + 1, r, _, _, _ => rfl
  | arr (x :: xs), fuel, r, hx, _, hf => by
    obtain ⟨u, t, h, hu⟩ := printList_starts hx
    obtain ⟨fuel, rfl⟩ : ∃ k, fuel = k + 1 := ⟨fuel - 1, by simp [print] at hf; omega⟩
    have hread := readElements_stringify x xs fuel r hx (by simp [print] at hf; omega)
    rw [h, List.cons_append] at hread
    simpa [print, h, sort] using readValue_arr hu hread
  | obj [], fuel + 1, r, _, _, _ => rfl
  | obj (e :: kvs), fuel, r, hx, _, hf => by
    obtain ⟨t, h⟩ := printEntries_cons readsBack_stringify e kvs
    obtain ⟨fuel, rfl⟩ : ∃ k, fuel = k + 1 := ⟨fuel - 1, by simp [print] at hf; omega⟩
    have hread := readMembers_stringify e kvs fuel r hx (by simp [print] at hf; omega)
    rw [h, List.cons_append] at hread
    simpa [print, h, sort] using readValue_obj (by unfold Starts; decide) hread

theorem readElements_stringify : ∀ (x : Json) (xs : List Json) (fuel : Nat) (r : JsString),
    NumbersList Finite (x :: xs) → (printList stringify (x :: xs)).length < fuel →
      readElements fuel (printList stringify (x :: xs) ++ unit ']' :: r) = some (sortList (x :: xs), r)
  | x, [], fuel + 1, r, hx, hf => by
    have := readValue_stringify x fuel (unit ']' :: r) hx.1 (.bracket r) (by simp [printList] at hf; omega)
    exact readElements_last this
  | x, y :: xs, fuel + 1, r, hx, hf => by
    rw [printList, List.append_assoc, List.cons_append]
    have h := readValue_stringify x fuel (unit ',' :: (printList stringify (y :: xs) ++ unit ']' :: r)) hx.1 (.comma _)
      (by simp [printList] at hf; omega)
    exact readElements_next h (readElements_stringify y xs fuel r hx.2 (by simp [printList] at hf ⊢; omega))

theorem readMembers_stringify : ∀ (e : JsString × Json) (kvs : List (JsString × Json)) (fuel : Nat) (r : JsString),
    NumbersEntries Finite (e :: kvs) → (printEntries stringify (e :: kvs)).length < fuel →
      readMembers fuel (printEntries stringify (e :: kvs) ++ unit '}' :: r) = some (sortEntries (e :: kvs), r)
  | (k, v), [], fuel + 1, r, hx, hf => by
    obtain ⟨body, h, hb⟩ := readsBack_stringify k
    have hv := readValue_stringify v fuel (unit '}' :: r) hx.1 (.brace r) (by simp [printEntries] at hf; omega)
    have hk := hb (unit ':' :: (print stringify v ++ unit '}' :: r))
    simpa [printEntries, h, sortEntries, insertNew] using readMembers_last hk hv
  | (k, v), f :: kvs, fuel + 1, r, hx, hf => by
    obtain ⟨body, h, hb⟩ := readsBack_stringify k
    have hv := readValue_stringify v fuel (unit ',' :: (printEntries stringify (f :: kvs) ++ unit '}' :: r)) hx.1
      (.comma _) (by simp [printEntries] at hf; omega)
    have hrest := readMembers_stringify f kvs fuel r hx.2 (by simp [printEntries] at hf ⊢; omega)
    have hk := hb (unit ':' :: (print stringify v ++ unit ',' :: (printEntries stringify (f :: kvs) ++ unit '}' :: r)))
    simpa [printEntries, h, sortEntries] using readMembers_next hk hv hrest

end

/-- **Any value is read back** that has only finite numbers. -/
theorem parse_stringify (h : v.Numbers Finite) : parse (print stringify v) = some v.sort := by
  have := readValue_stringify v ((print stringify v).length + 1) [] h .nil (by omega)
  rw [List.append_nil] at this
  simp [parse, this]

/-! ## Files -/

theorem wellFormed_numStr (x : Number) (ht : WellFormed t) : WellFormed (numStr x ++ t) :=
  WellFormed.append (not_surrogate_of_ascii (printable_numStr x).ascii) ht

mutual

/-- The text of a value has no lone surrogates: quoted strings escape them. -/
theorem wellFormed_print : ∀ (v : Json) {t : JsString}, WellFormed t → WellFormed (print stringify v ++ t)
  | null, _, ht => WellFormed.append (s := js "null") (not_surrogate_of_ascii (by decide)) ht
  | bool true, _, ht => WellFormed.append (s := js "true") (not_surrogate_of_ascii (by decide)) ht
  | bool false, _, ht => WellFormed.append (s := js "false") (not_surrogate_of_ascii (by decide)) ht
  | num x, _, ht => wellFormed_numStr x ht
  | str s, _, ht => WellFormed.stringify_append s ht
  | arr xs, t, ht => by
    rw [print, List.cons_append, List.cons_append, List.append_assoc, List.singleton_append]
    exact WellFormed.cons (by decide) (wellFormed_printList xs (WellFormed.cons (by decide) ht))
  | obj kvs, t, ht => by
    rw [print, List.cons_append, List.cons_append, List.append_assoc, List.singleton_append]
    exact WellFormed.cons (by decide) (wellFormed_printEntries kvs (WellFormed.cons (by decide) ht))

theorem wellFormed_printList : ∀ (xs : List Json) {t : JsString}, WellFormed t → WellFormed (printList stringify xs ++ t)
  | [], _, ht => ht
  | [x], _, ht => wellFormed_print x ht
  | x :: y :: xs, t, ht => by
    rw [printList, List.append_assoc, List.cons_append]
    exact wellFormed_print x (WellFormed.cons (by decide) (wellFormed_printList (y :: xs) ht))

theorem wellFormed_printEntries : ∀ (kvs : List (JsString × Json)) {t : JsString}, WellFormed t →
    WellFormed (printEntries stringify kvs ++ t)
  | [], _, ht => ht
  | [e], t, ht => by
    rw [printEntries, List.append_assoc, List.cons_append]
    exact WellFormed.stringify_append e.1 (WellFormed.cons (by decide) (wellFormed_print e.2 ht))
  | e :: f :: kvs, t, ht => by
    rw [printEntries, List.append_assoc, List.append_assoc, List.cons_append, List.cons_append]
    exact WellFormed.stringify_append e.1 (WellFormed.cons (by decide) (wellFormed_print e.2
      (WellFormed.cons (by decide) (wellFormed_printEntries (f :: kvs) ht))))

end

/-- **What was written to a file**, as UTF-8, is read back. -/
theorem parse_written (h : v.Numbers Finite) : parse (ofUtf8 (utf8 (print stringify v))) = some v.sort := by
  have hwell : WellFormed (print stringify v ++ []) := wellFormed_print v trivial
  rw [List.append_nil] at hwell
  rw [WellFormed.ofUtf8_utf8 hwell, parse_stringify h]

mutual

/-- What is printed is finite. -/
theorem numbers_finite : ∀ {v : Json}, v.Numbers Number.Held → v.finite.Numbers Finite
  | null, _ | bool _, _ | str _, _ => trivial
  | num (.int _), h | num (.frac _), h => ⟨h, rfl⟩
  | num (.inf _), _ => trivial
  | arr _, h => numbersList_finite h
  | obj _, h => numbersEntries_finite h

theorem numbersList_finite : ∀ {xs : List Json}, NumbersList Number.Held xs → NumbersList Finite (finiteList xs)
  | [], _ => trivial
  | _ :: _, h => ⟨numbers_finite h.1, numbersList_finite h.2⟩

theorem numbersEntries_finite : ∀ {kvs : List (JsString × Json)}, NumbersEntries Number.Held kvs →
    NumbersEntries Finite (finiteEntries kvs)
  | [], _ => trivial
  | _ :: _, h => ⟨numbers_finite h.1, numbersEntries_finite h.2⟩

end

mutual

/-- Safe integers are not changed. -/
theorem finite_of_safe : ∀ {v : Json}, v.Safe → v.finite = v
  | null, _ => rfl
  | bool _, _ => rfl
  | str _, _ => rfl
  | num _, h => by
    obtain ⟨n, rfl, -⟩ := h
    rfl
  | arr _, h => congrArg arr (finiteList_of_safe h)
  | obj _, h => congrArg obj (finiteEntries_of_safe h)

theorem finiteList_of_safe : ∀ {xs : List Json}, SafeList xs → finiteList xs = xs
  | [], _ => rfl
  | _ :: _, h => congrArg₂ List.cons (finite_of_safe h.1) (finiteList_of_safe h.2)

theorem finiteEntries_of_safe : ∀ {kvs : List (JsString × Json)}, SafeEntries kvs → finiteEntries kvs = kvs
  | [], _ => rfl
  | e :: _, h => congrArg₂ List.cons (Prod.ext rfl (finite_of_safe h.1)) (finiteEntries_of_safe h.2)

end

/-- **`JSON.stringify`, written to a file**: infinities are read back as `null`. -/
theorem parse_stringifyValue (h : v.Numbers Number.Held) :
    parse (ofUtf8 (utf8 (stringifyValue v))) = some v.finite.sort := parse_written (numbers_finite h)

/-! ## Values in order -/

theorem mem_keys_sortEntries : k ∈ (sortEntries kvs).map Prod.fst ↔ k ∈ kvs.map Prod.fst := by
  induction kvs with
  | nil => rfl
  | cons e kvs ih => rw [sortEntries, mem_keys_insertNew, ih, List.map_cons, List.mem_cons]

theorem keysSorted_sortEntries : KeysSorted (sortEntries kvs) := by
  induction kvs with
  | nil => exact List.Pairwise.nil
  | cons e kvs ih => exact keysSorted_insertNew ih

/-- The value of a key, where no key is there twice. -/
theorem lookup_sortEntries (h : (kvs.map Prod.fst).Nodup) : lookup k (sortEntries kvs) = (lookup k kvs).sort := by
  induction kvs with
  | nil => rfl
  | cons e kvs ih =>
    obtain ⟨hnew, h⟩ := List.nodup_cons.mp h
    rw [sortEntries, lookup_insertNew keysSorted_sortEntries, lookup, ih h]
    by_cases hk : k = e.1
    · rw [if_pos hk, if_pos ⟨hk, fun hmem => hnew (hk ▸ mem_keys_sortEntries.mp hmem)⟩]
    · rw [if_neg hk, if_neg fun h => hk h.1]

theorem get_sort (h : (kvs.map Prod.fst).Nodup) : (obj kvs).sort.get k = ((obj kvs).get k).sort := lookup_sortEntries h

theorem sortList_eq_map {xs : List Json} : sortList xs = xs.map sort := by
  induction xs with
  | nil => rfl
  | cons x xs ih => rw [sortList, ih, List.map_cons]

theorem finiteList_eq_map {xs : List Json} : finiteList xs = xs.map finite := by
  induction xs with
  | nil => rfl
  | cons x xs ih => rw [finiteList, ih, List.map_cons]

theorem keys_finiteEntries : (finiteEntries kvs).map Prod.fst = kvs.map Prod.fst := by
  induction kvs with
  | nil => rfl
  | cons e kvs ih => rw [finiteEntries, List.map_cons, ih, List.map_cons]

theorem lookup_finiteEntries : lookup k (finiteEntries kvs) = (lookup k kvs).finite := by
  induction kvs with
  | nil => rfl
  | cons e kvs ih =>
    rw [finiteEntries, lookup, ih, lookup]
    split_ifs <;> rfl

/-- What is read back for a key. -/
theorem get_read (h : (kvs.map Prod.fst).Nodup) : (obj kvs).finite.sort.get k = (lookup k kvs).finite.sort := by
  rw [finite, get_sort (by rwa [keys_finiteEntries]), get, lookup_finiteEntries]

/-- Entries in order with the same keys and values are the same. -/
theorem KeysSorted.eq_of_lookup (h : KeysSorted kvs) (h' : KeysSorted kvs')
    (hkeys : ∀ k, k ∈ kvs.map Prod.fst ↔ k ∈ kvs'.map Prod.fst) (hlookup : ∀ k, lookup k kvs = lookup k kvs') :
    kvs = kvs' := by
  have hfst : kvs.map Prod.fst = kvs'.map Prod.fst :=
    ((List.perm_ext_iff_of_nodup (List.Pairwise.nodup h) (List.Pairwise.nodup h')).mpr hkeys).eq_of_pairwise' h h'
  have hmap : ∀ {kvs}, KeysSorted kvs → (kvs.map Prod.fst).map (fun k => (k, lookup k kvs)) = kvs := by
    intro kvs h
    rw [List.map_map]
    refine (List.map_congr_left fun e he => ?_).trans (List.map_id kvs)
    exact Prod.ext rfl (lookup_of_mem h he)
  calc kvs = (kvs.map Prod.fst).map fun k => (k, lookup k kvs) := (hmap h).symm
    _ = (kvs'.map Prod.fst).map fun k => (k, lookup k kvs') := by simp only [hfst, hlookup]
    _ = kvs' := hmap h'

/-- What is read back of the entries of an object. -/
theorem read_eq (hnodup : (kvs.map Prod.fst).Nodup) (h : KeysSorted kvs')
    (hkeys : ∀ k, k ∈ kvs.map Prod.fst ↔ k ∈ kvs'.map Prod.fst)
    (hlookup : ∀ k, (lookup k kvs).finite.sort = lookup k kvs') : (obj kvs).finite.sort = obj kvs' := by
  refine congrArg obj (keysSorted_sortEntries.eq_of_lookup h (fun k => ?_) fun k => ?_)
  · rw [mem_keys_sortEntries, keys_finiteEntries]
    exact hkeys k
  · exact (get_read hnodup).trans (hlookup k)

end Json

end Js
