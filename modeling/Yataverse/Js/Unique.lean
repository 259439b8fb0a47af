import Yataverse.Js.RoundTrip

/-!
# JSON text is uniquely decodable

`JSON.parse` forgets the order of an object's members. The text does not: it
determines the value with the members as they were written.

- `ReadsBack.append_inj`: a quoted string ends where its text says.
- **`print_append_inj`**: two texts that go on alike are the texts of one value, for
  every order of the members.
-/

namespace Js

namespace Json

variable {quote : JsString → JsString}

/-! ## Strings and numbers -/

/-- A quoted string ends where its text says. -/
theorem ReadsBack.append_inj (hq : ReadsBack quote) {s s' r r' : JsString}
    (h : quote s ++ r = quote s' ++ r') : s = s' ∧ r = r' := by
  obtain ⟨body, hb, hread⟩ := hq s
  obtain ⟨body', hb', hread'⟩ := hq s'
  rw [hb, hb', List.cons_append, List.cons_append] at h
  have := hread r
  rw [(List.cons.inj h).2, hread' r'] at this
  simp only [Option.some.injEq, Prod.mk.injEq] at this
  exact ⟨this.1.symm, this.2.symm⟩

/-- So does a number that something else follows. -/
theorem intStr_append_inj {m n : Int} {r r' : JsString} (hm : m.natAbs ≤ 2 ^ 53)
    (hn : n.natAbs ≤ 2 ^ 53) (hr : Stops r) (hr' : Stops r')
    (h : intStr m ++ r = intStr n ++ r') : m = n ∧ r = r' := by
  have := readNumber_intStr hm hr
  rw [h, readNumber_intStr hn hr'] at this
  simp only [Option.some.injEq, Prod.mk.injEq, num.injEq, Number.int.injEq] at this
  exact ⟨this.1.symm, this.2.symm⟩

/-! ## Values -/

/-- What the first unit of a text says: a digit or a minus sign starts a number. -/
def opening (u : UInt16) : UInt16 := if (digit? u).isSome ∨ u = unit '-' then unit '0' else u

/-- How the text of a value starts. -/
def opener : Json → UInt16
  | null => unit 'n'
  | bool true => unit 't'
  | bool false => unit 'f'
  | num _ => unit '0'
  | str _ => unit '"'
  | arr _ => unit '['
  | obj _ => unit '\x7b'

/-- Values whose texts start alike: of one kind, and the same booleans. -/
inductive Alike : Json → Json → Prop
  | null : Alike null null
  | bool (b : Bool) : Alike (bool b) (bool b)
  | num (x y : Number) : Alike (num x) (num y)
  | str (s t : JsString) : Alike (str s) (str t)
  | arr (xs ys : List Json) : Alike (arr xs) (arr ys)
  | obj (kvs kvs' : List (JsString × Json)) : Alike (obj kvs) (obj kvs')

theorem alike_of_opener {v w : Json} (h : opener v = opener w) : Alike v w := by
  rcases v with _ | (_ | _) | _ | _ | _ | _ <;> rcases w with _ | (_ | _) | _ | _ | _ | _ <;>
    simp only [opener] at h <;> first | constructor | exact absurd h (by decide)

theorem print_opener (hq : ReadsBack quote) {v : Json} (hv : Safe v) :
    ∃ u t, print quote v = u :: t ∧ opening u = opener v := by
  cases v with
  | null => exact ⟨_, _, rfl, by decide⟩
  | bool b => cases b <;> exact ⟨_, _, rfl, by decide⟩
  | num x =>
    obtain ⟨n, rfl, hn⟩ := hv
    obtain ⟨u, t, h, hu⟩ := intStr_cons n
    exact ⟨u, t, by rw [print, numStr, if_pos hn, h], if_pos hu⟩
  | str s =>
    obtain ⟨body, h, -⟩ := hq s
    exact ⟨_, _, h, show opening (unit '"') = unit '"' by decide⟩
  | arr xs => exact ⟨_, _, rfl, show opening (unit '[') = unit '[' by decide⟩
  | obj kvs => exact ⟨_, _, rfl, show opening (unit '\x7b') = unit '\x7b' by decide⟩

/-- Two texts that go on alike start alike. -/
theorem alike_of_print (hq : ReadsBack quote) {v w : Json} (hv : Safe v) (hw : Safe w)
    {r r' : JsString} (h : print quote v ++ r = print quote w ++ r') : Alike v w := by
  obtain ⟨u, t, hu, ho⟩ := print_opener hq hv
  obtain ⟨u', t', hu', ho'⟩ := print_opener hq hw
  rw [hu, hu', List.cons_append, List.cons_append] at h
  obtain ⟨rfl, -⟩ := List.cons.inj h
  exact alike_of_opener (ho.symm.trans ho')

/-- What follows the first element of an array. -/
def elementsAfter (quote : JsString → JsString) : List Json → JsString
  | [] => []
  | y :: ys => unit ',' :: printList quote (y :: ys)

theorem printList_eq (x : Json) (xs : List Json) :
    printList quote (x :: xs) = print quote x ++ elementsAfter quote xs := by
  cases xs <;> simp [printList, elementsAfter]

/-- What follows the first member of an object. -/
def membersAfter (quote : JsString → JsString) : List (JsString × Json) → JsString
  | [] => []
  | e :: kvs => unit ',' :: printEntries quote (e :: kvs)

theorem printEntries_eq (e : JsString × Json) (kvs : List (JsString × Json)) :
    printEntries quote (e :: kvs) =
      quote e.1 ++ unit ':' :: (print quote e.2 ++ membersAfter quote kvs) := by
  cases kvs <;> simp [printEntries, membersAfter]

theorem Stops.elementsAfter (xs : List Json) (r : JsString) :
    Stops (elementsAfter quote xs ++ unit ']' :: r) := by
  cases xs with
  | nil => exact .bracket r
  | cons y ys => exact .comma _

theorem Stops.membersAfter (kvs : List (JsString × Json)) (r : JsString) :
    Stops (membersAfter quote kvs ++ unit '\x7d' :: r) := by
  cases kvs with
  | nil => exact .brace r
  | cons y ys => exact .comma _

mutual

/-- **Unique decodability**: two texts that go on alike, but not with more of a number,
are the texts of one value. The members of an object keep their order. -/
theorem print_append_inj (hq : ReadsBack quote) : ∀ {v w : Json} {r r' : JsString},
    Safe v → Safe w → Stops r → Stops r' → print quote v ++ r = print quote w ++ r' →
      v = w ∧ r = r'
  | null, w, r, r', hv, hw, hr, hr', h => by
    cases alike_of_print hq hv hw h
    exact ⟨rfl, List.append_cancel_left h⟩
  | bool b, w, r, r', hv, hw, hr, hr', h => by
    cases alike_of_print hq hv hw h
    exact ⟨rfl, List.append_cancel_left h⟩
  | num x, w, r, r', hv, hw, hr, hr', h => by
    cases alike_of_print hq hv hw h
    obtain ⟨m, rfl, hm⟩ := hv
    obtain ⟨n, rfl, hn⟩ := hw
    simp only [print, numStr, if_pos hm, if_pos hn] at h
    obtain ⟨rfl, rfl⟩ := intStr_append_inj hm hn hr hr' h
    exact ⟨rfl, rfl⟩
  | str s, w, r, r', hv, hw, hr, hr', h => by
    cases alike_of_print hq hv hw h
    obtain ⟨rfl, rfl⟩ := hq.append_inj h
    exact ⟨rfl, rfl⟩
  | arr xs, w, r, r', hv, hw, hr, hr', h => by
    cases alike_of_print hq hv hw h
    simp only [print, List.cons_append, List.append_assoc, List.nil_append] at h
    obtain ⟨rfl, rfl⟩ := printList_append_inj hq hv hw (List.cons.inj h).2
    exact ⟨rfl, rfl⟩
  | obj kvs, w, r, r', hv, hw, hr, hr', h => by
    cases alike_of_print hq hv hw h
    simp only [print, List.cons_append, List.append_assoc, List.nil_append] at h
    obtain ⟨rfl, rfl⟩ := printEntries_append_inj hq hv hw (List.cons.inj h).2
    exact ⟨rfl, rfl⟩

theorem printList_append_inj (hq : ReadsBack quote) : ∀ {xs ys : List Json} {r r' : JsString},
    SafeList xs → SafeList ys →
      printList quote xs ++ unit ']' :: r = printList quote ys ++ unit ']' :: r' →
      xs = ys ∧ r = r'
  | [], [], r, r', _, _, h => ⟨rfl, (List.cons.inj h).2⟩
  | [], y :: ys, r, r', _, hy, h => by
    obtain ⟨u, t, hu, -, hne, -⟩ := printList_cons hq y ys hy
    rw [hu] at h
    exact absurd (List.cons.inj h).1.symm hne
  | x :: xs, [], r, r', hx, _, h => by
    obtain ⟨u, t, hu, -, hne, -⟩ := printList_cons hq x xs hx
    rw [hu] at h
    exact absurd (List.cons.inj h).1 hne
  | x :: xs, y :: ys, r, r', hx, hy, h => by
    rw [printList_eq, printList_eq, List.append_assoc, List.append_assoc] at h
    obtain ⟨rfl, ht⟩ := print_append_inj hq hx.1 hy.1 (.elementsAfter xs r) (.elementsAfter ys r') h
    clear h
    match xs, ys, ht with
    | [], [], h => exact ⟨rfl, (List.cons.inj h).2⟩
    | [], _ :: _, h => exact absurd (List.cons.inj h).1 (by decide)
    | _ :: _, [], h => exact absurd (List.cons.inj h).1 (by decide)
    | x' :: xs, y' :: ys, h =>
      obtain ⟨h', rfl⟩ := printList_append_inj hq hx.2 hy.2 (List.cons.inj h).2
      exact ⟨by rw [h'], rfl⟩

theorem printEntries_append_inj (hq : ReadsBack quote) :
    ∀ {kvs kvs' : List (JsString × Json)} {r r' : JsString},
    SafeEntries kvs → SafeEntries kvs' →
      printEntries quote kvs ++ unit '\x7d' :: r = printEntries quote kvs' ++ unit '\x7d' :: r' →
      kvs = kvs' ∧ r = r'
  | [], [], r, r', _, _, h => ⟨rfl, (List.cons.inj h).2⟩
  | [], e :: kvs, r, r', _, _, h => by
    obtain ⟨t, ht⟩ := printEntries_cons hq e kvs
    rw [ht] at h
    exact absurd (List.cons.inj h).1 (by decide)
  | e :: kvs, [], r, r', _, _, h => by
    obtain ⟨t, ht⟩ := printEntries_cons hq e kvs
    rw [ht] at h
    exact absurd (List.cons.inj h).1 (by decide)
  | (k, v) :: kvs, (k', v') :: kvs', r, r', hv, hv', h => by
    simp only [printEntries_eq, List.append_assoc, List.cons_append] at h
    obtain ⟨rfl, hm⟩ := hq.append_inj h
    obtain ⟨rfl, ht⟩ := print_append_inj hq hv.1 hv'.1 (.membersAfter kvs r)
      (.membersAfter kvs' r') (List.cons.inj hm).2
    clear h hm
    match kvs, kvs', ht with
    | [], [], h => exact ⟨rfl, (List.cons.inj h).2⟩
    | [], _ :: _, h => exact absurd (List.cons.inj h).1 (by decide)
    | _ :: _, [], h => exact absurd (List.cons.inj h).1 (by decide)
    | e :: kvs, e' :: kvs', h =>
      obtain ⟨h', rfl⟩ := printEntries_append_inj hq hv.2 hv'.2 (List.cons.inj h).2
      exact ⟨by rw [h'], rfl⟩

end

theorem print_injective (hq : ReadsBack quote) {v w : Json} (hv : Safe v) (hw : Safe w)
    (h : print quote v = print quote w) : v = w :=
  (print_append_inj hq (r := []) hv hw .nil .nil (by rw [h])).1

end Json

end Js
