import Yataverse.Js.RoundTrip

/-!
# Values with their members in another order

An object's members have no order, an encoding of them has. `sortKeys` puts the members
of every object in the order an encoder writes them.

- `Strings P`: every string and every key, at any depth.
- `KeysInOrder le`: the keys of every object are in the order `le`.
- **`sortKeys_eq_self`**: sorting changes nothing exactly when they are.
- `WellFormed`: the strings that have no unpaired surrogate.
-/

namespace Js

namespace Json

section Strings

variable (P : JsString → Prop)

mutual

/-- Every string and every key, at any depth. -/
def Strings : Json → Prop
  | str s => P s
  | arr xs => StringsList xs
  | obj kvs => StringsEntries kvs
  | _ => True

def StringsList : List Json → Prop
  | [] => True
  | x :: xs => Strings x ∧ StringsList xs

def StringsEntries : List (JsString × Json) → Prop
  | [] => True
  | e :: kvs => (P e.1 ∧ Strings e.2) ∧ StringsEntries kvs

end

end Strings

section Order

variable (le : JsString → JsString → Prop)

mutual

/-- The keys of every object are in order. -/
def KeysInOrder : Json → Prop
  | arr xs => KeysInOrderList xs
  | obj kvs => kvs.Pairwise (fun a b => le a.1 b.1) ∧ KeysInOrderEntries kvs
  | _ => True

def KeysInOrderList : List Json → Prop
  | [] => True
  | x :: xs => KeysInOrder x ∧ KeysInOrderList xs

def KeysInOrderEntries : List (JsString × Json) → Prop
  | [] => True
  | e :: kvs => KeysInOrder e.2 ∧ KeysInOrderEntries kvs

end

variable [DecidableRel le]

mutual

/-- The members of every object, sorted by their keys. -/
def sortKeys : Json → Json
  | arr xs => arr (sortKeysList xs)
  | obj kvs => obj ((sortKeysEntries kvs).insertionSort fun a b => le a.1 b.1)
  | null => null
  | bool b => bool b
  | num x => num x
  | str s => str s

def sortKeysList : List Json → List Json
  | [] => []
  | x :: xs => sortKeys x :: sortKeysList xs

def sortKeysEntries : List (JsString × Json) → List (JsString × Json)
  | [] => []
  | e :: kvs => (e.1, sortKeys e.2) :: sortKeysEntries kvs

end

end Order

/-! ## Facts about every member -/

theorem stringsEntries_iff {P : JsString → Prop} {kvs : List (JsString × Json)} :
    StringsEntries P kvs ↔ ∀ e ∈ kvs, P e.1 ∧ Strings P e.2 := by
  induction kvs with
  | nil => simp [StringsEntries]
  | cons e kvs ih => simp [StringsEntries, ih]

section Texts

variable {P Q R : JsString → Prop} {quote quote' : JsString → JsString}

mutual

theorem strings_of_forall (h : ∀ s, P s) : ∀ v : Json, Strings P v
  | null => trivial
  | bool _ => trivial
  | num _ => trivial
  | str s => h s
  | arr xs => stringsList_of_forall h xs
  | obj kvs => stringsEntries_of_forall h kvs

theorem stringsList_of_forall (h : ∀ s, P s) : ∀ xs : List Json, StringsList P xs
  | [] => trivial
  | x :: xs => ⟨strings_of_forall h x, stringsList_of_forall h xs⟩

theorem stringsEntries_of_forall (h : ∀ s, P s) : ∀ kvs : List (JsString × Json),
    StringsEntries P kvs
  | [] => trivial
  | e :: kvs => ⟨⟨h e.1, strings_of_forall h e.2⟩, stringsEntries_of_forall h kvs⟩

end

mutual

theorem Strings.imp₂ (h : ∀ s, P s → Q s → R s) : ∀ {v : Json}, Strings P v → Strings Q v →
    Strings R v
  | null, _, _ => trivial
  | bool _, _, _ => trivial
  | num _, _, _ => trivial
  | str s, hp, hq => h s hp hq
  | arr _, hp, hq => StringsList.imp₂ h hp hq
  | obj _, hp, hq => StringsEntries.imp₂ h hp hq

theorem StringsList.imp₂ (h : ∀ s, P s → Q s → R s) : ∀ {xs : List Json}, StringsList P xs →
    StringsList Q xs → StringsList R xs
  | [], _, _ => trivial
  | _ :: _, hp, hq => ⟨hp.1.imp₂ h hq.1, StringsList.imp₂ h hp.2 hq.2⟩

theorem StringsEntries.imp₂ (h : ∀ s, P s → Q s → R s) : ∀ {kvs : List (JsString × Json)},
    StringsEntries P kvs → StringsEntries Q kvs → StringsEntries R kvs
  | [], _, _ => trivial
  | _ :: _, hp, hq =>
    ⟨⟨h _ hp.1.1 hq.1.1, hp.1.2.imp₂ h hq.1.2⟩, StringsEntries.imp₂ h hp.2 hq.2⟩

end

theorem Strings.imp (h : ∀ s, P s → Q s) {v : Json} (hv : Strings P v) : Strings Q v :=
  hv.imp₂ (fun s hs _ => h s hs) hv

mutual

/-- Two ways of quoting that agree on the strings of a value give one text. -/
theorem Strings.print_eq : ∀ {v : Json}, Strings (fun s => quote s = quote' s) v →
    print quote v = print quote' v
  | null, _ => rfl
  | bool _, _ => rfl
  | num _, _ => rfl
  | str _, h => h
  | arr _, h => by rw [print, print, StringsList.print_eq h]
  | obj _, h => by rw [print, print, StringsEntries.print_eq h]

theorem StringsList.print_eq : ∀ {xs : List Json}, StringsList (fun s => quote s = quote' s) xs →
    printList quote xs = printList quote' xs
  | [], _ => rfl
  | [_], h => h.1.print_eq
  | x :: y :: xs, h => by
    rw [printList, printList, h.1.print_eq, StringsList.print_eq h.2]

theorem StringsEntries.print_eq : ∀ {kvs : List (JsString × Json)},
    StringsEntries (fun s => quote s = quote' s) kvs →
    printEntries quote kvs = printEntries quote' kvs
  | [], _ => rfl
  | [_], h => by rw [printEntries, printEntries, h.1.1, h.1.2.print_eq]
  | e :: f :: kvs, h => by
    rw [printEntries, printEntries, h.1.1, h.1.2.print_eq,
      StringsEntries.print_eq h.2]

end

variable {U : UInt16 → Prop}

mutual

/-- What holds of every unit of a text holds of every unit of its quoted strings. -/
theorem strings_of_print : ∀ {v : Json}, (∀ u ∈ print quote v, U u) →
    Strings (fun s => ∀ u ∈ quote s, U u) v
  | null, _ => trivial
  | bool _, _ => trivial
  | num _, _ => trivial
  | str _, h => h
  | arr xs, h => by
    rw [print, List.cons_append, List.forall_mem_cons, List.forall_mem_append] at h
    exact stringsList_of_print h.2.1
  | obj kvs, h => by
    rw [print, List.cons_append, List.forall_mem_cons, List.forall_mem_append] at h
    exact stringsEntries_of_print h.2.1

theorem stringsList_of_print : ∀ {xs : List Json}, (∀ u ∈ printList quote xs, U u) →
    StringsList (fun s => ∀ u ∈ quote s, U u) xs
  | [], _ => trivial
  | [_], h => ⟨strings_of_print h, trivial⟩
  | x :: y :: xs, h => by
    rw [printList, List.forall_mem_append, List.forall_mem_cons] at h
    exact ⟨strings_of_print h.1, stringsList_of_print h.2.2⟩

theorem stringsEntries_of_print : ∀ {kvs : List (JsString × Json)},
    (∀ u ∈ printEntries quote kvs, U u) → StringsEntries (fun s => ∀ u ∈ quote s, U u) kvs
  | [], _ => trivial
  | [e], h => by
    rw [printEntries, List.forall_mem_append, List.forall_mem_cons] at h
    exact ⟨⟨h.1, strings_of_print h.2.2⟩, trivial⟩
  | e :: f :: kvs, h => by
    simp only [printEntries, List.forall_mem_append, List.forall_mem_cons] at h
    exact ⟨⟨h.1.1, strings_of_print h.1.2.2⟩, stringsEntries_of_print h.2.2⟩

end

end Texts

section Sorted

variable {le : JsString → JsString → Prop} [DecidableRel le] {P : JsString → Prop}

mutual

theorem Strings.sortKeys : ∀ {v : Json}, Strings P v → Strings P (sortKeys le v)
  | null, _ => trivial
  | bool _, _ => trivial
  | num _, _ => trivial
  | str _, h => h
  | arr _, h => StringsList.sortKeys h
  | obj _, h => stringsEntries_iff.mpr fun e he =>
    stringsEntries_iff.mp (StringsEntries.sortKeys h) e (List.mem_insertionSort _ |>.mp he)

theorem StringsList.sortKeys : ∀ {xs : List Json}, StringsList P xs →
    StringsList P (sortKeysList le xs)
  | [], _ => trivial
  | _ :: _, h => ⟨Strings.sortKeys h.1, StringsList.sortKeys h.2⟩

theorem StringsEntries.sortKeys : ∀ {kvs : List (JsString × Json)}, StringsEntries P kvs →
    StringsEntries P (sortKeysEntries le kvs)
  | [], _ => trivial
  | _ :: _, h => ⟨⟨h.1.1, Strings.sortKeys h.1.2⟩, StringsEntries.sortKeys h.2⟩

end

mutual

theorem Safe.sortKeys : ∀ {v : Json}, Safe v → Safe (sortKeys le v)
  | null, _ => trivial
  | bool _, _ => trivial
  | num _, h => h
  | str _, _ => trivial
  | arr _, h => SafeList.sortKeys h
  | obj _, h => safeEntries_iff.mpr fun e he =>
    safeEntries_iff.mp (SafeEntries.sortKeys h) e (List.mem_insertionSort _ |>.mp he)

theorem SafeList.sortKeys : ∀ {xs : List Json}, SafeList xs → SafeList (sortKeysList le xs)
  | [], _ => trivial
  | _ :: _, h => ⟨Safe.sortKeys h.1, SafeList.sortKeys h.2⟩

theorem SafeEntries.sortKeys : ∀ {kvs : List (JsString × Json)}, SafeEntries kvs →
    SafeEntries (sortKeysEntries le kvs)
  | [], _ => trivial
  | _ :: _, h => ⟨Safe.sortKeys h.1, SafeEntries.sortKeys h.2⟩

end

mutual

theorem KeysInOrder.sortKeys_eq : ∀ {v : Json}, KeysInOrder le v → sortKeys le v = v
  | null, _ => rfl
  | bool _, _ => rfl
  | num _, _ => rfl
  | str _, _ => rfl
  | arr xs, h => by rw [Json.sortKeys, KeysInOrderList.sortKeys_eq h]
  | obj kvs, h => by rw [Json.sortKeys, KeysInOrderEntries.sortKeys_eq h.2, h.1.insertionSort_eq]

theorem KeysInOrderList.sortKeys_eq : ∀ {xs : List Json}, KeysInOrderList le xs →
    sortKeysList le xs = xs
  | [], _ => rfl
  | _ :: _, h => by rw [sortKeysList, h.1.sortKeys_eq, KeysInOrderList.sortKeys_eq h.2]

theorem KeysInOrderEntries.sortKeys_eq : ∀ {kvs : List (JsString × Json)},
    KeysInOrderEntries le kvs → sortKeysEntries le kvs = kvs
  | [], _ => rfl
  | _ :: _, h => by rw [sortKeysEntries, h.1.sortKeys_eq, KeysInOrderEntries.sortKeys_eq h.2]

end

omit [DecidableRel le] in
theorem keysInOrderEntries_iff {kvs : List (JsString × Json)} :
    KeysInOrderEntries le kvs ↔ ∀ e ∈ kvs, KeysInOrder le e.2 := by
  induction kvs with
  | nil => simp [KeysInOrderEntries]
  | cons e kvs ih => simp [KeysInOrderEntries, ih]

mutual

theorem keysInOrder_sortKeys [Std.Total le] [IsTrans JsString le] :
    ∀ v : Json, KeysInOrder le (sortKeys le v)
  | null => trivial
  | bool _ => trivial
  | num _ => trivial
  | str _ => trivial
  | arr xs => keysInOrder_sortKeysList xs
  | obj kvs => by
    have : Std.Total fun a b : JsString × Json => le a.1 b.1 := ⟨fun _ _ => total_of le _ _⟩
    have : IsTrans (JsString × Json) fun a b => le a.1 b.1 := ⟨fun _ _ _ => trans_of le⟩
    refine ⟨List.pairwise_insertionSort _ _, keysInOrderEntries_iff.mpr fun e he => ?_⟩
    exact keysInOrderEntries_iff.mp (keysInOrder_sortKeysEntries kvs) e
      (List.mem_insertionSort _ |>.mp he)

theorem keysInOrder_sortKeysList [Std.Total le] [IsTrans JsString le] :
    ∀ xs : List Json, KeysInOrderList le (sortKeysList le xs)
  | [] => trivial
  | x :: xs => ⟨keysInOrder_sortKeys x, keysInOrder_sortKeysList xs⟩

theorem keysInOrder_sortKeysEntries [Std.Total le] [IsTrans JsString le] :
    ∀ kvs : List (JsString × Json), KeysInOrderEntries le (sortKeysEntries le kvs)
  | [] => trivial
  | e :: kvs => ⟨keysInOrder_sortKeys e.2, keysInOrder_sortKeysEntries kvs⟩

end

/-- Sorting changes nothing exactly when the keys are in order. -/
theorem sortKeys_eq_self [Std.Total le] [IsTrans JsString le] {v : Json} :
    sortKeys le v = v ↔ KeysInOrder le v :=
  ⟨fun h => h ▸ keysInOrder_sortKeys v, KeysInOrder.sortKeys_eq⟩

/-! ## Sorting loses nothing -/

theorem sortKeysEntries_eq_map (kvs : List (JsString × Json)) :
    sortKeysEntries le kvs = kvs.map fun e => (e.1, sortKeys le e.2) := by
  induction kvs with
  | nil => rfl
  | cons e kvs ih => rw [sortKeysEntries, ih, List.map_cons]

theorem sortKeysList_length (xs : List Json) : (sortKeysList le xs).length = xs.length := by
  induction xs with
  | nil => rfl
  | cons x xs ih => rw [sortKeysList, List.length_cons, ih, List.length_cons]

theorem KeysSorted.sortKeysEntries {kvs : List (JsString × Json)} (h : KeysSorted kvs) :
    KeysSorted (sortKeysEntries le kvs) := by
  rw [sortKeysEntries_eq_map, KeysSorted, List.map_map]
  exact h

/-- Entries in the order of their keys are determined by which they are. -/
theorem KeysSorted.eq_of_perm {kvs kvs' : List (JsString × Json)} (h : KeysSorted kvs)
    (h' : KeysSorted kvs') (hp : kvs.Perm kvs') : kvs = kvs' := by
  rw [KeysSorted, List.pairwise_map] at h h'
  exact hp.eq_of_pairwise (fun a b _ _ hab hba => absurd hba (List.lt_asymm hab)) h h'

mutual

/-- A well-formed value is determined by its sorted one. -/
theorem sortKeys_inj : ∀ {v w : Json}, WF v → WF w → sortKeys le v = sortKeys le w → v = w
  | arr xs, arr ys, hv, hw, h => by
    rw [Json.sortKeys, Json.sortKeys, arr.injEq] at h
    rw [sortKeysList_inj hv hw h]
  | obj kvs, obj kvs', hv, hw, h => by
    rw [Json.sortKeys, Json.sortKeys, obj.injEq] at h
    have hp : (sortKeysEntries le kvs).Perm (sortKeysEntries le kvs') := by
      refine (List.perm_insertionSort (fun a b => le a.1 b.1) _).symm.trans ?_
      rw [h]
      exact List.perm_insertionSort _ _
    rw [sortKeysEntries_inj hv.2 hw.2 (hv.1.sortKeysEntries.eq_of_perm hw.1.sortKeysEntries hp)]
  | null, w, _, _, h => by cases w <;> simp_all [Json.sortKeys]
  | bool _, w, _, _, h => by cases w <;> simp_all [Json.sortKeys]
  | num _, w, _, _, h => by cases w <;> simp_all [Json.sortKeys]
  | str _, w, _, _, h => by cases w <;> simp_all [Json.sortKeys]
  | arr _, null, _, _, h | arr _, bool _, _, _, h | arr _, num _, _, _, h | arr _, str _, _, _, h
  | arr _, obj _, _, _, h => by simp [Json.sortKeys] at h
  | obj _, null, _, _, h | obj _, bool _, _, _, h | obj _, num _, _, _, h | obj _, str _, _, _, h
  | obj _, arr _, _, _, h => by simp [Json.sortKeys] at h

theorem sortKeysList_inj : ∀ {xs ys : List Json}, WFList xs → WFList ys →
    sortKeysList le xs = sortKeysList le ys → xs = ys
  | [], [], _, _, _ => rfl
  | [], _ :: _, _, _, h => nomatch h
  | _ :: _, [], _, _, h => nomatch h
  | x :: xs, y :: ys, hx, hy, h => by
    rw [sortKeysList, sortKeysList, List.cons.injEq] at h
    rw [sortKeys_inj hx.1 hy.1 h.1, sortKeysList_inj hx.2 hy.2 h.2]

theorem sortKeysEntries_inj : ∀ {kvs kvs' : List (JsString × Json)}, WFEntries kvs →
    WFEntries kvs' → sortKeysEntries le kvs = sortKeysEntries le kvs' → kvs = kvs'
  | [], [], _, _, _ => rfl
  | [], _ :: _, _, _, h => nomatch h
  | _ :: _, [], _, _, h => nomatch h
  | (k, v) :: kvs, (k', v') :: kvs', hv, hv', h => by
    simp only [sortKeysEntries, List.cons.injEq, Prod.mk.injEq] at h
    rw [h.1.1, sortKeys_inj (v := v) hv.1 hv'.1 h.1.2, sortKeysEntries_inj hv.2 hv'.2 h.2]

end

end Sorted

/-! ## Two orders -/

section KeyPairs

variable (R : JsString → JsString → Prop)

mutual

/-- Every two keys of one object. -/
def KeyPairs : Json → Prop
  | arr xs => KeyPairsList xs
  | obj kvs => (∀ a ∈ kvs, ∀ b ∈ kvs, R a.1 b.1) ∧ KeyPairsEntries kvs
  | _ => True

def KeyPairsList : List Json → Prop
  | [] => True
  | x :: xs => KeyPairs x ∧ KeyPairsList xs

def KeyPairsEntries : List (JsString × Json) → Prop
  | [] => True
  | e :: kvs => KeyPairs e.2 ∧ KeyPairsEntries kvs

end

end KeyPairs

section Congr

variable {le le' : JsString → JsString → Prop} [DecidableRel le] [DecidableRel le']
  {P : JsString → Prop}

theorem insertionSort_congr {kvs : List (JsString × Json)}
    (h : ∀ a ∈ kvs, ∀ b ∈ kvs, le a.1 b.1 ↔ le' a.1 b.1) :
    kvs.insertionSort (fun a b => le a.1 b.1) = kvs.insertionSort fun a b => le' a.1 b.1 := by
  have := List.map_insertionSort (fun a b : JsString × Json => le a.1 b.1)
    (fun a b : JsString × Json => le' a.1 b.1) id kvs h
  rwa [List.map_id, List.map_id] at this

mutual

/-- Orders that agree on the keys of every object sort alike. -/
theorem KeyPairs.sortKeys_eq : ∀ {v : Json}, KeyPairs (fun a b => le a b ↔ le' a b) v →
    sortKeys le v = sortKeys le' v
  | null, _ => rfl
  | bool _, _ => rfl
  | num _, _ => rfl
  | str _, _ => rfl
  | arr xs, h => by rw [sortKeys, sortKeys, KeyPairsList.sortKeys_eq h]
  | obj kvs, h => by
    have hc : ∀ a ∈ sortKeysEntries le' kvs, ∀ b ∈ sortKeysEntries le' kvs,
        le a.1 b.1 ↔ le' a.1 b.1 := by
      rw [sortKeysEntries_eq_map]
      intro a ha b hb
      obtain ⟨a', ha', rfl⟩ := List.mem_map.mp ha
      obtain ⟨b', hb', rfl⟩ := List.mem_map.mp hb
      exact h.1 a' ha' b' hb'
    rw [sortKeys, sortKeys, KeyPairsEntries.sortKeys_eq h.2, insertionSort_congr hc]

theorem KeyPairsList.sortKeys_eq : ∀ {xs : List Json},
    KeyPairsList (fun a b => le a b ↔ le' a b) xs → sortKeysList le xs = sortKeysList le' xs
  | [], _ => rfl
  | _ :: _, h => by rw [sortKeysList, sortKeysList, h.1.sortKeys_eq, KeyPairsList.sortKeys_eq h.2]

theorem KeyPairsEntries.sortKeys_eq : ∀ {kvs : List (JsString × Json)},
    KeyPairsEntries (fun a b => le a b ↔ le' a b) kvs →
    sortKeysEntries le kvs = sortKeysEntries le' kvs
  | [], _ => rfl
  | _ :: _, h => by
    rw [sortKeysEntries, sortKeysEntries, h.1.sortKeys_eq, KeyPairsEntries.sortKeys_eq h.2]

end

omit [DecidableRel le] [DecidableRel le'] in
/-- Two orders that sort a list alike agree on its members, up to what neither tells
apart. -/
theorem iff_of_pairwise {a b : JsString × Json} {kvs : List (JsString × Json)}
    (hP : ∀ e ∈ kvs, P e.1) (anti : ∀ a b, P a → P b → le a b → le b a → a = b)
    (anti' : ∀ a b, P a → P b → le' a b → le' b a → a = b) [Std.Total le] [Std.Total le']
    (h : kvs.Pairwise fun a b => le a.1 b.1) (h' : kvs.Pairwise fun a b => le' a.1 b.1)
    (ha : a ∈ kvs) (hb : b ∈ kvs) : le a.1 b.1 ↔ le' a.1 b.1 := by
  have both : le a.1 b.1 ∧ le' a.1 b.1 ∨ le b.1 a.1 ∧ le' b.1 a.1 := by
    refine List.Pairwise.forall_of_forall_of_flip (R := fun a b : JsString × Json =>
      le a.1 b.1 ∧ le' a.1 b.1 ∨ le b.1 a.1 ∧ le' b.1 a.1)
      (fun e _ => .inl ⟨refl_of le e.1, refl_of le' e.1⟩) ((h.and h').imp Or.inl)
      ((h.and h').imp Or.inr) ha hb
  rcases both with ⟨h₁, h₂⟩ | ⟨h₁, h₂⟩
  · exact ⟨fun _ => h₂, fun _ => h₁⟩
  · constructor
    · intro hab
      rwa [anti _ _ (hP a ha) (hP b hb) hab h₁] at h₂ ⊢
    · intro hab
      rwa [anti' _ _ (hP a ha) (hP b hb) hab h₂] at h₁ ⊢

mutual

/-- Orders that sort a value alike agree on the keys of every object. -/
theorem keyPairs_of_sortKeys [Std.Total le] [IsTrans JsString le] [Std.Total le']
    [IsTrans JsString le'] (anti : ∀ a b, P a → P b → le a b → le b a → a = b)
    (anti' : ∀ a b, P a → P b → le' a b → le' b a → a = b) : ∀ {v : Json}, WF v → Strings P v →
    sortKeys le v = sortKeys le' v → KeyPairs (fun a b => le a b ↔ le' a b) v
  | null, _, _, _ => trivial
  | bool _, _, _, _ => trivial
  | num _, _, _, _ => trivial
  | str _, _, _, _ => trivial
  | arr xs, hw, hs, h => by
    rw [sortKeys, sortKeys, arr.injEq] at h
    exact keyPairsList_of_sortKeys anti anti' hw hs h
  | obj kvs, hw, hs, h => by
    have hk : KeysInOrder le (sortKeys le (obj kvs)) := keysInOrder_sortKeys _
    have hk' : KeysInOrder le' (sortKeys le' (obj kvs)) := keysInOrder_sortKeys _
    rw [← h] at hk'
    rw [sortKeys] at hk hk'
    have hp : (sortKeysEntries le kvs).Perm (sortKeysEntries le' kvs) := by
      refine (List.perm_insertionSort (fun a b => le a.1 b.1) _).symm.trans ?_
      rw [sortKeys, sortKeys, obj.injEq] at h
      rw [h]
      exact List.perm_insertionSort _ _
    have he := hw.1.sortKeysEntries.eq_of_perm hw.1.sortKeysEntries hp
    refine ⟨fun a ha b hb => ?_, keyPairsEntries_of_sortKeys anti anti' hw.2 hs he⟩
    have hmem : ∀ e ∈ kvs, (e.1, sortKeys le e.2) ∈
        (sortKeysEntries le kvs).insertionSort fun a b => le a.1 b.1 := by
      intro e he
      rw [List.mem_insertionSort, sortKeysEntries_eq_map]
      exact List.mem_map_of_mem he
    have hstr : ∀ e ∈ (sortKeysEntries le kvs).insertionSort fun a b => le a.1 b.1, P e.1 := by
      intro e he
      exact (stringsEntries_iff.mp (StringsEntries.sortKeys hs) e
        (List.mem_insertionSort _ |>.mp he)).1
    exact iff_of_pairwise (a := (a.1, sortKeys le a.2)) (b := (b.1, sortKeys le b.2)) hstr anti anti'
      hk.1 hk'.1 (hmem a ha) (hmem b hb)

theorem keyPairsList_of_sortKeys [Std.Total le] [IsTrans JsString le] [Std.Total le']
    [IsTrans JsString le'] (anti : ∀ a b, P a → P b → le a b → le b a → a = b)
    (anti' : ∀ a b, P a → P b → le' a b → le' b a → a = b) : ∀ {xs : List Json}, WFList xs →
    StringsList P xs → sortKeysList le xs = sortKeysList le' xs →
    KeyPairsList (fun a b => le a b ↔ le' a b) xs
  | [], _, _, _ => trivial
  | x :: xs, hw, hs, h => by
    rw [sortKeysList, sortKeysList, List.cons.injEq] at h
    exact ⟨keyPairs_of_sortKeys anti anti' hw.1 hs.1 h.1,
      keyPairsList_of_sortKeys anti anti' hw.2 hs.2 h.2⟩

theorem keyPairsEntries_of_sortKeys [Std.Total le] [IsTrans JsString le] [Std.Total le']
    [IsTrans JsString le'] (anti : ∀ a b, P a → P b → le a b → le b a → a = b)
    (anti' : ∀ a b, P a → P b → le' a b → le' b a → a = b) : ∀ {kvs : List (JsString × Json)},
    WFEntries kvs → StringsEntries P kvs → sortKeysEntries le kvs = sortKeysEntries le' kvs →
    KeyPairsEntries (fun a b => le a b ↔ le' a b) kvs
  | [], _, _, _ => trivial
  | e :: kvs, hw, hs, h => by
    simp only [sortKeysEntries, List.cons.injEq, Prod.mk.injEq, true_and] at h
    exact ⟨keyPairs_of_sortKeys anti anti' hw.1 hs.1.2 h.1,
      keyPairsEntries_of_sortKeys anti anti' hw.2 hs.2 h.2⟩

end

end Congr

end Json

/-! ## Unpaired surrogates -/

/-- No surrogate is unpaired: `s.isWellFormed()`. -/
def WellFormed : JsString → Prop
  | [] => True
  | [u] => (isHigh u || isLow u) = false
  | u :: v :: rest =>
    if isHigh u && isLow v then WellFormed rest
    else (isHigh u || isLow u) = false ∧ WellFormed (v :: rest)

instance decWellFormed : (s : JsString) → Decidable (WellFormed s)
  | [] => isTrue trivial
  | [u] => inferInstanceAs (Decidable ((isHigh u || isLow u) = false))
  | u :: v :: rest =>
    have := decWellFormed rest
    have := decWellFormed (v :: rest)
    inferInstanceAs (Decidable (if isHigh u && isLow v then WellFormed rest
      else (isHigh u || isLow u) = false ∧ WellFormed (v :: rest)))

end Js
