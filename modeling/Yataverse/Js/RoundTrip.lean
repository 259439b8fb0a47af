import Yataverse.Js.Parse

/-!
# JSON text reads back

- **`parse_print`**: the text of a well-formed value whose numbers are safe integers
  parses as the value, for every way of quoting strings that reads back
  (`ReadsBack`).
- `readsBack_stringify`: `JSON.stringify` of a string reads back.
- `wf_of_parse`: what `JSON.parse` returns is well formed.
-/

namespace Js

namespace Json

/-! ## Round trip -/

/-- Quoting that reads back. -/
def ReadsBack (quote : JsString → JsString) : Prop :=
  ∀ s, ∃ body, quote s = unit '"' :: body ∧ ∀ r, readString (body ++ r) = some (s, r)

mutual

/-- Every number is an integer of at most `2 ^ 53`. -/
def Safe : Json → Prop
  | num x => ∃ n : Int, x = .int n ∧ n.natAbs ≤ 2 ^ 53
  | arr xs => SafeList xs
  | obj kvs => SafeEntries kvs
  | _ => True

def SafeList : List Json → Prop
  | [] => True
  | x :: xs => Safe x ∧ SafeList xs

def SafeEntries : List (JsString × Json) → Prop
  | [] => True
  | e :: kvs => Safe e.2 ∧ SafeEntries kvs

end

theorem safeEntries_iff {kvs : List (JsString × Json)} :
    SafeEntries kvs ↔ ∀ e ∈ kvs, e.2.Safe := by
  induction kvs with
  | nil => simp [SafeEntries]
  | cons e kvs ih => simp [SafeEntries, ih]

/-- A text that does not go on with a number. -/
def Stops (r : JsString) : Prop :=
  ∀ u t, r = u :: t → ¬ IsDigit u ∧ u ≠ unit '.' ∧ u ≠ unit 'e' ∧ u ≠ unit 'E'

theorem Stops.comma (r : JsString) : Stops (unit ',' :: r) := by
  rintro u t ⟨⟩
  unfold IsDigit
  decide

theorem Stops.bracket (r : JsString) : Stops (unit ']' :: r) := by
  rintro u t ⟨⟩
  unfold IsDigit
  decide

theorem Stops.brace (r : JsString) : Stops (unit '}' :: r) := by
  rintro u t ⟨⟩
  unfold IsDigit
  decide

theorem Stops.nil : Stops [] := by
  rintro u t ⟨⟩

theorem skip_cons {c : Char} {r : JsString} : skip c (unit c :: r) = some r := by
  simp [skip]

theorem skip_ne {c : Char} {r : JsString} (h : ∀ t, r ≠ unit c :: t) : skip c r = none := by
  cases r with
  | nil => rfl
  | cons u r =>
    rw [skip, if_neg]
    rintro rfl
    exact h r rfl

theorem natStr_ne_nil (n : Nat) : natStr n ≠ [] := by
  rcases natStr_head n with h | ⟨u, s, h, -⟩ <;> simp [h]

/-- The whole number of at most `2 ^ 53` that decimal text writes reads back. -/
theorem readNumber_natStr {n : Nat} {r : JsString} (hn : n ≤ 2 ^ 53) (hr : Stops r)
    (negative : Bool) :
    readNumber ((if negative then [unit '-'] else []) ++ natStr n ++ r) =
      some (num (.int (if negative then -n else n)), r) := by
  have hspan : spanDigits (natStr n ++ r) = (natStr n, r) :=
    spanDigits_append (isDigit_natStr n) fun u t h => (hr u t h).1
  have hfrac : readFraction r = some ([], r) := by
    rw [readFraction, skip_ne fun t h => (hr _ t h).2.1 rfl]
  have hexp : readExponent r = some (0, r) := by
    rw [readExponent, skip_ne fun t h => (hr _ t h).2.2.1 rfl,
      skip_ne fun t h => (hr _ t h).2.2.2 rfl]
    rfl
  have hlead : (natStr n = [] || (natStr n).head? = some (unit '0') && natStr n ≠ [unit '0'])
      = false := by
    rcases natStr_head n with h | ⟨u, s, h, -, hu⟩
    · simp [h]
    · simp [h, hu]
  have hsign : readSign ((if negative then [unit '-'] else []) ++ natStr n ++ r) =
      (negative, natStr n ++ r) := by
    cases negative with
    | true => simp [readSign, skip_cons]
    | false =>
      obtain ⟨u, t, hu⟩ := List.exists_cons_of_ne_nil (natStr_ne_nil n)
      have hd : u ≠ unit '-' :=
        (isDigit_natStr n u (by simp [hu])).ne (by unfold IsDigit; decide)
      rw [readSign, skip_ne]
      · simp
      · rintro t' h
        simp only [Bool.false_eq_true, if_false, List.nil_append, hu, List.cons_append,
          List.cons.injEq] at h
        exact hd h.1
  have hround : Number.ofRat (if negative then -(n : ℚ) else n) =
      .int (if negative then -n else n) := by
    have := Number.ofInt_exact (n := if negative then -(n : Int) else n) (by cases negative <;> simpa)
    rw [← this, Number.ofInt]
    cases negative <;> simp
  rw [readNumber, hsign]
  simp only [hspan, hlead, hfrac]
  simp [hexp, ofDigits_natStr, hround]

theorem readNumber_intStr {n : Int} {r : JsString} (hn : n.natAbs ≤ 2 ^ 53) (hr : Stops r) :
    readNumber (intStr n ++ r) = some (num (.int n), r) := by
  cases n with
  | ofNat n =>
    show readNumber (natStr n ++ r) = some (num (.int n), r)
    simpa using readNumber_natStr hn hr false
  | negSucc n =>
    show readNumber (unit '-' :: natStr (n + 1) ++ r) = some (num (.int (.negSucc n)), r)
    rw [show Int.negSucc n = -((n + 1 : Nat) : Int) from rfl]
    exact readNumber_natStr hn hr true

/-- How the text of a value starts. -/
def Starts (u : UInt16) : Prop :=
  isSpace u = false ∧ u ≠ unit ']' ∧ u ≠ unit '}'

theorem dropWhile_space {u : UInt16} {r : JsString} (h : isSpace u = false) :
    (u :: r).dropWhile isSpace = u :: r := by
  simp [h]

theorem intStr_cons (n : Int) : ∃ u t, intStr n = u :: t ∧ (IsDigit u ∨ u = unit '-') := by
  cases n with
  | ofNat n =>
    obtain ⟨u, t, h⟩ := List.exists_cons_of_ne_nil (natStr_ne_nil n)
    exact ⟨u, t, h, .inl (isDigit_natStr n u (by simp [h]))⟩
  | negSucc n => exact ⟨unit '-', natStr (n + 1), rfl, .inr rfl⟩


theorem Starts.of_digit {u : UInt16} (h : IsDigit u ∨ u = unit '-') : Starts u := by
  have key : ∀ c : Char, ¬ IsDigit (unit c) → unit c ≠ unit '-' → u ≠ unit c := by
    intro c h₁ h₂
    rcases h with h | rfl
    · exact h.ne h₁
    · exact h₂.symm
  refine ⟨?_, key ']' (by unfold IsDigit; decide) (by decide),
    key '}' (by unfold IsDigit; decide) (by decide)⟩
  simp only [isSpace, Bool.or_eq_false_iff, beq_eq_false_iff_ne]
  exact ⟨⟨⟨key ' ' (by unfold IsDigit; decide) (by decide),
    key '\t' (by unfold IsDigit; decide) (by decide)⟩,
    key '\n' (by unfold IsDigit; decide) (by decide)⟩,
    key '\r' (by unfold IsDigit; decide) (by decide)⟩

variable {quote : JsString → JsString}

/-- The text of a value is not empty, and starts with neither a space nor a closing
bracket or brace. -/
theorem print_cons (hq : ReadsBack quote) {v : Json} (hv : Safe v) :
    ∃ u t, print quote v = u :: t ∧ Starts u := by
  cases v with
  | null => exact ⟨_, _, rfl, by unfold Starts; decide⟩
  | bool b => cases b <;> exact ⟨_, _, rfl, by unfold Starts; decide⟩
  | num x =>
    obtain ⟨n, rfl, hn⟩ := hv
    obtain ⟨u, t, h, hu⟩ := intStr_cons n
    exact ⟨u, t, by rw [print, numStr, if_pos hn, h], .of_digit hu⟩
  | str s =>
    obtain ⟨body, h, -⟩ := hq s
    exact ⟨_, _, by rw [print, h], by unfold Starts; decide⟩
  | arr xs => exact ⟨_, _, rfl, by unfold Starts; decide⟩
  | obj kvs => exact ⟨_, _, rfl, by unfold Starts; decide⟩


theorem printList_cons (hq : ReadsBack quote) (x : Json) (xs : List Json)
    (hs : SafeList (x :: xs)) : ∃ u t, printList quote (x :: xs) = u :: t ∧ Starts u := by
  obtain ⟨u, t, h, hu⟩ := print_cons hq hs.1
  cases xs with
  | nil => exact ⟨u, t, h, hu⟩
  | cons y xs => exact ⟨u, _, by rw [printList, h, List.cons_append], hu⟩

theorem printEntries_cons (hq : ReadsBack quote) (e : JsString × Json)
    (kvs : List (JsString × Json)) : ∃ t, printEntries quote (e :: kvs) = unit '"' :: t := by
  obtain ⟨body, h, -⟩ := hq e.1
  cases kvs with
  | nil => exact ⟨_, by rw [printEntries, h, List.cons_append]⟩
  | cons f kvs => exact ⟨_, by rw [printEntries, h, List.cons_append, List.cons_append]⟩

theorem Starts.dropWhile {u : UInt16} {t : JsString} (h : Starts u) :
    (u :: t).dropWhile isSpace = u :: t := by
  simp [h.1]

theorem skip_starts {u : UInt16} {t : JsString} (h : Starts u) :
    skip ']' ((u :: t).dropWhile isSpace) = none ∧ skip '}' ((u :: t).dropWhile isSpace) = none := by
  rw [h.dropWhile]
  exact ⟨skip_ne fun t' h' => h.2.1 (List.cons.inj h').1, skip_ne fun t' h' => h.2.2 (List.cons.inj h').1⟩

theorem dropWhile_unit {c : Char} {t : JsString} (h : isSpace (unit c) = false) :
    (unit c :: t).dropWhile isSpace = unit c :: t := by
  simp [h]

/-- A number is read as a number. -/
theorem readValue_number {u : UInt16} {t : JsString} (h : IsDigit u ∨ u = unit '-') (fuel : Nat) :
    readValue (fuel + 1) (u :: t) = readNumber (u :: t) := by
  have key : ∀ c : Char, ¬ IsDigit (unit c) → unit c ≠ unit '-' → u ≠ unit c := by
    intro c h₁ h₂
    rcases h with h | rfl
    · exact h.ne h₁
    · exact h₂.symm
  rw [readValue, (Starts.of_digit h).dropWhile]
  simp only [key '"' (by unfold IsDigit; decide) (by decide),
    key '[' (by unfold IsDigit; decide) (by decide), key '{' (by unfold IsDigit; decide) (by decide),
    key 'n' (by unfold IsDigit; decide) (by decide), key 't' (by unfold IsDigit; decide) (by decide),
    key 'f' (by unfold IsDigit; decide) (by decide), if_false]

/-- The last element of an array. -/
theorem readElements_last {fuel : Nat} {s r : JsString} {v : Json}
    (h : readValue fuel s = some (v, unit ']' :: r)) :
    readElements (fuel + 1) s = some ([v], r) := by
  have hc : skip ',' (unit ']' :: r) = none := skip_ne fun t h => absurd (List.cons.inj h).1 (by decide)
  simp [readElements, h, dropWhile_unit (c := ']') (by decide), hc, skip_cons]

/-- An element of an array that is not the last one. -/
theorem readElements_next {fuel : Nat} {s s' r : JsString} {v : Json} {xs : List Json}
    (h : readValue fuel s = some (v, unit ',' :: s')) (h' : readElements fuel s' = some (xs, r)) :
    readElements (fuel + 1) s = some (v :: xs, r) := by
  simp [readElements, h, dropWhile_unit (c := ',') (by decide), skip_cons, h']

/-- The last entry of an object. -/
theorem readMembers_last {fuel : Nat} {s s' r : JsString} {k : JsString} {v : Json}
    (hk : readString s = some (k, unit ':' :: s'))
    (h : readValue fuel s' = some (v, unit '}' :: r)) :
    readMembers (fuel + 1) (unit '"' :: s) = some ([(k, v)], r) := by
  have hc : skip ',' (unit '}' :: r) = none := skip_ne fun t h => absurd (List.cons.inj h).1 (by decide)
  simp [readMembers, dropWhile_unit (c := '"') (by decide), skip_cons, hk,
    dropWhile_unit (c := ':') (by decide), h, dropWhile_unit (c := '}') (by decide), hc]

/-- An entry of an object that is not the last one. -/
theorem readMembers_next {fuel : Nat} {s s' s'' r : JsString} {k : JsString} {v : Json}
    {kvs : List (JsString × Json)} (hk : readString s = some (k, unit ':' :: s'))
    (h : readValue fuel s' = some (v, unit ',' :: s''))
    (h' : readMembers fuel s'' = some (kvs, r)) :
    readMembers (fuel + 1) (unit '"' :: s) = some (insertNew k v kvs, r) := by
  simp [readMembers, dropWhile_unit (c := '"') (by decide), skip_cons, hk,
    dropWhile_unit (c := ':') (by decide), h, dropWhile_unit (c := ',') (by decide), h']

/-- A non-empty array. -/
theorem readValue_arr {fuel : Nat} {u : UInt16} {t r : JsString} {xs : List Json} (hu : Starts u)
    (h : readElements fuel (u :: t) = some (xs, r)) :
    readValue (fuel + 1) (unit '[' :: u :: t) = some (arr xs, r) := by
  rw [readValue, dropWhile_unit (by decide)]
  simp only [(by decide : unit '[' ≠ unit '"'), if_false, if_true]
  rw [(skip_starts hu).1, h]
  rfl

/-- A non-empty object. -/
theorem readValue_obj {fuel : Nat} {u : UInt16} {t r : JsString} {kvs : List (JsString × Json)}
    (hu : Starts u) (h : readMembers fuel (u :: t) = some (kvs, r)) :
    readValue (fuel + 1) (unit '{' :: u :: t) = some (obj kvs, r) := by
  rw [readValue, dropWhile_unit (by decide)]
  simp only [(by decide : unit '{' ≠ unit '"'), (by decide : unit '{' ≠ unit '['), if_false, if_true]
  rw [(skip_starts hu).2, h]
  rfl

/-! ## The units of a text -/

theorem isDigit_printable {u : UInt16} (h : IsDigit u) : 0x20 ≤ u ∧ u ≤ 0x7e := by
  unfold IsDigit digit? inRange at h
  split at h
  · rename_i h'
    simp only [Bool.and_eq_true, decide_eq_true_eq] at h'
    exact ⟨UInt16.le_trans (by decide) h'.1, UInt16.le_trans h'.2 (by decide)⟩
  · cases h

theorem intStr_printable (n : Int) : Printable (intStr n) := by
  cases n with
  | ofNat n => exact fun u hu => isDigit_printable (isDigit_natStr n u hu)
  | negSucc n =>
    refine List.forall_mem_cons.mpr ⟨by decide, fun u hu => ?_⟩
    exact isDigit_printable (isDigit_natStr (n + 1) u hu)

section Units

variable {P : UInt16 → Prop} (hP : ∀ u, 0x20 ≤ u → u ≤ 0x7e → P u)

include hP in
theorem forall_printable {s : JsString} (h : Printable s) : ∀ u ∈ s, P u :=
  fun u hu => hP u (h u hu).1 (h u hu).2

mutual

/-- What holds of printable ASCII and of quoted strings holds of every unit of a text. -/
theorem forall_mem_print (hP : ∀ u, 0x20 ≤ u → u ≤ 0x7e → P u) (hq : ∀ s, ∀ u ∈ quote s, P u) :
    ∀ {v : Json}, Safe v → ∀ u ∈ print quote v, P u
  | null, _ => forall_printable (s := js "null") hP (by decide)
  | bool true, _ => forall_printable (s := js "true") hP (by decide)
  | bool false, _ => forall_printable (s := js "false") hP (by decide)
  | num x, h => by
    obtain ⟨n, rfl, hn⟩ := h
    rw [print, numStr, if_pos hn]
    exact forall_printable hP (intStr_printable n)
  | str s, _ => hq s
  | arr xs, h => by
    rw [print, List.cons_append, List.forall_mem_cons, List.forall_mem_append]
    exact ⟨hP _ (by decide) (by decide), forall_mem_printList hP hq h,
      forall_printable hP (by decide)⟩
  | obj kvs, h => by
    rw [print, List.cons_append, List.forall_mem_cons, List.forall_mem_append]
    exact ⟨hP _ (by decide) (by decide), forall_mem_printEntries hP hq h,
      forall_printable hP (by decide)⟩

theorem forall_mem_printList (hP : ∀ u, 0x20 ≤ u → u ≤ 0x7e → P u)
    (hq : ∀ s, ∀ u ∈ quote s, P u) :
    ∀ {xs : List Json}, SafeList xs → ∀ u ∈ printList quote xs, P u
  | [], _ => nofun
  | [x], h => forall_mem_print hP hq h.1
  | x :: y :: xs, h => by
    rw [printList, List.forall_mem_append, List.forall_mem_cons]
    exact ⟨forall_mem_print hP hq h.1, hP _ (by decide) (by decide),
      forall_mem_printList hP hq h.2⟩

theorem forall_mem_printEntries (hP : ∀ u, 0x20 ≤ u → u ≤ 0x7e → P u)
    (hq : ∀ s, ∀ u ∈ quote s, P u) :
    ∀ {kvs : List (JsString × Json)}, SafeEntries kvs → ∀ u ∈ printEntries quote kvs, P u
  | [], _ => nofun
  | [e], h => by
    rw [printEntries, List.forall_mem_append, List.forall_mem_cons]
    exact ⟨hq e.1, hP _ (by decide) (by decide), forall_mem_print hP hq h.1⟩
  | e :: f :: kvs, h => by
    simp only [printEntries, List.forall_mem_append, List.forall_mem_cons]
    exact ⟨⟨hq e.1, hP _ (by decide) (by decide), forall_mem_print hP hq h.1⟩,
      hP _ (by decide) (by decide), forall_mem_printEntries hP hq h.2⟩

end

end Units

/-! ## Values read back -/

mutual

/-- The text of a value, followed by something else, reads back as the value. -/
theorem readValue_print (hq : ReadsBack quote) :
    ∀ (v : Json) (fuel : Nat) (r : JsString), WF v → Safe v → Stops r →
      (print quote v).length ≤ fuel → readValue fuel (print quote v ++ r) = some (v, r)
  | null, fuel + 1, r, _, _, _, _ => rfl
  | bool true, fuel + 1, r, _, _, _, _ => rfl
  | bool false, fuel + 1, r, _, _, _, _ => rfl
  | num x, fuel, r, _, hs, hr, hf => by
    obtain ⟨n, rfl, hn⟩ := hs
    obtain ⟨u, t, h, hu⟩ := intStr_cons n
    have hp : print quote (num (.int n)) = intStr n := by rw [print, numStr, if_pos hn]
    rw [hp] at hf ⊢
    obtain ⟨fuel, rfl⟩ : ∃ k, fuel = k + 1 := ⟨fuel - 1, by simp [h] at hf; omega⟩
    have := readNumber_intStr hn hr
    rw [h, List.cons_append] at this ⊢
    rw [readValue_number hu, this]
  | str s, fuel, r, _, _, _, hf => by
    obtain ⟨body, h, hb⟩ := hq s
    obtain ⟨fuel, rfl⟩ : ∃ k, fuel = k + 1 := ⟨fuel - 1, by simp [print, h] at hf; omega⟩
    rw [print, h, List.cons_append, readValue, dropWhile_unit (by decide)]
    simp [hb]
  | arr [], fuel + 1, r, _, _, _, _ => rfl
  | arr (x :: xs), fuel, r, hw, hs, _, hf => by
    obtain ⟨u, t, h, hu⟩ := printList_cons hq x xs hs
    obtain ⟨fuel, rfl⟩ : ∃ k, fuel = k + 1 := ⟨fuel - 1, by simp [print] at hf; omega⟩
    have hx := readElements_print hq x xs fuel r hw hs (by simp [print] at hf; omega)
    rw [h, List.cons_append] at hx
    simpa [print, h] using readValue_arr hu hx
  | obj [], fuel + 1, r, _, _, _, _ => rfl
  | obj (e :: kvs), fuel, r, hw, hs, _, hf => by
    obtain ⟨t, h⟩ := printEntries_cons hq e kvs
    obtain ⟨fuel, rfl⟩ : ∃ k, fuel = k + 1 := ⟨fuel - 1, by simp [print] at hf; omega⟩
    have hx := readMembers_print hq e kvs fuel r hw.1 hw.2 hs (by simp [print] at hf; omega)
    rw [h, List.cons_append] at hx
    simpa [print, h] using readValue_obj (by unfold Starts; decide) hx

theorem readElements_print (hq : ReadsBack quote) :
    ∀ (x : Json) (xs : List Json) (fuel : Nat) (r : JsString), WFList (x :: xs) →
      SafeList (x :: xs) → (printList quote (x :: xs)).length < fuel →
      readElements fuel (printList quote (x :: xs) ++ unit ']' :: r) = some (x :: xs, r)
  | x, [], fuel + 1, r, hw, hs, hf => by
    have := readValue_print hq x fuel (unit ']' :: r) hw.1 hs.1 (.bracket r)
      (by simp [printList] at hf; omega)
    exact readElements_last this
  | x, y :: xs, fuel + 1, r, hw, hs, hf => by
    rw [printList, List.append_assoc, List.cons_append]
    have h := readValue_print hq x fuel (unit ',' :: (printList quote (y :: xs) ++ unit ']' :: r))
      hw.1 hs.1 (.comma _) (by simp [printList] at hf; omega)
    exact readElements_next h (readElements_print hq y xs fuel r hw.2 hs.2
      (by simp [printList] at hf ⊢; omega))

theorem readMembers_print (hq : ReadsBack quote) :
    ∀ (e : JsString × Json) (kvs : List (JsString × Json)) (fuel : Nat) (r : JsString),
      KeysSorted (e :: kvs) → WFEntries (e :: kvs) → SafeEntries (e :: kvs) →
      (printEntries quote (e :: kvs)).length < fuel →
      readMembers fuel (printEntries quote (e :: kvs) ++ unit '}' :: r) = some (e :: kvs, r)
  | (k, v), [], fuel + 1, r, _, hw, hs, hf => by
    obtain ⟨body, h, hb⟩ := hq k
    have hv := readValue_print hq v fuel (unit '}' :: r) hw.1 hs.1 (.brace r)
      (by simp [printEntries] at hf; omega)
    have hk := hb (unit ':' :: (print quote v ++ unit '}' :: r))
    simpa [printEntries, h] using readMembers_last hk hv
  | (k, v), f :: kvs, fuel + 1, r, ho, hw, hs, hf => by
    obtain ⟨body, h, hb⟩ := hq k
    obtain ⟨hlt, ho⟩ := keysSorted_cons.mp ho
    have hv := readValue_print hq v fuel
      (unit ',' :: (printEntries quote (f :: kvs) ++ unit '}' :: r)) hw.1 hs.1 (.comma _)
      (by simp [printEntries] at hf; omega)
    have hrest := readMembers_print hq f kvs fuel r ho hw.2 hs.2
      (by simp [printEntries] at hf ⊢; omega)
    have hk := hb (unit ':' :: (print quote v ++
      unit ',' :: (printEntries quote (f :: kvs) ++ unit '}' :: r)))
    have := readMembers_next hk hv hrest
    rw [insertNew_of_lt hlt] at this
    simpa [printEntries, h] using this

end

/-- **Round trip**: the text of a well-formed value whose numbers are safe integers
parses as the value. -/
theorem parse_print (hq : ReadsBack quote) {v : Json} (hw : WF v) (hs : Safe v) :
    parse (print quote v) = some v := by
  have := readValue_print hq v ((print quote v).length + 1) [] hw hs .nil (by omega)
  rw [List.append_nil] at this
  simp [parse, this]


/-! ## Quoting -/

theorem hexValue_hexDigit {n : Nat} (h : n < 16) : hexValue (hexDigit n) = some n := by
  interval_cases n <;> decide

theorem hexUnit_hex4 (u : UInt16) :
    hexUnit (hexDigit (u.toNat / 4096)) (hexDigit (u.toNat / 256 % 16))
      (hexDigit (u.toNat / 16 % 16)) (hexDigit (u.toNat % 16)) = some u := by
  have hu : u.toNat < 65536 := u.toNat_lt
  have hsum : ((u.toNat / 4096 * 16 + u.toNat / 256 % 16) * 16 + u.toNat / 16 % 16) * 16
      + u.toNat % 16 = u.toNat := by omega
  simp only [hexUnit, hexValue_hexDigit (n := u.toNat / 4096) (by omega),
    hexValue_hexDigit (Nat.mod_lt _ (by decide : 0 < 16)), Option.bind_eq_bind, Option.bind_some,
    hsum]
  simp

theorem readString_close (t : JsString) : readString (unit '"' :: t) = some ([], t) := by
  rw [readString.eq_def]
  rfl

/-- A unit that stands for itself. -/
theorem readString_self {u : UInt16} {t : JsString} (hq : u ≠ unit '"') (hs : ¬ u < 0x20)
    (hb : u ≠ unit '\\') : readString (u :: t) = (readString t).map fun p => (u :: p.1, p.2) := by
  rw [readString.eq_def]
  simp only [if_neg hq, if_neg hs, if_neg hb]
  cases readString t <;> rfl

theorem readString_unicodeEscape (u : UInt16) (t : JsString) :
    readString (unicodeEscape u ++ t) = (readString t).map fun p => (u :: p.1, p.2) := by
  rw [unicodeEscape, hex4]
  simp only [List.cons_append, List.nil_append]
  rw [readString.eq_def]
  simp only [(by decide : unit '\\' ≠ unit '"'), (by decide : ¬ unit '\\' < 0x20), if_false, if_true,
    hexUnit_hex4]
  cases readString t <;> rfl

theorem readString_shortEscape {e w : UInt16} {t : JsString} (h : shortEscape e = some w) :
    readString (unit '\\' :: e :: t) = (readString t).map fun p => (w :: p.1, p.2) := by
  have he : e ≠ unit 'u' := by
    rintro rfl
    cases h
  rw [readString.eq_def]
  simp only [(by decide : unit '\\' ≠ unit '"'), (by decide : ¬ unit '\\' < 0x20), if_false, if_true,
    he, h]
  cases readString t <;> rfl

/-- A quoted unit reads back. -/
theorem readString_quoteUnit (u : UInt16) (t : JsString) :
    readString (quoteUnit u ++ t) = (readString t).map fun p => (u :: p.1, p.2) := by
  unfold quoteUnit
  split_ifs with h₁ h₂ h₃ h₄ h₅ h₆ h₇ h₈
  · subst h₁
    exact readString_shortEscape rfl
  · subst h₂
    exact readString_shortEscape rfl
  · subst h₃
    exact readString_shortEscape rfl
  · subst h₄
    exact readString_shortEscape rfl
  · subst h₅
    exact readString_shortEscape rfl
  · subst h₆
    exact readString_shortEscape rfl
  · subst h₇
    exact readString_shortEscape rfl
  · exact readString_unicodeEscape u t
  · simp only [Bool.or_eq_true, decide_eq_true_eq, not_or] at h₈
    exact readString_self h₁ h₈.1.1 h₂

theorem not_special_of_surrogate {u : UInt16} (h : isHigh u = true ∨ isLow u = true) :
    u ≠ unit '"' ∧ ¬ u < 0x20 ∧ u ≠ unit '\\' := by
  have hu : 0xd800 ≤ u.toNat := by
    simp only [isHigh, isLow, Bool.and_eq_true, decide_eq_true_eq, UInt16.le_iff_toNat_le] at h
    have h₁ : (0xd800 : UInt16).toNat = 0xd800 := rfl
    have h₂ : (0xdc00 : UInt16).toNat = 0xdc00 := rfl
    omega
  refine ⟨?_, ?_, ?_⟩
  · rintro rfl
    exact absurd hu (by decide)
  · rw [UInt16.lt_iff_toNat_lt]
    have : (0x20 : UInt16).toNat = 0x20 := rfl
    omega
  · rintro rfl
    exact absurd hu (by decide)

theorem readString_quoteUnits : ∀ (s t : JsString),
    readString (quoteUnits s ++ unit '"' :: t) = some (s, t)
  | [], t => readString_close t
  | [u], t => by
    rw [quoteUnits, readString_quoteUnit, readString_close]
    rfl
  | u :: v :: rest, t => by
    rw [quoteUnits]
    split
    case isTrue h =>
      obtain ⟨hu, hv⟩ := Bool.and_eq_true_iff.mp h
      obtain ⟨h₁, h₂, h₃⟩ := not_special_of_surrogate (.inl hu)
      obtain ⟨h₄, h₅, h₆⟩ := not_special_of_surrogate (.inr hv)
      rw [List.cons_append, List.cons_append, readString_self h₁ h₂ h₃, readString_self h₄ h₅ h₆,
        readString_quoteUnits rest t]
      rfl
    case isFalse h =>
      rw [List.append_assoc, readString_quoteUnit, readString_quoteUnits (v :: rest) t]
      rfl

theorem readsBack_stringify : ReadsBack stringify := fun s =>
  ⟨quoteUnits s ++ [unit '"'], rfl, fun r => by simpa using readString_quoteUnits s r⟩

/-! ## What is read is well formed -/

theorem readNumber_wf {s r : JsString} {v : Json} (h : readNumber s = some (v, r)) : WF v := by
  simp only [readNumber] at h
  split at h
  · cases h
  · simp only [Option.bind_eq_bind, Option.bind_eq_some_iff] at h
    obtain ⟨_, _, _, _, h⟩ := h
    obtain ⟨rfl, -⟩ := Prod.mk.inj (Option.some.inj h)
    trivial

theorem readWord_wf {w s r : JsString} {v v' : Json} (hv : WF v')
    (h : readWord w v' s = some (v, r)) : WF v := by
  rw [readWord] at h
  split at h
  · obtain ⟨rfl, -⟩ := Prod.mk.inj (Option.some.inj h)
    exact hv
  · cases h

theorem keysSorted_single (k : JsString) (v : Json) : KeysSorted [(k, v)] := by
  simp [KeysSorted]

mutual

theorem readValue_wf : ∀ {fuel : Nat} {s r : JsString} {v : Json},
    readValue fuel s = some (v, r) → WF v
  | fuel + 1, s, r, v, h => by
    simp only [readValue] at h
    split at h
    · cases h
    · split_ifs at h
      · obtain ⟨p, -, hp⟩ := Option.map_eq_some_iff.mp h
        obtain ⟨rfl, -⟩ := Prod.mk.inj hp
        trivial
      · split at h
        · obtain ⟨rfl, -⟩ := Prod.mk.inj (Option.some.inj h)
          trivial
        · obtain ⟨⟨xs, r'⟩, hx, hp⟩ := Option.map_eq_some_iff.mp h
          obtain ⟨rfl, -⟩ := Prod.mk.inj hp
          exact readElements_wf hx
      · split at h
        · obtain ⟨rfl, -⟩ := Prod.mk.inj (Option.some.inj h)
          exact ⟨List.Pairwise.nil, trivial⟩
        · obtain ⟨⟨kvs, r'⟩, hx, hp⟩ := Option.map_eq_some_iff.mp h
          obtain ⟨rfl, -⟩ := Prod.mk.inj hp
          exact readMembers_wf hx
      · exact readWord_wf (by trivial) h
      · exact readWord_wf (by trivial) h
      · exact readWord_wf (by trivial) h
      · exact readNumber_wf h

theorem readElements_wf : ∀ {fuel : Nat} {s r : JsString} {xs : List Json},
    readElements fuel s = some (xs, r) → WFList xs
  | fuel + 1, s, r, xs, h => by
    simp only [readElements, Option.bind_eq_bind, Option.bind_eq_some_iff] at h
    obtain ⟨⟨v, s'⟩, hv, h⟩ := h
    have hw := readValue_wf hv
    split at h
    · obtain ⟨⟨xs', r'⟩, hx, h⟩ := Option.bind_eq_some_iff.mp h
      obtain ⟨rfl, -⟩ := Prod.mk.inj (Option.some.inj h)
      exact ⟨hw, readElements_wf hx⟩
    · obtain ⟨_, -, hp⟩ := Option.map_eq_some_iff.mp h
      obtain ⟨rfl, -⟩ := Prod.mk.inj hp
      exact ⟨hw, trivial⟩

theorem readMembers_wf : ∀ {fuel : Nat} {s r : JsString} {kvs : List (JsString × Json)},
    readMembers fuel s = some (kvs, r) → KeysSorted kvs ∧ WFEntries kvs
  | fuel + 1, s, r, kvs, h => by
    simp only [readMembers, Option.bind_eq_bind, Option.bind_eq_some_iff] at h
    obtain ⟨_, -, ⟨k, s'⟩, -, _, -, ⟨v, s''⟩, hv, h⟩ := h
    have hw := readValue_wf hv
    split at h
    · obtain ⟨⟨kvs', r'⟩, hx, h⟩ := Option.bind_eq_some_iff.mp h
      obtain ⟨rfl, -⟩ := Prod.mk.inj (Option.some.inj h)
      obtain ⟨h₁, h₂⟩ := readMembers_wf hx
      exact ⟨keysSorted_insertNew h₁, wfEntries_insertNew hw h₂⟩
    · obtain ⟨_, -, hp⟩ := Option.map_eq_some_iff.mp h
      obtain ⟨rfl, -⟩ := Prod.mk.inj hp
      exact ⟨keysSorted_single k v, hw, trivial⟩

end

/-- A parsed value is well formed. -/
theorem wf_of_parse {s : JsString} {v : Json} (h : parse s = some v) : WF v := by
  simp only [parse] at h
  split at h
  · rename_i hv
    split at h
    · obtain rfl := Option.some.inj h
      exact readValue_wf hv
    · cases h
  · cases h

end Json

end Js
