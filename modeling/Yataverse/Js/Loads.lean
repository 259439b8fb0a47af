import Yataverse.Js.Shortest

/-!
# `json.loads`

Python reads the grammar of JSON, with three words more. What differs are numbers: an integer is read exactly, and a
number with a fraction or an exponent is a `float`.

- `loads`: `json.loads` of a text. An `int` is a number `int`; a `float` is a fraction, whatever its value.
- `readNumber_eq_int`: a number is an `int` where its text is that of an integer.
- `natStr_ofDigits`: digits are the text of their number.
- `readMembers_last`, `readMembers_next`: the entries of a dictionary.
-/

namespace Js

open Json

/-! ## Digits -/

variable {n : Nat} {s t r whole : JsString} {u : UInt16}

theorem natStr_step {a d : Nat} (ha : 1 ≤ a) (hd : d < 10) : natStr (10 * a + d) = natStr a ++ [unit d.digitChar] := by
  have hdiv : (10 * a + d) / 10 = a := by omega
  have hmod : (10 * a + d) % 10 = d := by omega
  rw [natStr, Nat.toDigits_of_base_le (by decide) (by omega : 10 ≤ 10 * a + d), List.map_append, hdiv, hmod]
  rfl

/-- A digit is that of its value. -/
theorem digitChar_of_isDigit (hu : IsDigit u) : u.toNat - 48 < 10 ∧ unit (u.toNat - 48).digitChar = u := by
  have hall : ∀ n < 128, IsDigit (UInt16.ofNat n) → n - 48 < 10 ∧ unit (n - 48).digitChar = UInt16.ofNat n := by
    unfold IsDigit
    decide +kernel
  have hlt : u.toNat < 128 := by
    have := isDigit_ascii hu
    simpa [UInt16.lt_iff_toNat_lt] using this
  have hback : UInt16.ofNat u.toNat = u := UInt16.ofNat_toNat
  have := hall u.toNat hlt
  rw [hback] at this
  exact this hu

/-- Digits without a leading zero. -/
structure Decimal (whole : JsString) : Prop where
  digits : ∀ u ∈ whole, IsDigit u
  ne_nil : whole ≠ []
  lead : whole.head? = some (unit '0') → whole = [unit '0']

theorem Decimal.init (h : Decimal (whole ++ [u])) (hne : whole ≠ []) : Decimal whole ∧ whole.head? ≠ some (unit '0') := by
  have hhead : (whole ++ [u]).head? = whole.head? := List.head?_append_of_ne_nil _ hne
  have hnot : whole.head? ≠ some (unit '0') := by
    intro hzero
    have := congrArg List.length (h.lead (hhead.trans hzero))
    rw [List.length_append, List.length_singleton, List.length_singleton] at this
    exact hne (List.length_eq_zero_iff.mp (by omega))
  exact ⟨⟨fun v hv => h.digits v (List.mem_append_left _ hv), hne, fun hzero => absurd hzero hnot⟩, hnot⟩

/-- **Digits are the text of their number.** -/
theorem natStr_ofDigits (h : Decimal whole) : natStr (ofDigits whole) = whole := by
  induction whole using List.reverseRecOn with
  | nil => exact absurd rfl h.ne_nil
  | append_singleton whole u ih =>
    obtain ⟨hlt, hchar⟩ := digitChar_of_isDigit (h.digits u (List.mem_append_right _ List.mem_cons_self))
    have hvalue : ofDigits (whole ++ [u]) = 10 * ofDigits whole + (u.toNat - 48) := by
      have hone : ofDigits [u] = u.toNat - 48 := Nat.zero_add _
      rw [ofDigits_append, List.length_singleton, Nat.pow_one, Nat.mul_comm, hone]
    by_cases hnil : whole = []
    · subst hnil
      have hzero : ofDigits [] = 0 := rfl
      rw [hvalue, hzero, Nat.mul_zero, Nat.zero_add, natStr, Nat.toDigits_of_lt_base hlt]
      exact congrArg (· :: []) hchar
    · obtain ⟨hinit, hnot⟩ := h.init hnil
      have ih := ih hinit
      have hpos : 1 ≤ ofDigits whole := by
        refine Nat.one_le_iff_ne_zero.mpr fun hzero => hnot ?_
        rw [hzero] at ih
        rw [← ih]
        rfl
      rw [hvalue, natStr_step hpos hlt, ih, hchar]

theorem decimal_natStr (n : Nat) : Decimal (natStr n) := by
  refine ⟨isDigit_natStr n, natStr_ne_nil n, fun hzero => ?_⟩
  rcases natStr_head n with h | ⟨u, s, h, -, hne⟩
  · exact h
  · rw [h] at hzero
    exact absurd (Option.some.inj hzero) hne

/-! ## The reader -/

namespace Loads

/-- Read a number. -/
def readNumber (s : JsString) : Option (Json × JsString) := do
  let (negative, s) := readSign s
  let (whole, s) := spanDigits s
  if whole = [] || whole.head? = some (unit '0') && whole ≠ [unit '0'] then none
  else
    let (fraction, t) ← readFraction s
    let (e, r) ← readExponent t
    -- an `int` has nothing behind its digits
    if r.length = s.length then
      return (num (.int (if negative then -ofDigits whole else ofDigits whole)), r)
    else
      let q : ℚ := ofDigits (whole ++ fraction) * 10 ^ (e - fraction.length)
      return (num (.frac (if negative then -q else q)), r)

/-- Read a number or a word for one. -/
def readFloatWord (s : JsString) : Option (Json × JsString) :=
  readWord (js "NaN") (num (.inf false)) s <|> readWord (js "Infinity") (num (.inf false)) s <|>
    readWord (js "-Infinity") (num (.inf true)) s <|> readNumber s

mutual

/-- Read a value. -/
def readValue : Nat → JsString → Option (Json × JsString)
  | 0, _ => none
  | fuel + 1, s =>
    let s := s.dropWhile isSpace
    match s with
    | [] => none
    | u :: r =>
      if u = unit '"' then (readString r).map fun (t, r) => (str t, r)
      else if u = unit '[' then
        match skip ']' (r.dropWhile isSpace) with
        | some r => some (arr [], r)
        | none => (readElements fuel r).map fun (xs, r) => (arr xs, r)
      else if u = unit '{' then
        match skip '}' (r.dropWhile isSpace) with
        | some r => some (obj [], r)
        | none => (readMembers fuel r).map fun (kvs, r) => (obj kvs, r)
      else if u = unit 'n' then readWord (js "null") null s
      else if u = unit 't' then readWord (js "true") (bool true) s
      else if u = unit 'f' then readWord (js "false") (bool false) s
      else readFloatWord s

/-- Read the elements of a list, to its closing bracket. -/
def readElements : Nat → JsString → Option (List Json × JsString)
  | 0, _ => none
  | fuel + 1, s => do
    let (v, s) ← readValue fuel s
    let s := s.dropWhile isSpace
    match skip ',' s with
    | some r =>
      let (xs, r) ← readElements fuel r
      return (v :: xs, r)
    | none => (skip ']' s).map fun r => ([v], r)

/-- Read the entries of a dictionary, to its closing brace. -/
def readMembers : Nat → JsString → Option (List (JsString × Json) × JsString)
  | 0, _ => none
  | fuel + 1, s => do
    let (k, s) ← readString (← skip '"' (s.dropWhile isSpace))
    let (v, s) ← readValue fuel (← skip ':' (s.dropWhile isSpace))
    let s := s.dropWhile isSpace
    match skip ',' s with
    | some r =>
      let (kvs, r) ← readMembers fuel r
      return (insertNew k v kvs, r)
    | none => (skip '}' s).map fun r => ([(k, v)], r)

end

end Loads

/-- `json.loads` of a text: `none` is a `ValueError`. -/
def loads (s : JsString) : Option Json :=
  match Loads.readValue (s.length + 1) s with
  | some (v, r) => if r.all isSpace then some v else none
  | none => none

/-! ## Numbers -/

namespace Loads

theorem skip_eq_some {c : Char} (h : skip c s = some r) : s = unit c :: r := by
  cases s with
  | nil => cases h
  | cons u s =>
    rw [skip] at h
    split_ifs at h with hu
    obtain rfl := Option.some.inj h
    rw [hu]

theorem spanDigits_suffix (s : JsString) : (spanDigits s).2 <:+ s := by
  rw [spanDigits, List.span_eq_takeWhile_dropWhile]
  exact List.dropWhile_suffix _

theorem readSign_suffix (s : JsString) : (readSign s).2 <:+ s := by
  unfold readSign
  cases hminus : skip '-' s with
  | some r =>
    rw [skip_eq_some hminus]
    exact List.suffix_cons _ _
  | none => exact List.suffix_refl _

theorem readFraction_suffix {fraction : JsString} (h : readFraction s = some (fraction, t)) : t <:+ s := by
  unfold readFraction at h
  cases hdot : skip '.' s with
  | none =>
    rw [hdot] at h
    obtain ⟨-, rfl⟩ := Prod.mk.inj (Option.some.inj h)
    exact List.suffix_refl _
  | some r =>
    rw [hdot] at h
    dsimp only at h
    split_ifs at h
    obtain rfl := congrArg Prod.snd (Option.some.inj h)
    rw [skip_eq_some hdot]
    exact (spanDigits_suffix r).trans (List.suffix_cons _ _)

theorem readExponent_suffix {e : Int} (h : readExponent s = some (e, t)) : t <:+ s := by
  unfold readExponent at h
  cases he : (skip 'e' s <|> skip 'E' s) with
  | none =>
    rw [he] at h
    obtain ⟨-, rfl⟩ := Prod.mk.inj (Option.some.inj h)
    exact List.suffix_refl _
  | some r =>
    have hs : r <:+ s := by
      cases hlow : skip 'e' s with
      | some r' =>
        rw [hlow] at he
        obtain rfl := Option.some.inj he
        rw [skip_eq_some hlow]
        exact List.suffix_cons _ _
      | none =>
        rw [hlow] at he
        rw [skip_eq_some he]
        exact List.suffix_cons _ _
    rw [he] at h
    dsimp only at h
    cases hplus : skip '+' r with
    | some r' =>
      rw [hplus] at h
      dsimp only at h
      have hplus' : r' <:+ r := by
        rw [skip_eq_some hplus]
        exact List.suffix_cons _ _
      split_ifs at h
      all_goals
        obtain rfl := congrArg Prod.snd (Option.some.inj h)
        exact ((spanDigits_suffix r').trans hplus').trans hs
    | none =>
      rw [hplus] at h
      dsimp only at h
      split_ifs at h
      all_goals
        obtain rfl := congrArg Prod.snd (Option.some.inj h)
        exact ((spanDigits_suffix _).trans (readSign_suffix r)).trans hs

/-- **A number ends where it ends for `JSON.parse`**, and is an `int` where it is all digits. -/
theorem readNumber_eq (hsign : ∀ t, s ≠ unit '-' :: t) {w : Json} (h : Json.readNumber s = some (w, r)) :
    ∃ x, readNumber s = some (num x, r) ∧
      ∀ m : Int, x = .int m → ∃ whole, s = whole ++ r ∧ Decimal whole ∧ m = ofDigits whole := by
  have hread : readSign s = (false, s) := by rw [readSign, skip_ne hsign]
  have hspan : spanDigits s = (s.takeWhile (fun u => (digit? u).isSome), s.dropWhile fun u => (digit? u).isSome) :=
    List.span_eq_takeWhile_dropWhile ..
  have hsplit : s.takeWhile (fun u => (digit? u).isSome) ++ s.dropWhile (fun u => (digit? u).isSome) = s :=
    List.takeWhile_append_dropWhile
  have hall : ∀ u ∈ s.takeWhile (fun u => (digit? u).isSome), IsDigit u := by
    intro u hu
    exact @List.mem_takeWhile_imp _ (fun u => (digit? u).isSome) _ _ hu
  rw [Json.readNumber, hread] at h
  rw [readNumber, hread]
  dsimp only at h ⊢
  rw [hspan] at h ⊢
  generalize s.takeWhile (fun u => (digit? u).isSome) = whole at h hsplit hall ⊢
  generalize s.dropWhile (fun u => (digit? u).isSome) = rest at h hsplit ⊢
  dsimp only at h ⊢
  by_cases hlead : (whole = [] || whole.head? = some (unit '0') && whole ≠ [unit '0']) = true
  · rw [if_pos hlead] at h
    cases h
  · rw [if_neg hlead] at h ⊢
    obtain ⟨⟨fraction, t⟩, hfraction, h⟩ := Option.bind_eq_some_iff.mp h
    obtain ⟨⟨e, r'⟩, hexponent, h⟩ := Option.bind_eq_some_iff.mp h
    obtain ⟨-, rfl⟩ := Prod.mk.inj (Option.some.inj h)
    rw [hfraction]
    dsimp only [bind, Option.bind]
    rw [hexponent]
    dsimp only [bind, Option.bind]
    have hsuffix := (readExponent_suffix hexponent).trans (readFraction_suffix hfraction)
    by_cases hlen : r'.length = rest.length
    · rw [if_pos hlen]
      refine ⟨_, rfl, fun m hm => ⟨whole, ?_, ?_, ?_⟩⟩
      · rw [hsuffix.eq_of_length hlen, hsplit]
      · simp only [Bool.or_eq_true, Bool.and_eq_true, decide_eq_true_eq, not_or, not_and, not_not] at hlead
        exact ⟨hall, hlead.1, hlead.2⟩
      · exact (Number.int.inj hm).symm
    · rw [if_neg hlen]
      refine ⟨_, rfl, fun m hm => ?_⟩
      cases hm

/-- The text of an integer is an `int`. -/
theorem readNumber_natStr (hr : Stops r) (n : Nat) : readNumber (natStr n ++ r) = some (num (.int n), r) := by
  have hspan : spanDigits (natStr n ++ r) = (natStr n, r) :=
    spanDigits_append (isDigit_natStr n) fun u t h => (hr u t h).1
  have hlead : ¬ (natStr n = [] || (natStr n).head? = some (unit '0') && natStr n ≠ [unit '0']) = true := by
    simp only [Bool.or_eq_true, Bool.and_eq_true, decide_eq_true_eq, not_or, not_and, not_not]
    exact ⟨natStr_ne_nil n, (decimal_natStr n).lead⟩
  have hsign : readSign (natStr n ++ r) = (false, natStr n ++ r) := by
    obtain ⟨u, t, hu⟩ := List.exists_cons_of_ne_nil (natStr_ne_nil n)
    have hd : u ≠ unit '-' := by
      refine (isDigit_natStr n u ?_).ne (by unfold IsDigit; decide)
      rw [hu]
      exact List.mem_cons_self
    rw [readSign, skip_ne]
    rintro t' h
    rw [hu] at h
    exact hd (List.cons.inj h).1
  rw [readNumber, hsign]
  dsimp only
  rw [hspan]
  dsimp only
  rw [if_neg hlead, readFraction_none fun s h => (hr _ s h).2.1 rfl]
  dsimp only [bind, Option.bind]
  rw [readExponent_none hr]
  dsimp only [bind, Option.bind]
  rw [if_pos rfl, ofDigits_natStr]
  rfl

/-! ## Objects -/

theorem readFloatWord_digit (hu : IsDigit u) : readFloatWord (u :: t) = readNumber (u :: t) := by
  have hword {c : Char} {w : JsString} (hc : ¬ IsDigit (unit c)) (v : Json) :
      readWord (unit c :: w) v (u :: t) = none := by
    refine if_neg fun hpre => ?_
    obtain ⟨rest, hrest⟩ := List.isPrefixOf_iff_prefix.mp hpre
    exact hu.ne hc (List.cons.inj hrest).1.symm
  have h₁ : js "NaN" = unit 'N' :: js "aN" := rfl
  have h₂ : js "Infinity" = unit 'I' :: js "nfinity" := rfl
  have h₃ : js "-Infinity" = unit '-' :: js "Infinity" := rfl
  rw [readFloatWord, h₁, h₃, hword (by unfold IsDigit; decide), hword (by unfold IsDigit; decide), h₂,
    hword (by unfold IsDigit; decide)]
  rfl

/-- A number is read as a number. -/
theorem readValue_number (hu : IsDigit u) (fuel : Nat) : readValue (fuel + 1) (u :: t) = readNumber (u :: t) := by
  have key : ∀ c : Char, ¬ IsDigit (unit c) → u ≠ unit c := fun c hc => hu.ne hc
  rw [readValue, (Starts.of_digit (.inl hu)).dropWhile]
  simp only [key '"' (by unfold IsDigit; decide), key '[' (by unfold IsDigit; decide),
    key '{' (by unfold IsDigit; decide), key 'n' (by unfold IsDigit; decide), key 't' (by unfold IsDigit; decide),
    key 'f' (by unfold IsDigit; decide), if_false]
  exact readFloatWord_digit hu

theorem readValue_string {k : JsString} (h : readString s = some (k, t)) (fuel : Nat) :
    readValue (fuel + 1) (unit '"' :: s) = some (str k, t) := by
  rw [readValue, dropWhile_unit (by decide)]
  simp only [if_true, h, Option.map_some]

/-- The last entry of a dictionary. -/
theorem readMembers_last {fuel : Nat} {k : JsString} {v : Json} (hk : readString s = some (k, unit ':' :: t))
    (h : readValue fuel t = some (v, unit '}' :: r)) : readMembers (fuel + 1) (unit '"' :: s) = some ([(k, v)], r) := by
  have hc : skip ',' (unit '}' :: r) = none := skip_ne fun t h => absurd (List.cons.inj h).1 (by decide)
  simp [readMembers, dropWhile_unit (c := '"') (by decide), skip_cons, hk,
    dropWhile_unit (c := ':') (by decide), h, dropWhile_unit (c := '}') (by decide), hc]

/-- An entry of a dictionary that is not the last one. -/
theorem readMembers_next {fuel : Nat} {k s' : JsString} {v : Json} {kvs : List (JsString × Json)}
    (hk : readString s = some (k, unit ':' :: t)) (h : readValue fuel t = some (v, unit ',' :: s'))
    (h' : readMembers fuel s' = some (kvs, r)) :
    readMembers (fuel + 1) (unit '"' :: s) = some (insertNew k v kvs, r) := by
  simp [readMembers, dropWhile_unit (c := '"') (by decide), skip_cons, hk,
    dropWhile_unit (c := ':') (by decide), h, dropWhile_unit (c := ',') (by decide), h']

/-- A dictionary that is not empty. -/
theorem readValue_obj {fuel : Nat} {kvs : List (JsString × Json)} (hu : Starts u)
    (h : readMembers fuel (u :: t) = some (kvs, r)) : readValue (fuel + 1) (unit '{' :: u :: t) = some (obj kvs, r) := by
  rw [readValue, dropWhile_unit (by decide)]
  simp only [(by decide : unit '{' ≠ unit '"'), (by decide : unit '{' ≠ unit '['), if_false, if_true]
  rw [(skip_starts hu).2, h]
  rfl

end Loads

end Js
