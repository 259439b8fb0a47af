import Yataverse.Js.Reader

/-!
# Texts that differ where JSON does not look

- `Similar`: two texts with the same units, up to what is behind their end and to surrogates that were decoded as three
  replacement characters.
- `Alike`: the values that are read from them, up to how numbers are held.
- **`Reader.parse_similar`**: what one reader reads, another one reads from a similar text, if it takes the numbers.
-/

namespace Js

open Json

/-- Half of a surrogate pair. -/
def isSurrogate (u : UInt16) : Bool := isHigh u || isLow u

/-- The second text ends where the first goes on as `ends` says. A surrogate may stand for U+FFFD three times. -/
inductive Similar (ends : JsString → Prop) : JsString → JsString → Prop
  | stop {e : JsString} (he : ends e) : Similar ends e []
  | same (u : UInt16) {s t : JsString} (more : Similar ends s t) : Similar ends (u :: s) (u :: t)
  | lone {u : UInt16} {s t : JsString} (hu : isSurrogate u = true) (more : Similar ends s t) :
      Similar ends (0xfffd :: 0xfffd :: 0xfffd :: s) (u :: t)

/-- White space only. -/
def Blank (s : JsString) : Prop := ∀ u ∈ s, isSpace u = true

/-- Nothing. -/
def Nothing (s : JsString) : Prop := s = []

variable {ends : JsString → Prop} {s t r r' w x : JsString} {u : UInt16}

/-! ## Units -/

/-- A unit that JSON gives a meaning. -/
structure Token (u : UInt16) : Prop where
  ascii : u < 0x80
  space : isSpace u = false

theorem isSurrogate_range (h : isSurrogate u = true) : 0xd800 ≤ u.toNat ∧ u.toNat ≤ 0xdfff := by
  simp only [isSurrogate, isHigh, isLow, Bool.or_eq_true, Bool.and_eq_true, decide_eq_true_eq,
    UInt16.le_iff_toNat_le] at h
  have h₁ : (0xd800 : UInt16).toNat = 0xd800 := rfl
  have h₂ : (0xdbff : UInt16).toNat = 0xdbff := rfl
  have h₃ : (0xdc00 : UInt16).toNat = 0xdc00 := rfl
  have h₄ : (0xdfff : UInt16).toNat = 0xdfff := rfl
  omega

theorem Token.ne_surrogate (h : Token u) {v : UInt16} (hv : isSurrogate v = true) : u ≠ v := by
  rintro rfl
  have hlt : u.toNat < 0x80 := UInt16.lt_iff_toNat_lt.mp h.ascii
  have := isSurrogate_range hv
  omega

theorem Token.ne_replacement (h : Token u) : u ≠ 0xfffd := by
  rintro rfl
  exact absurd h.ascii (by decide)

theorem not_isSpace_of_surrogate (h : isSurrogate u = true) : isSpace u = false := by
  have hrange := isSurrogate_range h
  have hne : ∀ c : UInt16, c.toNat < 0x80 → (u == c) = false := by
    intro c hc
    refine beq_false_of_ne ?_
    rintro rfl
    omega
  rw [isSpace, hne 32 (by decide), hne 9 (by decide), hne 10 (by decide), hne 13 (by decide)]
  rfl

theorem digit?_of_surrogate (h : isSurrogate u = true) : digit? u = none := by
  have hrange := isSurrogate_range h
  have h9 : (unit '9').toNat = 57 := rfl
  refine if_neg ?_
  simp only [inRange, Bool.and_eq_true, decide_eq_true_eq, UInt16.le_iff_toNat_le]
  omega

theorem isSpace_range (h : isSpace u = true) : u.toNat ≤ 32 := by
  simp only [isSpace, Bool.or_eq_true, beq_iff_eq] at h
  rcases h with ((rfl | rfl) | rfl) | rfl <;> decide

theorem digit?_of_space (h : isSpace u = true) : digit? u = none := by
  have hrange := isSpace_range h
  have h0 : (unit '0').toNat = 48 := rfl
  refine if_neg ?_
  simp only [inRange, Bool.and_eq_true, decide_eq_true_eq, UInt16.le_iff_toNat_le]
  omega

/-! ## Tokens -/

theorem Similar.head (h : Similar Blank (u :: s) t) (hu : Token u) : ∃ t', t = u :: t' ∧ Similar Blank s t' := by
  generalize hs : u :: s = s' at h
  cases h with
  | stop he =>
    subst hs
    have := he u List.mem_cons_self
    rw [hu.space] at this
    cases this
  | same v more =>
    obtain ⟨rfl, rfl⟩ := List.cons.inj hs
    exact ⟨_, rfl, more⟩
  | lone hv more => exact absurd (List.cons.inj hs).1 hu.ne_replacement

theorem Similar.dropWhile (h : Similar Blank s t) : Similar Blank (s.dropWhile isSpace) (t.dropWhile isSpace) := by
  induction h with
  | stop he =>
    rw [List.dropWhile_eq_nil_iff.mpr he]
    exact .stop fun _ hu => absurd hu List.not_mem_nil
  | same u more ih =>
    by_cases hu : isSpace u = true
    · rwa [List.dropWhile_cons_of_pos hu, List.dropWhile_cons_of_pos hu]
    · rw [List.dropWhile_cons_of_neg hu, List.dropWhile_cons_of_neg hu]
      exact .same u more
  | lone hu more ih =>
    rw [List.dropWhile_cons_of_neg (by decide), List.dropWhile_cons_of_neg (by rw [not_isSpace_of_surrogate hu]; decide)]
    exact .lone hu more

theorem Similar.skip (h : Similar Blank s t) {c : Char} (hc : Token (unit c)) :
    Json.skip c s = none ∧ Json.skip c t = none ∨
      ∃ r r', Json.skip c s = some r ∧ Json.skip c t = some r' ∧ Similar Blank r r' := by
  cases h with
  | stop he =>
    refine .inl ⟨skip_ne ?_, rfl⟩
    rintro r rfl
    have := he _ List.mem_cons_self
    rw [hc.space] at this
    cases this
  | same u more =>
    by_cases hu : u = unit c
    · subst hu
      exact .inr ⟨_, _, skip_cons, skip_cons, more⟩
    · exact .inl ⟨if_neg hu, if_neg hu⟩
  | lone hu more => exact .inl ⟨if_neg hc.ne_replacement.symm, if_neg (hc.ne_surrogate hu).symm⟩

theorem Similar.skip_some (h : Similar Blank s t) {c : Char} (hc : Token (unit c)) (hs : Json.skip c s = some r) :
    ∃ r', Json.skip c t = some r' ∧ Similar Blank r r' := by
  rcases h.skip hc with ⟨hnone, -⟩ | ⟨r₁, r', hsome, ht, hmore⟩
  · cases hnone.symm.trans hs
  · obtain rfl := Option.some.inj (hsome.symm.trans hs)
    exact ⟨r', ht, hmore⟩

theorem Similar.skip_none (h : Similar Blank s t) {c : Char} (hc : Token (unit c)) (hs : Json.skip c s = none) :
    Json.skip c t = none := by
  rcases h.skip hc with ⟨-, hnone⟩ | ⟨r₁, r', hsome, -⟩
  · exact hnone
  · cases hsome.symm.trans hs

theorem Similar.append (hw : ∀ u ∈ w, Token u) (h : Similar Blank (w ++ r) t) : ∃ r', t = w ++ r' ∧ Similar Blank r r' := by
  induction w generalizing t with
  | nil => exact ⟨t, rfl, h⟩
  | cons u w ih =>
    obtain ⟨hu, hw⟩ := List.forall_mem_cons.mp hw
    obtain ⟨t', rfl, hmore⟩ := h.head hu
    obtain ⟨r', rfl, hr⟩ := ih hw hmore
    exact ⟨r', rfl, hr⟩

theorem Similar.blank (h : Similar Blank s t) (hs : s.all isSpace = true) : t.all isSpace = true := by
  induction h with
  | stop he => rfl
  | same u more ih =>
    rw [List.all_cons, Bool.and_eq_true] at hs ⊢
    exact ⟨hs.1, ih hs.2⟩
  | lone hu more ih =>
    rw [List.all_cons] at hs
    exact absurd (Bool.and_eq_true_iff.mp hs).1 (by decide)

/-! ## Strings -/

theorem token_of_hexValue {n : Nat} (h : hexValue u = some n) : Token u := by
  have hrange : 48 ≤ u.toNat ∧ u.toNat ≤ 102 := by
    unfold hexValue at h
    simp only [inRange, Bool.and_eq_true, decide_eq_true_eq, UInt16.le_iff_toNat_le] at h
    have h₁ : (unit '0').toNat = 48 := rfl
    have h₂ : (unit '9').toNat = 57 := rfl
    have h₃ : (unit 'a').toNat = 97 := rfl
    have h₄ : (unit 'f').toNat = 102 := rfl
    have h₅ : (unit 'A').toNat = 65 := rfl
    have h₆ : (unit 'F').toNat = 70 := rfl
    split_ifs at h <;> omega
  refine ⟨UInt16.lt_iff_toNat_lt.mpr (by have h80 : (0x80 : UInt16).toNat = 128 := rfl; omega), ?_⟩
  by_contra hspace
  have := isSpace_range ((Bool.not_eq_false _).mp hspace)
  omega

theorem token_of_hexUnit {a b c d w : UInt16} (h : hexUnit a b c d = some w) :
    Token a ∧ Token b ∧ Token c ∧ Token d := by
  unfold hexUnit at h
  obtain ⟨i, hi, h⟩ := Option.bind_eq_some_iff.mp h
  obtain ⟨j, hj, h⟩ := Option.bind_eq_some_iff.mp h
  obtain ⟨k, hk, h⟩ := Option.bind_eq_some_iff.mp h
  obtain ⟨l, hl, -⟩ := Option.bind_eq_some_iff.mp h
  exact ⟨token_of_hexValue hi, token_of_hexValue hj, token_of_hexValue hk, token_of_hexValue hl⟩

theorem token_of_shortEscape {e w : UInt16} (h : shortEscape e = some w) : Token e := by
  unfold shortEscape at h
  split_ifs at h with h₁ h₂ h₃ h₄ h₅ h₆
  · simp only [Bool.or_eq_true, decide_eq_true_eq] at h₁
    rcases h₁ with (rfl | rfl) | rfl <;> exact ⟨by decide, by decide⟩
  all_goals
    subst e
    exact ⟨by decide, by decide⟩

theorem readString_blank (h : Blank s) : readString s = none := by
  induction s with
  | nil => rfl
  | cons u s ih =>
    obtain ⟨hu, hs⟩ := List.forall_mem_cons.mp h
    cases hread : readString (u :: s) with
    | none => rfl
    | some p =>
      obtain ⟨x, r⟩ := p
      cases readString_eq_some.mp hread with
      | close r => exact absurd hu (by decide)
      | code hw more => exact absurd hu (by decide)
      | escape he hw more => exact absurd hu (by decide)
      | self hquote hcontrol hslash more => cases (ih hs).symm.trans more.eq_some

theorem readString_replacement (h : readString (0xfffd :: s) = some (x, r)) :
    ∃ y, x = 0xfffd :: y ∧ readString s = some (y, r) := by
  rw [readString_self (by decide) (by decide) (by decide)] at h
  obtain ⟨⟨y, r'⟩, hy, hp⟩ := Option.map_eq_some_iff.mp h
  obtain ⟨rfl, rfl⟩ := Prod.mk.inj hp
  exact ⟨y, rfl, hy⟩

/-- **A string** is read up to its surrogates. -/
theorem Similar.readString (h : Similar Blank s t) (hs : Json.readString s = some (x, r)) :
    ∃ y r', Json.readString t = some (y, r') ∧ Similar Nothing x y ∧ Similar Blank r r' := by
  induction hn : s.length using Nat.strongRecOn generalizing s t x r with
  | _ n ih =>
    subst hn
    cases h with
    | stop he => cases (readString_blank he).symm.trans hs
    | @lone u s t hu more =>
      obtain ⟨x₁, rfl, hs₁⟩ := readString_replacement hs
      obtain ⟨x₂, rfl, hs₂⟩ := readString_replacement hs₁
      obtain ⟨x₃, rfl, hs₃⟩ := readString_replacement hs₂
      obtain ⟨y, r', hy, hx, hr⟩ := ih _ (by simp only [List.length_cons]; omega) more hs₃ rfl
      have hrange := isSurrogate_range hu
      have hcontrol : ¬ u < 0x20 := by
        rw [UInt16.lt_iff_toNat_lt]
        have h20 : (0x20 : UInt16).toNat = 32 := rfl
        omega
      have hquote : Token (unit '"') := ⟨by decide, by decide⟩
      have hslash : Token (unit '\\') := ⟨by decide, by decide⟩
      refine ⟨u :: y, r', ?_, .lone hu hx, hr⟩
      rw [readString_self (hquote.ne_surrogate hu).symm hcontrol (hslash.ne_surrogate hu).symm, hy]
      rfl
    | @same u s t more =>
      generalize hus : u :: s = s' at hs ih
      cases readString_eq_some.mp hs with
      | close =>
        obtain ⟨rfl, rfl⟩ := List.cons.inj hus
        exact ⟨[], t, readString_close t, .stop rfl, more⟩
      | @code a b c d w s₂ x r hw hmore =>
        obtain ⟨rfl, rfl⟩ := List.cons.inj hus
        obtain ⟨ha, hb, hc, hd⟩ := token_of_hexUnit hw
        have hu : Token (unit 'u') := ⟨by decide, by decide⟩
        obtain ⟨t', rfl, hrest⟩ := @Similar.append _ s₂ [unit 'u', a, b, c, d] (by simp [hu, ha, hb, hc, hd]) more
        obtain ⟨y, r', hy, hx, hr⟩ := ih _ (by simp only [List.length_cons]; omega) hrest hmore.eq_some rfl
        exact ⟨w :: y, r', (ReadsString.code hw (readsString_of_eq_some hy)).eq_some, .same w hx, hr⟩
      | @escape e w s₂ x r he hw hmore =>
        obtain ⟨rfl, rfl⟩ := List.cons.inj hus
        obtain ⟨t', rfl, hrest⟩ := more.head (token_of_shortEscape hw)
        obtain ⟨y, r', hy, hx, hr⟩ := ih _ (by simp only [List.length_cons]; omega) hrest hmore.eq_some rfl
        exact ⟨w :: y, r', (ReadsString.escape he hw (readsString_of_eq_some hy)).eq_some, .same w hx, hr⟩
      | @self v s₂ x r hquote hcontrol hslash hmore =>
        obtain ⟨rfl, rfl⟩ := List.cons.inj hus
        obtain ⟨y, r', hy, hx, hr⟩ := ih _ (by simp only [List.length_cons]; omega) more hmore.eq_some rfl
        exact ⟨u :: y, r', (ReadsString.self hquote hcontrol hslash (readsString_of_eq_some hy)).eq_some, .same u hx, hr⟩

/-! ## Numbers -/

/-- Texts are split alike at the first unit that is a space, a surrogate or U+FFFD. -/
theorem Similar.span {p : UInt16 → Bool} (hspace : ∀ u, isSpace u = true → p u = false)
    (hlone : ∀ u, isSurrogate u = true → p u = false) (hfffd : p 0xfffd = false) (h : Similar Blank s t) :
    s.takeWhile p = t.takeWhile p ∧ Similar Blank (s.dropWhile p) (t.dropWhile p) := by
  induction h with
  | @stop e he =>
    cases e with
    | nil => exact ⟨rfl, .stop he⟩
    | cons u e =>
      have hu : ¬ p u = true := by
        rw [hspace u (he u List.mem_cons_self)]
        decide
      rw [List.takeWhile_cons_of_neg hu, List.dropWhile_cons_of_neg hu]
      exact ⟨rfl, .stop he⟩
  | same u more ih =>
    by_cases hu : p u = true
    · rw [List.takeWhile_cons_of_pos hu, List.takeWhile_cons_of_pos hu, List.dropWhile_cons_of_pos hu,
        List.dropWhile_cons_of_pos hu, ih.1]
      exact ⟨rfl, ih.2⟩
    · rw [List.takeWhile_cons_of_neg hu, List.takeWhile_cons_of_neg hu, List.dropWhile_cons_of_neg hu,
        List.dropWhile_cons_of_neg hu]
      exact ⟨rfl, .same u more⟩
  | @lone u s t hu more ih =>
    have hs : ¬ p 0xfffd = true := by
      rw [hfffd]
      decide
    have ht : ¬ p u = true := by
      rw [hlone u hu]
      decide
    rw [List.takeWhile_cons_of_neg hs, List.takeWhile_cons_of_neg ht, List.dropWhile_cons_of_neg hs,
      List.dropWhile_cons_of_neg ht]
    exact ⟨rfl, .lone hu more⟩

theorem Similar.spanDigits (h : Similar Blank s t) :
    (Js.spanDigits s).1 = (Js.spanDigits t).1 ∧ Similar Blank (Js.spanDigits s).2 (Js.spanDigits t).2 := by
  simp only [Js.spanDigits, List.span_eq_takeWhile_dropWhile]
  refine h.span (fun u hu => ?_) (fun u hu => ?_) (by decide)
  · rw [digit?_of_space hu]
    rfl
  · rw [digit?_of_surrogate hu]
    rfl

theorem Similar.readSign (h : Similar Blank s t) :
    (Json.readSign s).1 = (Json.readSign t).1 ∧ Similar Blank (Json.readSign s).2 (Json.readSign t).2 := by
  unfold Json.readSign
  rcases @Similar.skip _ _ h '-' ⟨by decide, by decide⟩ with ⟨hs, ht⟩ | ⟨r, r', hs, ht, hmore⟩
  · rw [hs, ht]
    exact ⟨rfl, h⟩
  · rw [hs, ht]
    exact ⟨rfl, hmore⟩

theorem Similar.readFraction (h : Similar Blank s t) {fraction : JsString} (hs : Json.readFraction s = some (fraction, r)) :
    ∃ r', Json.readFraction t = some (fraction, r') ∧ Similar Blank r r' := by
  unfold Json.readFraction at hs ⊢
  rcases @Similar.skip _ _ h '.' ⟨by decide, by decide⟩ with ⟨hdot, hdot'⟩ | ⟨q, q', hdot, hdot', hmore⟩
  · rw [hdot] at hs
    obtain ⟨rfl, rfl⟩ := Prod.mk.inj (Option.some.inj hs)
    rw [hdot']
    exact ⟨t, rfl, h⟩
  · rw [hdot] at hs
    dsimp only at hs
    rw [hdot']
    dsimp only
    obtain ⟨hdigits, hrest⟩ := hmore.spanDigits
    split_ifs at hs with hnil
    rw [if_neg (hdigits ▸ hnil)]
    obtain ⟨hfraction, rfl⟩ := Prod.mk.inj (Option.some.inj hs)
    exact ⟨_, congrArg some (Prod.ext (hdigits.symm.trans hfraction) rfl), hrest⟩

theorem Similar.readExponent (h : Similar Blank s t) {e : Int} (hs : Json.readExponent s = some (e, r)) :
    ∃ r', Json.readExponent t = some (e, r') ∧ Similar Blank r r' := by
  have hmark : (Json.skip 'e' s <|> Json.skip 'E' s) = none ∧ (Json.skip 'e' t <|> Json.skip 'E' t) = none ∨
      ∃ q q', (Json.skip 'e' s <|> Json.skip 'E' s) = some q ∧ (Json.skip 'e' t <|> Json.skip 'E' t) = some q' ∧
        Similar Blank q q' := by
    rcases @Similar.skip _ _ h 'e' ⟨by decide, by decide⟩ with ⟨hlow, hlow'⟩ | ⟨q, q', hlow, hlow', hmore⟩
    · rw [hlow, hlow']
      exact @Similar.skip _ _ h 'E' ⟨by decide, by decide⟩
    · rw [hlow, hlow']
      exact .inr ⟨q, q', rfl, rfl, hmore⟩
  unfold Json.readExponent at hs ⊢
  rcases hmark with ⟨he, he'⟩ | ⟨q, q', he, he', hmore⟩
  · rw [he] at hs
    obtain ⟨rfl, rfl⟩ := Prod.mk.inj (Option.some.inj hs)
    rw [he']
    exact ⟨t, rfl, h⟩
  · rw [he] at hs
    rw [he']
    dsimp only at hs ⊢
    -- behind the sign, the digits
    have key : ∀ {negative : Bool} {d d' : JsString}, Similar Blank d d' →
        (if (Js.spanDigits d).1 = [] then none
          else some (if negative then -(ofDigits (Js.spanDigits d).1 : Int) else ofDigits (Js.spanDigits d).1,
            (Js.spanDigits d).2)) = some (e, r) →
        ∃ r', (if (Js.spanDigits d').1 = [] then none
          else some (if negative then -(ofDigits (Js.spanDigits d').1 : Int) else ofDigits (Js.spanDigits d').1,
            (Js.spanDigits d').2)) = some (e, r') ∧ Similar Blank r r' := by
      intro negative d d' hd hread
      obtain ⟨hdigits, hrest⟩ := hd.spanDigits
      rw [← hdigits]
      split_ifs at hread ⊢ with hnil hneg
      · obtain ⟨rfl, rfl⟩ := Prod.mk.inj (Option.some.inj hread)
        exact ⟨_, rfl, hrest⟩
      · obtain ⟨rfl, rfl⟩ := Prod.mk.inj (Option.some.inj hread)
        exact ⟨_, rfl, hrest⟩
    rcases @Similar.skip _ _ hmore '+' ⟨by decide, by decide⟩ with ⟨hplus, hplus'⟩ | ⟨p, p', hplus, hplus', hp⟩
    · rw [hplus] at hs
      rw [hplus']
      obtain ⟨hsign, hrest⟩ := hmore.readSign
      dsimp only at hs ⊢
      rw [← hsign]
      exact key hrest hs
    · rw [hplus] at hs
      rw [hplus']
      exact key hp hs

/-- **A number** is the same. -/
theorem Similar.readNumber (h : Similar Blank s t) {v : Json} (hs : Json.readNumber s = some (v, r)) :
    ∃ r', Json.readNumber t = some (v, r') ∧ Similar Blank r r' := by
  obtain ⟨hsign, hbody⟩ := h.readSign
  obtain ⟨hwhole, hrest⟩ := hbody.spanDigits
  rw [Json.readNumber] at hs ⊢
  dsimp only at hs ⊢
  rw [← hsign, ← hwhole]
  by_cases hlead : ((Js.spanDigits (Json.readSign s).2).1 = [] ||
      (Js.spanDigits (Json.readSign s).2).1.head? = some (unit '0') &&
        (Js.spanDigits (Json.readSign s).2).1 ≠ [unit '0']) = true
  · rw [if_pos hlead] at hs
    cases hs
  · rw [if_neg hlead] at hs ⊢
    obtain ⟨⟨fraction, q⟩, hfraction, hs⟩ := Option.bind_eq_some_iff.mp hs
    obtain ⟨⟨e, r₁⟩, hexponent, hs⟩ := Option.bind_eq_some_iff.mp hs
    obtain ⟨q', hfraction', hq⟩ := hrest.readFraction hfraction
    obtain ⟨r', hexponent', hr⟩ := hq.readExponent hexponent
    obtain ⟨rfl, rfl⟩ := Prod.mk.inj (Option.some.inj hs)
    rw [hfraction']
    dsimp only [bind, Option.bind]
    rw [hexponent']
    exact ⟨r', rfl, hr⟩

end Js
