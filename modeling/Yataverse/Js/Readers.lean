import Yataverse.Js.Similar

/-!
# What two readers read

- `Akin`: values that were read from similar texts, up to how numbers are held.
- **`Reader.parse_similar`**: what one reader reads, another one reads from a similar text if it takes the numbers.
- `parse_similar`: `JSON.parse` does not look at white space at the end.
- **`loads_similar`**: `json.loads` reads what `JSON.parse` reads.
-/

namespace Js

open Json

variable {ends : JsString → Prop} {s t r r' w x y k k' q : JsString} {u : UInt16}

/-! ## Keys -/

theorem Similar.eq_of_ascii (h : Similar Nothing x y) (hx : Ascii x ∨ Ascii y) : x = y := by
  induction h with
  | stop he => exact he
  | same u more ih =>
    refine congrArg (u :: ·) (ih ?_)
    exact hx.imp (fun h v hv => h v (List.mem_cons_of_mem _ hv)) (fun h v hv => h v (List.mem_cons_of_mem _ hv))
  | @lone u s t hu more ih =>
    rcases hx with hx | hx
    · exact absurd (hx 0xfffd List.mem_cons_self) (by decide)
    · have hlt : u.toNat < 0x80 := UInt16.lt_iff_toNat_lt.mp (hx u List.mem_cons_self)
      have := isSurrogate_range hu
      omega

theorem Similar.eq_iff (h : Similar Nothing k k') (hq : Ascii q) : q = k ↔ q = k' := by
  constructor
  · rintro rfl
    exact h.eq_of_ascii (.inl hq)
  · rintro rfl
    exact (h.eq_of_ascii (.inr hq)).symm

namespace Json

variable {v : Json} {kvs : List (JsString × Json)}

theorem mem_keys_insertNew : q ∈ (insertNew k v kvs).map Prod.fst ↔ q = k ∨ q ∈ kvs.map Prod.fst := by
  induction kvs with
  | nil => simp [insertNew]
  | cons e kvs ih =>
    simp only [insertNew]
    split
    · simp
    · split
      · rename_i hk
        simp [hk]
      · simp only [List.map_cons, List.mem_cons, ih]
        exact or_left_comm

theorem lookup_of_not_mem (h : q ∉ kvs.map Prod.fst) : lookup q kvs = .null := by
  induction kvs with
  | nil => rfl
  | cons e kvs ih =>
    rw [List.map_cons, List.mem_cons, not_or] at h
    rw [lookup, if_neg h.1, ih h.2]

/-- The entry that was there stays. -/
theorem lookup_insertNew (h : KeysSorted kvs) :
    lookup q (insertNew k v kvs) = if q = k ∧ q ∉ kvs.map Prod.fst then v else lookup q kvs := by
  induction kvs with
  | nil => simp [insertNew, lookup]
  | cons e kvs ih =>
    obtain ⟨hlt, hs⟩ := keysSorted_cons.mp h
    simp only [insertNew]
    split
    · rename_i hk
      rw [lookup]
      by_cases hq : q = k
      · subst hq
        have hnot : q ∉ (e :: kvs).map Prod.fst := by
          intro hmem
          obtain ⟨e', he', rfl⟩ := List.mem_map.mp hmem
          rcases List.mem_cons.mp he' with rfl | he'
          · exact List.lt_irrefl _ hk
          · exact List.lt_irrefl _ (List.lt_trans hk (hlt e' he'))
        rw [if_pos rfl, if_pos ⟨rfl, hnot⟩]
      · rw [if_neg hq, if_neg fun h => hq h.1]
    · split
      · rename_i hk
        rw [if_neg]
        rintro ⟨rfl, hnot⟩
        exact hnot (by simp [hk])
      · rename_i hne
        rw [lookup, lookup, ih hs]
        by_cases hq : q = e.1
        · rw [if_pos hq, if_pos hq, if_neg]
          rintro ⟨-, hnot⟩
          exact hnot (by simp [hq])
        · rw [if_neg hq, if_neg hq]
          refine if_congr (and_congr_right fun _ => ?_) rfl rfl
          simp [hq]

end Json

/-! ## Values -/

section

variable (R : Number → Number → Prop)

/-- Values that were read from similar texts: an object has the same ASCII keys, with such values. -/
inductive Akin : Json → Json → Prop
  | null : Akin .null .null
  | bool (b : Bool) : Akin (.bool b) (.bool b)
  | num {x y : Number} (h : R x y) : Akin (.num x) (.num y)
  | str {x y : JsString} (h : Similar Nothing x y) : Akin (.str x) (.str y)
  | arr {xs ys : List Json} (h : List.Forall₂ Akin xs ys) : Akin (.arr xs) (.arr ys)
  | obj {kvs kvs' : List (JsString × Json)}
      (hkeys : ∀ k, Ascii k → (k ∈ kvs.map Prod.fst ↔ k ∈ kvs'.map Prod.fst))
      (h : ∀ k, Ascii k → Akin (lookup k kvs) (lookup k kvs')) : Akin (.obj kvs) (.obj kvs')

/-- Entries that were read from similar texts. -/
structure AkinEntries (kvs kvs' : List (JsString × Json)) : Prop where
  sorted : KeysSorted kvs
  sorted' : KeysSorted kvs'
  keys : ∀ k, Ascii k → (k ∈ kvs.map Prod.fst ↔ k ∈ kvs'.map Prod.fst)
  lookup : ∀ k, Ascii k → Akin R (lookup k kvs) (lookup k kvs')

end

variable {R : Number → Number → Prop} {v v' : Json} {kvs kvs' : List (JsString × Json)}

theorem AkinEntries.nil : AkinEntries R [] [] :=
  ⟨List.Pairwise.nil, List.Pairwise.nil, fun _ _ => Iff.rfl, fun _ _ => .null⟩

theorem AkinEntries.insertNew (h : AkinEntries R kvs kvs') (hk : Similar Nothing k k') (hv : Akin R v v') :
    AkinEntries R (Json.insertNew k v kvs) (Json.insertNew k' v' kvs') := by
  refine ⟨keysSorted_insertNew h.sorted, keysSorted_insertNew h.sorted', fun q hq => ?_, fun q hq => ?_⟩
  · rw [mem_keys_insertNew, mem_keys_insertNew, hk.eq_iff hq, h.keys q hq]
  · rw [lookup_insertNew h.sorted, lookup_insertNew h.sorted']
    by_cases hnew : q = k ∧ q ∉ kvs.map Prod.fst
    · rw [if_pos hnew, if_pos ⟨(hk.eq_iff hq).mp hnew.1, fun hmem => hnew.2 ((h.keys q hq).mpr hmem)⟩]
      exact hv
    · rw [if_neg hnew, if_neg fun h' => hnew ⟨(hk.eq_iff hq).mpr h'.1, fun hmem => h'.2 ((h.keys q hq).mp hmem)⟩]
      exact h.lookup q hq

theorem AkinEntries.obj (h : AkinEntries R kvs kvs') : Akin R (.obj kvs) (.obj kvs') := .obj h.keys h.lookup

theorem Akin.get (h : Akin R v v') (hk : Ascii k) : Akin R (v.get k) (v'.get k) := by
  cases h with
  | obj hkeys h => exact h k hk
  | null | bool b | num h | str h | arr h => exact .null

/-! ## Readers -/

/-- What the first function reads, the second one reads from a similar text. -/
def Follows {α : Type} (same : α → α → Prop) (read read' : JsString → Option (α × JsString)) : Prop :=
  ∀ s t, Similar Blank s t → ∀ v r, read s = some (v, r) →
    ∃ w r', read' t = some (w, r') ∧ same v w ∧ Similar Blank r r'

theorem Follows.of_none {α : Type} {same : α → α → Prop} {read read' : JsString → Option (α × JsString)}
    (h : ∀ s, read s = none) : Follows same read read' := by
  intro s t hst v r hread
  rw [h] at hread
  cases hread

theorem token_of_mem_marks (h : u ∈ marks) : Token u := by
  simp only [marks, List.mem_cons, List.not_mem_nil, or_false] at h
  rcases h with rfl | rfl | rfl | rfl | rfl | rfl <;> exact ⟨by decide, by decide⟩

theorem token_of_mem_words {w : JsString} (h : (w, v) ∈ words) : (∀ u ∈ w, Token u) ∧ Akin R v v := by
  have hall : ∀ w : JsString, w.all (fun u => decide (u < 0x80) && !isSpace u) = true → ∀ u ∈ w, Token u := by
    intro w hw u hu
    have := List.all_eq_true.mp hw u hu
    simp only [Bool.and_eq_true, decide_eq_true_eq, Bool.not_eq_true'] at this
    exact ⟨this.1, this.2⟩
  simp only [words, List.mem_cons, List.not_mem_nil, or_false, Prod.mk.injEq] at h
  rcases h with ⟨rfl, rfl⟩ | ⟨rfl, rfl⟩ | ⟨rfl, rfl⟩
  · exact ⟨hall _ (by decide), .null⟩
  · exact ⟨hall _ (by decide), .bool true⟩
  · exact ⟨hall _ (by decide), .bool false⟩

section

variable {num num' value value' : JsString → Option (Json × JsString)}
  {elements elements' : JsString → Option (List Json × JsString)}
  {members members' : JsString → Option (List (JsString × Json) × JsString)}

theorem Similar.valueStep (hnum : Follows (Akin R) num num') (helements : Follows (List.Forall₂ (Akin R)) elements elements')
    (hmembers : Follows (AkinEntries R) members members') :
    Follows (Akin R) (Js.valueStep num elements members) (Js.valueStep num' elements' members') := by
  intro s t hst v r h
  have hspace := hst.dropWhile
  simp only [valueStep_eq_some] at h ⊢
  cases h with
  | str hs hx =>
    rw [hs] at hspace
    obtain ⟨t', ht, hmore⟩ := hspace.head ⟨by decide, by decide⟩
    obtain ⟨y, r', hy, hxy, hr⟩ := hmore.readString hx
    exact ⟨_, r', .str ht hy, .str hxy, hr⟩
  | emptyArr hs hend =>
    rw [hs] at hspace
    obtain ⟨t', ht, hmore⟩ := hspace.head ⟨by decide, by decide⟩
    obtain ⟨r', hend', hr⟩ := hmore.dropWhile.skip_some ⟨by decide, by decide⟩ hend
    exact ⟨_, r', .emptyArr ht hend', .arr .nil, hr⟩
  | arr hs hmore hxs =>
    rw [hs] at hspace
    obtain ⟨t', ht, hrest⟩ := hspace.head ⟨by decide, by decide⟩
    obtain ⟨ys, r', hys, hxy, hr⟩ := helements _ _ hrest _ _ hxs
    exact ⟨_, r', .arr ht (hrest.dropWhile.skip_none ⟨by decide, by decide⟩ hmore) hys, .arr hxy, hr⟩
  | emptyObj hs hend =>
    rw [hs] at hspace
    obtain ⟨t', ht, hmore⟩ := hspace.head ⟨by decide, by decide⟩
    obtain ⟨r', hend', hr⟩ := hmore.dropWhile.skip_some ⟨by decide, by decide⟩ hend
    exact ⟨_, r', .emptyObj ht hend', AkinEntries.nil.obj, hr⟩
  | obj hs hmore hkvs =>
    rw [hs] at hspace
    obtain ⟨t', ht, hrest⟩ := hspace.head ⟨by decide, by decide⟩
    obtain ⟨kvs', r', hkvs', hentries, hr⟩ := hmembers _ _ hrest _ _ hkvs
    exact ⟨_, r', .obj ht (hrest.dropWhile.skip_none ⟨by decide, by decide⟩ hmore) hkvs', hentries.obj, hr⟩
  | word hw hs =>
    rw [hs] at hspace
    obtain ⟨htokens, hakin⟩ := @token_of_mem_words R _ _ hw
    obtain ⟨r', ht, hr⟩ := hspace.append htokens
    exact ⟨v, r', .word hw ht, hakin, hr⟩
  | num hs hu hx =>
    rename_i q u
    have hfirst := List.head?_dropWhile_not isSpace s
    rw [hs] at hspace hfirst
    obtain ⟨w, r', hw, hvw, hr⟩ := hnum _ _ hspace _ _ hx
    -- the second text starts with the same unit or with a surrogate
    generalize hut : u :: q = s' at hspace
    generalize ht : t.dropWhile isSpace = t' at hspace hw
    cases hspace with
    | stop he =>
      subst hut
      exact absurd (he u List.mem_cons_self) (by rw [show isSpace u = false from hfirst]; decide)
    | same u' more =>
      obtain ⟨rfl, rfl⟩ := List.cons.inj hut
      exact ⟨w, r', .num ht hu hw, hvw, hr⟩
    | lone hu' more =>
      exact ⟨w, r', .num ht (fun hmem => (token_of_mem_marks hmem).ne_surrogate hu' rfl) hw, hvw, hr⟩

theorem Similar.elementsStep (hvalue : Follows (Akin R) value value')
    (helements : Follows (List.Forall₂ (Akin R)) elements elements') :
    Follows (List.Forall₂ (Akin R)) (Js.elementsStep value elements) (Js.elementsStep value' elements') := by
  intro s t hst xs r h
  simp only [elementsStep_eq_some] at h ⊢
  cases h with
  | next hv hsep hxs =>
    obtain ⟨w, s₁, hw, hvw, hs₁⟩ := hvalue _ _ hst _ _ hv
    obtain ⟨t₁, hsep', ht₁⟩ := hs₁.dropWhile.skip_some ⟨by decide, by decide⟩ hsep
    obtain ⟨ys, r', hys, hxy, hr⟩ := helements _ _ ht₁ _ _ hxs
    exact ⟨_, r', .next hw hsep' hys, .cons hvw hxy, hr⟩
  | last hv hsep hend =>
    obtain ⟨w, s₁, hw, hvw, hs₁⟩ := hvalue _ _ hst _ _ hv
    obtain ⟨r', hend', hr⟩ := hs₁.dropWhile.skip_some ⟨by decide, by decide⟩ hend
    exact ⟨_, r', .last hw (hs₁.dropWhile.skip_none ⟨by decide, by decide⟩ hsep) hend', .cons hvw .nil, hr⟩

theorem Similar.readsKey (hst : Similar Blank s t) (h : ReadsKey s k r) :
    ∃ k' r', ReadsKey t k' r' ∧ Similar Nothing k k' ∧ Similar Blank r r' := by
  obtain ⟨q, a, hq, hk, hcolon⟩ := h
  obtain ⟨q', hq', hqq⟩ := hst.dropWhile.skip_some ⟨by decide, by decide⟩ hq
  obtain ⟨k', a', hk', hkk, haa⟩ := hqq.readString hk
  obtain ⟨r', hcolon', hr⟩ := haa.dropWhile.skip_some ⟨by decide, by decide⟩ hcolon
  exact ⟨k', r', ⟨q', a', hq', hk', hcolon'⟩, hkk, hr⟩

theorem Similar.membersStep (hvalue : Follows (Akin R) value value')
    (hmembers : Follows (AkinEntries R) members members') :
    Follows (AkinEntries R) (Js.membersStep value members) (Js.membersStep value' members') := by
  intro s t hst kvs r h
  simp only [membersStep_eq_some] at h ⊢
  cases h with
  | next hk hv hsep hkvs =>
    obtain ⟨k', s₀, hk', hkk, hs₀⟩ := hst.readsKey hk
    obtain ⟨w, s₁, hw, hvw, hs₁⟩ := hvalue _ _ hs₀ _ _ hv
    obtain ⟨t₁, hsep', ht₁⟩ := hs₁.dropWhile.skip_some ⟨by decide, by decide⟩ hsep
    obtain ⟨kvs', r', hkvs', hentries, hr⟩ := hmembers _ _ ht₁ _ _ hkvs
    exact ⟨_, r', .next hk' hw hsep' hkvs', hentries.insertNew hkk hvw, hr⟩
  | last hk hv hsep hend =>
    obtain ⟨k', s₀, hk', hkk, hs₀⟩ := hst.readsKey hk
    obtain ⟨w, s₁, hw, hvw, hs₁⟩ := hvalue _ _ hs₀ _ _ hv
    obtain ⟨r', hend', hr⟩ := hs₁.dropWhile.skip_some ⟨by decide, by decide⟩ hend
    refine ⟨_, r', .last hk' hw (hs₁.dropWhile.skip_none ⟨by decide, by decide⟩ hsep) hend', ?_, hr⟩
    exact @AkinEntries.insertNew _ _ _ _ _ _ _ AkinEntries.nil hkk hvw

end

section

variable {A B : Reader}

theorem Reader.follows (hnum : Follows (Akin R) A.num B.num) (fuel : Nat) :
    Follows (Akin R) (A.value fuel) (B.value fuel) ∧ Follows (List.Forall₂ (Akin R)) (A.elements fuel) (B.elements fuel) ∧
      Follows (AkinEntries R) (A.members fuel) (B.members fuel) := by
  induction fuel with
  | zero => exact ⟨.of_none A.value_zero, .of_none A.elements_zero, .of_none A.members_zero⟩
  | succ fuel ih =>
    obtain ⟨hvalue, helements, hmembers⟩ := ih
    refine ⟨?_, ?_, ?_⟩
    · rw [funext (A.value_succ fuel), funext (B.value_succ fuel)]
      exact Similar.valueStep hnum helements hmembers
    · rw [funext (A.elements_succ fuel), funext (B.elements_succ fuel)]
      exact Similar.elementsStep hvalue helements
    · rw [funext (A.members_succ fuel), funext (B.members_succ fuel)]
      exact Similar.membersStep hvalue hmembers

/-- **What one reader reads, another one reads from a similar text**, if it takes the numbers. -/
theorem Reader.parse_similar (hnum : Follows (Akin R) A.num B.num)
    (hless : ∀ s v r, B.num s = some (v, r) → r.length < s.length) (hst : Similar Blank s t) (h : A.parse s = some v) :
    ∃ w, B.parse t = some w ∧ Akin R v w := by
  rw [Reader.parse] at h
  split at h
  · rename_i v₁ r hread
    split_ifs at h with hspace
    obtain rfl := Option.some.inj h
    obtain ⟨w, r', hw, hvw, hr⟩ := (Reader.follows hnum _).1 s t hst _ _ hread
    exact ⟨w, B.enough hless hw (hr.blank hspace), hvw⟩
  · cases h

end

/-! ## `JSON.parse` and `json.loads` -/

section

variable {fraction whole : JsString} {e : Int}

theorem readFraction_nil (h : readFraction s = some (fraction, t)) (hlen : t.length = s.length) : fraction = [] := by
  unfold readFraction at h
  cases hdot : skip '.' s with
  | none =>
    rw [hdot] at h
    exact (congrArg Prod.fst (Option.some.inj h)).symm
  | some r =>
    rw [hdot] at h
    dsimp only at h
    split_ifs at h
    obtain rfl := congrArg Prod.snd (Option.some.inj h)
    have := (Loads.spanDigits_suffix r).length_le
    have := length_skip hdot
    omega

theorem readExponent_zero (h : readExponent s = some (e, t)) (hlen : t.length = s.length) : e = 0 := by
  unfold readExponent at h
  cases he : (skip 'e' s <|> skip 'E' s) with
  | none =>
    rw [he] at h
    exact (congrArg Prod.fst (Option.some.inj h)).symm
  | some r =>
    have hr : r.length < s.length := by
      cases hlow : skip 'e' s with
      | some r' =>
        rw [hlow] at he
        obtain rfl := Option.some.inj he
        exact (length_skip hlow).symm ▸ Nat.lt_succ_self _
      | none =>
        rw [hlow] at he
        exact (length_skip he).symm ▸ Nat.lt_succ_self _
    rw [he] at h
    dsimp only at h
    have hsign : t.length ≤ r.length := by
      cases hplus : skip '+' r with
      | some r' =>
        rw [hplus] at h
        dsimp only at h
        have := length_skip hplus
        have := (Loads.spanDigits_suffix r').length_le
        split_ifs at h <;> (obtain rfl := congrArg Prod.snd (Option.some.inj h); dsimp only; omega)
      | none =>
        rw [hplus] at h
        dsimp only at h
        have := (Loads.readSign_suffix r).length_le
        have := (Loads.spanDigits_suffix (readSign r).2).length_le
        split_ifs at h <;> (obtain rfl := congrArg Prod.snd (Option.some.inj h); dsimp only; omega)
    omega

theorem length_spanDigits (s : JsString) : (spanDigits s).1.length + (spanDigits s).2.length = s.length := by
  rw [← List.length_append, spanDigits, List.span_eq_takeWhile_dropWhile]
  exact congrArg List.length List.takeWhile_append_dropWhile

/-- **A number for both**: an `int` is the integer whose double `JSON.parse` takes. -/
theorem readNumber_both (h : Json.readNumber s = some (v, r)) :
    ∃ x y, v = .num x ∧ Loads.readNumber s = some (.num y, r) ∧ r.length < s.length ∧
      ∀ n : Int, y = .int n → x = Number.ofInt n := by
  have hsign := (Loads.readSign_suffix s).length_le
  rw [Json.readNumber] at h
  rw [Loads.readNumber]
  dsimp only at h ⊢
  generalize (readSign s).1 = negative at h ⊢
  generalize (readSign s).2 = body at h hsign ⊢
  have hspan := length_spanDigits body
  generalize (spanDigits body).1 = whole at h hspan ⊢
  generalize (spanDigits body).2 = rest at h hspan ⊢
  by_cases hlead : (whole = [] || whole.head? = some (unit '0') && whole ≠ [unit '0']) = true
  · rw [if_pos hlead] at h
    cases h
  rw [if_neg hlead] at h ⊢
  obtain ⟨⟨fraction, t⟩, hfraction, h⟩ := Option.bind_eq_some_iff.mp h
  obtain ⟨⟨e, r'⟩, hexponent, h⟩ := Option.bind_eq_some_iff.mp h
  obtain ⟨rfl, rfl⟩ := Prod.mk.inj (Option.some.inj h)
  rw [hfraction]
  dsimp only [bind, Option.bind]
  rw [hexponent]
  dsimp only [bind, Option.bind]
  have ht : t.length ≤ rest.length := (Loads.readFraction_suffix hfraction).length_le
  have hr : r'.length ≤ t.length := (Loads.readExponent_suffix hexponent).length_le
  have hpos : 0 < whole.length := by
    simp only [Bool.or_eq_true, decide_eq_true_eq, not_or] at hlead
    exact List.length_pos_of_ne_nil hlead.1
  by_cases hlen : r'.length = rest.length
  · rw [if_pos hlen]
    refine ⟨_, _, rfl, rfl, by omega, fun n hn => ?_⟩
    have hn := Number.int.inj hn
    have ht : t.length = rest.length := by omega
    have hr : r'.length = t.length := by omega
    rw [readFraction_nil hfraction ht, readExponent_zero hexponent hr, List.append_nil, Number.ofInt, ← hn]
    cases negative <;> simp
  · rw [if_neg hlen]
    exact ⟨_, _, rfl, rfl, by omega, fun n hn => by cases hn⟩

end

/-- `JSON.parse` reads a number from a similar text. -/
theorem follows_readNumber : Follows (Akin Eq) jsonReader.num jsonReader.num := by
  intro s t hst v r h
  obtain ⟨r', hread, hr⟩ := hst.readNumber h
  obtain ⟨x, -, rfl, -⟩ := readNumber_both h
  exact ⟨_, r', hread, .num rfl, hr⟩

/-- **What is behind the end** does not matter to `JSON.parse` if it is white space. -/
theorem parse_similar (hst : Similar Blank s t) (h : parse s = some v) : ∃ w, parse t = some w ∧ Akin Eq v w :=
  @Reader.parse_similar _ _ _ _ jsonReader jsonReader follows_readNumber
    (fun _ _ _ h => (readNumber_both h).elim fun _ h => h.elim fun _ h => h.2.2.1) hst h

/-- The double that is nearest to an `int`. -/
def Nearest (x y : Number) : Prop := ∀ n : Int, y = .int n → x = Number.ofInt n

theorem readWord_none {v' : Json} (hw : ∀ t, Json.readNumber (w ++ t) = none) (h : Json.readNumber s = some (v, r)) :
    readWord w v' s = none := by
  cases hread : readWord w v' s with
  | none => rfl
  | some p =>
    obtain ⟨x, q⟩ := p
    obtain ⟨-, rfl⟩ := readWord_eq_some.mp hread
    rw [hw] at h
    cases h

/-- What starts like a number is no word. -/
theorem readFloatWord_of_number (h : Json.readNumber s = some (v, r)) : Loads.readFloatWord s = Loads.readNumber s := by
  have h₁ : ∀ t, Json.readNumber (js "NaN" ++ t) = none := fun _ => rfl
  have h₂ : ∀ t, Json.readNumber (js "Infinity" ++ t) = none := fun _ => rfl
  have h₃ : ∀ t, Json.readNumber (js "-Infinity" ++ t) = none := fun _ => rfl
  rw [Loads.readFloatWord, readWord_none h₁ h, readWord_none h₂ h, readWord_none h₃ h]
  rfl

/-- `json.loads` reads a number from a similar text. -/
theorem follows_readFloatWord : Follows (Akin Nearest) jsonReader.num pythonReader.num := by
  intro s t hst v r h
  obtain ⟨r', hread, hr⟩ := hst.readNumber h
  obtain ⟨x, y, rfl, hloads, -, hnearest⟩ := readNumber_both hread
  exact ⟨_, r', (readFloatWord_of_number hread).trans hloads, .num hnearest, hr⟩

theorem length_readWord {v' : Json} (hw : w ≠ []) (h : readWord w v' s = some (v, r)) : r.length < s.length := by
  obtain ⟨-, rfl⟩ := readWord_eq_some.mp h
  rw [List.length_append]
  have := List.length_pos_of_ne_nil hw
  omega

theorem length_readNumber (h : Loads.readNumber s = some (v, r)) : r.length < s.length := by
  have hsign := (Loads.readSign_suffix s).length_le
  rw [Loads.readNumber] at h
  dsimp only at h
  generalize (readSign s).1 = negative at h
  generalize (readSign s).2 = body at h hsign
  have hspan := length_spanDigits body
  generalize (spanDigits body).1 = whole at h hspan
  generalize (spanDigits body).2 = rest at h hspan
  by_cases hlead : (whole = [] || whole.head? = some (unit '0') && whole ≠ [unit '0']) = true
  · rw [if_pos hlead] at h
    cases h
  rw [if_neg hlead] at h
  obtain ⟨⟨fraction, t⟩, hfraction, h⟩ := Option.bind_eq_some_iff.mp h
  obtain ⟨⟨e, r'⟩, hexponent, h⟩ := Option.bind_eq_some_iff.mp h
  have ht : t.length ≤ rest.length := (Loads.readFraction_suffix hfraction).length_le
  have hr : r'.length ≤ t.length := (Loads.readExponent_suffix hexponent).length_le
  have hrr : r = r' := by
    dsimp only at h
    by_cases hlen : r'.length = rest.length
    · rw [if_pos hlen] at h
      exact (congrArg Prod.snd (Option.some.inj h)).symm
    · rw [if_neg hlen] at h
      exact (congrArg Prod.snd (Option.some.inj h)).symm
  have hpos : 0 < whole.length := by
    simp only [Bool.or_eq_true, decide_eq_true_eq, not_or] at hlead
    exact List.length_pos_of_ne_nil hlead.1
  subst hrr
  omega

theorem length_readFloatWord (h : Loads.readFloatWord s = some (v, r)) : r.length < s.length := by
  simp only [Loads.readFloatWord, Option.orElse_eq_orElse, Option.orElse_eq_or, Option.or_eq_some_iff] at h
  rcases h with h | ⟨-, h | ⟨-, h | ⟨-, h⟩⟩⟩
  · exact length_readWord (by decide) h
  · exact length_readWord (by decide) h
  · exact length_readWord (by decide) h
  · exact length_readNumber h

/-- **`json.loads` reads what `JSON.parse` reads.** -/
theorem loads_similar (hst : Similar Blank s t) (h : parse s = some v) : ∃ w, loads t = some w ∧ Akin Nearest v w :=
  @Reader.parse_similar _ _ _ _ jsonReader pythonReader follows_readFloatWord (fun _ _ _ h => length_readFloatWord h) hst h

end Js
