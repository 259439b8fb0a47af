import Yataverse.Filecoin.Status

/-!
# A status that is read back

The searches pass over every entry but their own and the error's. The error text is searched as if it stood alone.

- `headOf`, `skip_entry`: an entry without a match.
- `first_tail`: the first match behind any entries.
- `captured`, `captured_eq_iff`: what is read of an error text.
- **`parseStatus_printed`**: a status is read back exactly where it is `Legible`.
-/

namespace Filecoin

open Js GraphHead Search

variable {r : Report} {f : JsString → Option JsString} {k K : Key} {ks order : List Key} {rest e piece head : JsString}
  {v : JsString} {u : UInt16}

/-! ## Entries -/

/-- The fixed part of a search. -/
def headOf : Key → JsString
  | .state => js ":state" ++ js " :"
  | .pieceCid => js ":piece-cid" ++ js " \""
  | .attempts => js ":attempts "
  | .error => js ":error" ++ js " \""

theorem head_headOf (K : Key) : (headOf K).head? = some (unit ':') := by cases K <;> decide

theorem skip_headOf (h : unit ':' ∉ piece) : first (headed (headOf K) f) (piece ++ rest) = first (headed (headOf K) f) rest :=
  first_headed_skip (head_headOf K) h

/-- A word behind a colon that is not the one that is searched. -/
theorem skip_word (hpiece : unit ':' ∉ piece)
    (h : ((headOf K).zip (unit ':' :: piece)).any (fun p => decide (p.1 ≠ p.2)) = true) :
    first (headed (headOf K) f) (unit ':' :: piece ++ rest) = first (headed (headOf K) f) rest :=
  first_headed_skip_cons (head_headOf K) hpiece (not_prefix_append h)

theorem colon_notMem_natStr (n : Nat) : unit ':' ∉ natStr n := by
  intro h
  have hdigit : ¬ IsDigit (unit ':') := by
    unfold IsDigit
    decide
  exact hdigit (isDigit_natStr n _ h)

theorem flatMap_escape (h : ∀ u ∈ e, escape u = [u]) : e.flatMap escape = e := by
  rw [List.flatMap_def, List.map_congr_left h]
  exact List.flatMap_singleton' e

theorem colon_notMem_cid (c : Option CidText) : unit ':' ∉ prString (c.elim [] CidText.text) := by
  cases c with
  | none => decide
  | some c =>
    rw [Option.elim_some, prString_eq, flatMap_escape fun u hu => (c.plain u hu).2]
    intro h
    rcases List.mem_append.mp h with h | h
    · rcases List.mem_cons.mp h with h | h
      · revert h
        decide
      · exact (c.plain _ h).1 rfl
    · revert h
      decide

/-- **An entry of another key**, that is not the error, is passed over. -/
theorem skip_entry (hk : k ≠ K) (herror : k ≠ .error) :
    first (headed (headOf K) f) (r.entry k ++ rest) = first (headed (headOf K) f) rest := by
  cases k with
  | state =>
    have hsplit : r.entry .state ++ rest =
        unit ':' :: js "state " ++ (unit ':' :: r.state.name ++ rest) := (List.append_assoc _ _ _).trans rfl
    rw [hsplit]
    have hname : first (headed (headOf K) f) (unit ':' :: r.state.name ++ rest) = first (headed (headOf K) f) rest := by
      cases r.state with
      | queued => exact skip_word (by decide) (by cases K <;> first | exact absurd rfl hk | decide)
      | stored => exact skip_word (by decide) (by cases K <;> first | exact absurd rfl hk | decide)
    rw [skip_word (by decide) (by cases K <;> first | exact absurd rfl hk | decide), hname]
  | pieceCid =>
    have hsplit : r.entry .pieceCid ++ rest =
        unit ':' :: js "piece-cid " ++ (prString (r.pieceCid.elim [] CidText.text) ++ rest) := List.append_assoc _ _ _
    rw [hsplit, skip_word (by decide) (by cases K <;> first | exact absurd rfl hk | decide),
      skip_headOf (colon_notMem_cid _)]
  | attempts =>
    have hsplit : r.entry .attempts ++ rest =
        unit ':' :: js "attempts " ++ (natStr (r.attempts.getD 0) ++ rest) := List.append_assoc _ _ _
    rw [hsplit, skip_word (by decide) (by cases K <;> first | exact absurd rfl hk | decide),
      skip_headOf (colon_notMem_natStr _)]
  | error => exact absurd rfl herror

/-! ## Behind any entries -/

theorem first_end : first (headed (headOf K) f) (js "\x7d") = none := by
  have h := @skip_headOf f K [] (js "\x7d") (by decide)
  rw [List.append_nil] at h
  rw [h, first]
  exact headed_of_not fun hnil => by cases K <;> exact absurd (List.prefix_nil.mp hnil) (by decide)

theorem first_tail_cons : first (headed (headOf K) f) (r.tail (k :: ks)) =
    first (headed (headOf K) f) (r.entry k ++ r.tail ks) := by
  rw [Report.tail, List.append_assoc, skip_headOf (by decide)]

theorem first_printed (order : List Key) :
    first (headed (headOf K) f) (r.printed order) = first (headed (headOf K) f) (r.tail order) := by
  cases order with
  | nil =>
    have h := @skip_headOf f K (js "\x7d") (js "\x7b") (by decide)
    exact h
  | cons k ks => rw [first_tail_cons, Report.printed, List.append_assoc, skip_headOf (by decide)]

theorem exposed_cons (hown : k ≠ K) (herror : k ≠ .error) : Exposed (k :: ks) K ↔ Exposed ks K := by
  have hwhile : (k :: ks).takeWhile (· ≠ K) = k :: ks.takeWhile (· ≠ K) := List.takeWhile_cons_of_pos (by simpa using hown)
  rw [Exposed, hwhile, List.mem_cons, Exposed]
  exact or_iff_right fun h => herror h.symm

theorem not_exposed_own (K : Key) (ks : List Key) : ¬ Exposed (K :: ks) K := by
  rw [Exposed, List.takeWhile_cons_of_neg (by simp)]
  exact List.not_mem_nil

/-- **A search that reaches the error first.** -/
theorem first_tail_exposed (h : Exposed ks K) : ∃ ks', .error :: ks' <:+ ks ∧ (K ∈ ks → K ∈ ks') ∧
    first (headed (headOf K) f) (r.tail ks) = first (headed (headOf K) f) (r.entry .error ++ r.tail ks') := by
  induction ks with
  | nil => cases h
  | cons k ks ih =>
    by_cases hown : k = K
    · exact absurd (hown ▸ h) (not_exposed_own k ks)
    · have hmem : K ∈ k :: ks → K ∈ ks := fun hK => (List.mem_cons.mp hK).resolve_left fun heq => hown heq.symm
      by_cases herror : k = .error
      · subst herror
        exact ⟨ks, List.suffix_refl _, hmem, first_tail_cons⟩
      · obtain ⟨ks', hsuffix, hin, hfirst⟩ := ih ((exposed_cons hown herror).mp h)
        refine ⟨ks', hsuffix.trans (List.suffix_cons _ _), fun hK => hin (hmem hK), ?_⟩
        rw [first_tail_cons, skip_entry hown herror, hfirst]

/-- **A search that does not**: it finds the key's own entry, if there is one. -/
theorem first_tail_direct (h : ¬ Exposed ks K) :
    (K ∈ ks → ∃ ks', first (headed (headOf K) f) (r.tail ks) = first (headed (headOf K) f) (r.entry K ++ r.tail ks')) ∧
      (K ∉ ks → first (headed (headOf K) f) (r.tail ks) = none) := by
  induction ks with
  | nil => exact ⟨fun hK => absurd hK List.not_mem_nil, fun _ => first_end⟩
  | cons k ks ih =>
    by_cases hown : k = K
    · subst hown
      exact ⟨fun _ => ⟨ks, first_tail_cons⟩, fun hnot => absurd List.mem_cons_self hnot⟩
    · have herror : k ≠ .error := by
        rintro rfl
        rw [Exposed, List.takeWhile_cons_of_pos (by simpa using hown)] at h
        exact h List.mem_cons_self
      obtain ⟨hin, hout⟩ := ih (mt (exposed_cons hown herror).mpr h)
      have hskip : first (headed (headOf K) f) (r.tail (k :: ks)) = first (headed (headOf K) f) (r.tail ks) := by
        rw [first_tail_cons, skip_entry hown herror]
      constructor
      · intro hK
        rw [hskip]
        exact hin ((List.mem_cons.mp hK).resolve_left fun heq => hown heq.symm)
      · intro hK
        rw [hskip]
        exact hout fun hmem => hK (List.mem_cons_of_mem _ hmem)

theorem not_exposed (h : .error ∉ ks) (K : Key) : ¬ Exposed ks K := fun hmem => h (List.takeWhile_subset _ hmem)

/-- The same in one: a match in the error goes first, where the search reaches it. -/
theorem first_tail (hnodup : ks.Nodup) {inError : Option JsString}
    (hhit : ∀ ks', first (headed (headOf K) f) (r.entry K ++ r.tail ks') = some v)
    (herror : ∀ ks', first (headed (headOf K) f) (r.entry .error ++ r.tail ks') =
      inError.or (first (headed (headOf K) f) (r.tail ks'))) :
    first (headed (headOf K) f) (r.tail ks) =
      (if Exposed ks K then inError else none).or (if K ∈ ks then some v else none) := by
  have hdirect (ks' : List Key) (h : ¬ Exposed ks' K) :
      first (headed (headOf K) f) (r.tail ks') = if K ∈ ks' then some v else none := by
    by_cases hK : K ∈ ks'
    · obtain ⟨rest, hfirst⟩ := (first_tail_direct h).1 hK
      rw [hfirst, hhit, if_pos hK]
    · rw [(first_tail_direct h).2 hK, if_neg hK]
  by_cases hexposed : Exposed ks K
  · obtain ⟨ks', hsuffix, hin, hfirst⟩ := @first_tail_exposed r f K ks hexposed
    have hnot : .error ∉ ks' := (List.nodup_cons.mp (hnodup.sublist hsuffix.sublist)).1
    have hmem : K ∈ ks' ↔ K ∈ ks := ⟨fun hK => hsuffix.subset (List.mem_cons_of_mem _ hK), hin⟩
    rw [hfirst, herror, hdirect ks' (not_exposed hnot K), if_pos hexposed]
    simp only [hmem]
  · rw [hdirect ks hexposed, if_neg hexposed, Option.none_or]

/-! ## A key's own entry -/

/-- What ends a value. -/
theorem tail_head (ks : List Key) : ∃ u t, r.tail ks = u :: t ∧ (u = unit ',' ∨ u = unit '\x7d') := by
  cases ks with
  | nil => exact ⟨_, [], rfl, .inr rfl⟩
  | cons k ks => exact ⟨_, _, rfl, .inl rfl⟩

theorem takeWhile_stop {p : UInt16 → Bool} {s : JsString} (hp : p u = false) : (s ++ u :: rest).takeWhile p = s.takeWhile p := by
  induction s with
  | nil => rw [List.nil_append, List.takeWhile_cons_of_neg (by rw [hp]; decide), List.takeWhile_nil]
  | cons c s ih =>
    rw [List.cons_append, List.takeWhile_cons, List.takeWhile_cons, ih]

theorem some1_stop {p : UInt16 → Bool} {s : JsString} (hp : p u = false) : some1 p (s ++ u :: rest) = some1 p s := by
  rw [some1, some1, takeWhile_stop hp]

theorem some1_tail {p : UInt16 → Bool} {s : JsString} (hcomma : p (unit ',') = false) (hbrace : p (unit '\x7d') = false)
    (hs : ∀ u ∈ s, p u = true) (hne : s ≠ []) : some1 p (s ++ r.tail ks) = some s := by
  obtain ⟨u, t, htail, hu⟩ := @tail_head r ks
  have hp : p u = false := by rcases hu with rfl | rfl <;> assumption
  rw [htail, some1_stop hp, some1, List.takeWhile_eq_self_iff.mpr hs, if_neg hne]

theorem toQuote_append (h : unit '"' ∉ piece) : toQuote (piece ++ unit '"' :: rest) = some piece := by
  have hall : ∀ u ∈ piece, decide (u ≠ unit '"') = true := fun u hu => decide_eq_true fun heq => h (heq ▸ hu)
  rw [toQuote, if_pos (List.mem_append_right _ List.mem_cons_self), takeWhile_stop (by decide),
    List.takeWhile_eq_self_iff.mpr hall]

theorem hit_state (ks : List Key) :
    first (keywordAt (js ":state")) (r.entry .state ++ r.tail ks) = some r.state.name := by
  refine first_of_some ?_
  have hsplit : r.entry .state ++ r.tail ks = (js ":state" ++ js " :") ++ (r.state.name ++ r.tail ks) :=
    List.append_assoc (js ":state" ++ js " :") _ _
  rw [hsplit, keywordAt, headed_append]
  cases r.state <;> exact some1_tail (by decide) (by decide) (List.all_eq_true.mp (by decide)) (by decide)

theorem isDigit_of_mem {n : Nat} (hu : u ∈ natStr n) : isDigit u = true := by
  have hdigit := isDigit_natStr n u hu
  unfold IsDigit digit? at hdigit
  by_contra hnot
  rw [isDigit] at hnot
  rw [if_neg hnot] at hdigit
  cases hdigit

theorem natStr_ne_nil (n : Nat) : natStr n ≠ [] := by
  rcases natStr_head n with h | ⟨u, s, h, -⟩ <;> rw [h] <;> exact List.cons_ne_nil _ _

theorem hit_attempts (ks : List Key) :
    first attemptsAt (r.entry .attempts ++ r.tail ks) = some (natStr (r.attempts.getD 0)) := by
  refine first_of_some ?_
  rw [Report.entry, List.append_assoc, attemptsAt, headed_append]
  exact some1_tail (by decide) (by decide) (fun u hu => isDigit_of_mem hu) (natStr_ne_nil _)

theorem quote_notMem_cid (c : Option CidText) : unit '"' ∉ c.elim [] CidText.text := by
  cases c with
  | none => exact List.not_mem_nil
  | some c =>
    intro h
    have hquote := (c.plain _ h).2
    revert hquote
    decide

theorem flatMap_escape_cid (c : Option CidText) : (c.elim [] CidText.text).flatMap escape = c.elim [] CidText.text := by
  cases c with
  | none => rfl
  | some c => exact flatMap_escape fun u hu => (c.plain u hu).2

theorem hit_pieceCid (ks : List Key) :
    first (stringAt (js ":piece-cid")) (r.entry .pieceCid ++ r.tail ks) = some (r.pieceCid.elim [] CidText.text) := by
  refine first_of_some ?_
  have hsplit : r.entry .pieceCid ++ r.tail ks =
      (js ":piece-cid" ++ js " \"") ++ (r.pieceCid.elim [] CidText.text ++ unit '"' :: r.tail ks) := by
    rw [Report.entry, prString_eq, flatMap_escape_cid]
    simp only [List.append_assoc, List.cons_append, List.nil_append]
    rfl
  rw [hsplit, stringAt, headed_append, toQuote_append (quote_notMem_cid _)]

/-! ## The error text -/

/-- What is read of an error text: up to a quote, which may be one that it holds. -/
def captured (e : JsString) : JsString := (e.flatMap escape).takeWhile (· ≠ unit '"')

theorem hit_error (ks : List Key) :
    first (stringAt (js ":error")) (r.entry .error ++ r.tail ks) = some (captured (r.error.getD [])) := by
  refine first_of_some ?_
  have hsplit : r.entry .error ++ r.tail ks =
      (js ":error" ++ js " \"") ++ ((r.error.getD []).flatMap escape ++ unit '"' :: r.tail ks) := by
    rw [Report.entry, prString_eq]
    simp only [List.append_assoc, List.cons_append, List.nil_append]
    rfl
  rw [hsplit, stringAt, headed_append, toQuote, if_pos (List.mem_append_right _ List.mem_cons_self),
    takeWhile_stop (by decide), captured]

/-- How a code unit is printed. -/
theorem escape_cases (u : UInt16) : escape u = [u] ∧ u ≠ unit '"' ∧ u ≠ unit '\\' ∨ u = unit '"' ∧ escape u = [unit '\\', unit '"'] ∨
    u = unit '\\' ∧ escape u = [unit '\\', unit '\\'] ∨
      u ≠ unit '\\' ∧ ∃ c, escape u = [unit '\\', c] ∧ c ≠ unit '"' := by
  unfold escape
  split_ifs with h₁ h₂ h₃ h₄ h₅ h₆ h₇
  · exact .inr (.inl ⟨h₁, rfl⟩)
  · exact .inr (.inr (.inl ⟨h₂, rfl⟩))
  · exact .inr (.inr (.inr ⟨h₂, unit 'b', rfl, by decide⟩))
  · exact .inr (.inr (.inr ⟨h₂, unit 't', rfl, by decide⟩))
  · exact .inr (.inr (.inr ⟨h₂, unit 'n', rfl, by decide⟩))
  · exact .inr (.inr (.inr ⟨h₂, unit 'f', rfl, by decide⟩))
  · exact .inr (.inr (.inr ⟨h₂, unit 'r', rfl, by decide⟩))
  · exact .inl ⟨rfl, h₁, h₂⟩

theorem captured_cons (u : UInt16) (e : JsString) :
    captured (u :: e) = (escape u).takeWhile (· ≠ unit '"') ++ if unit '"' ∈ escape u then [] else captured e := by
  rw [captured, List.flatMap_cons, List.takeWhile_append]
  rcases escape_cases u with ⟨h, hq, -⟩ | ⟨rfl, h⟩ | ⟨rfl, h⟩ | ⟨-, c, h, hq⟩
  · have hmem : unit '"' ∉ [u] := fun hmem => hq (List.mem_singleton.mp hmem).symm
    have htake : [u].takeWhile (· ≠ unit '"') = [u] := List.takeWhile_cons_of_pos (decide_eq_true hq)
    rw [h, htake, if_pos rfl, if_neg hmem, captured]
  · rw [h]
    rfl
  · rw [h]
    rfl
  · have hmem : unit '"' ∉ [unit '\\', c] := by
      intro hmem
      rcases List.mem_cons.mp hmem with hmem | hmem
      · revert hmem
        decide
      · exact hq (List.mem_singleton.mp hmem).symm
    have htake : [unit '\\', c].takeWhile (· ≠ unit '"') = [unit '\\', c] := by
      rw [List.takeWhile_cons_of_pos (by decide), List.takeWhile_cons_of_pos (by simpa using hq), List.takeWhile_nil]
    rw [h, htake, if_pos rfl, if_neg hmem, captured]

/-- A text is not what is read of it behind a backslash: what is printed grows by one more. -/
theorem ne_backslash_captured (e : JsString) (n : Nat) : e ≠ List.replicate (n + 1) (unit '\\') ++ captured e := by
  induction e generalizing n with
  | nil => exact fun h => by cases h
  | cons u e ih =>
    intro h
    have hu : u = unit '\\' := by
      rw [List.replicate_succ, List.cons_append] at h
      exact (List.cons.inj h).1
    subst hu
    have hcaptured : captured (unit '\\' :: e) = [unit '\\', unit '\\'] ++ captured e := captured_cons _ e
    have hmore : List.replicate (n + 1) (unit '\\') ++ [unit '\\', unit '\\'] = unit '\\' :: List.replicate (n + 2) (unit '\\') := by
      rw [← List.replicate_succ]
      exact (List.replicate_append_replicate (m := 2)).trans rfl
    rw [hcaptured, ← List.append_assoc, hmore, List.cons_append] at h
    exact ih (n + 1) (List.cons.inj h).2

/-- **An error text is read as it is** exactly where nothing in it is printed otherwise. -/
theorem captured_eq_iff : captured e = e ↔ ∀ u ∈ e, escape u = [u] := by
  constructor
  · intro h
    induction e with
    | nil => exact fun u hu => absurd hu List.not_mem_nil
    | cons u e ih =>
      rw [captured_cons] at h
      rcases escape_cases u with ⟨hu, hq, -⟩ | ⟨rfl, hu⟩ | ⟨rfl, hu⟩ | ⟨hback, c, hu, -⟩
      · have hmem : unit '"' ∉ [u] := fun hmem => hq (List.mem_singleton.mp hmem).symm
        have htake : [u].takeWhile (· ≠ unit '"') = [u] := List.takeWhile_cons_of_pos (decide_eq_true hq)
        rw [hu, htake, if_neg hmem] at h
        exact List.forall_mem_cons.mpr ⟨hu, ih (List.cons.inj h).2⟩
      · rw [hu] at h
        have hhead : unit '\\' = unit '"' := (List.cons.inj h).1
        exact absurd hhead (by decide)
      · rw [hu] at h
        exact absurd (List.cons.inj h).2.symm (ne_backslash_captured e 0)
      · rw [hu, List.takeWhile_cons_of_pos (by decide)] at h
        exact absurd (List.cons.inj h).1.symm hback
  · intro h
    have hquote : ∀ u ∈ e, decide (u ≠ unit '"') = true := by
      intro u hu
      refine decide_eq_true ?_
      rintro rfl
      have hescape := h _ hu
      revert hescape
      decide
    rw [captured, flatMap_escape h]
    exact List.takeWhile_eq_self_iff.mpr hquote

/-! ## The error text in the other searches -/

/-- The searches reach the error text, which stands in quotes. -/
theorem first_error (hK : K ≠ .error) (h : ∀ u ∈ e, escape u = [u]) (he : r.error.getD [] = e) (ks : List Key) :
    first (headed (headOf K) f) (r.entry .error ++ r.tail ks) = first (headed (headOf K) f) (e ++ unit '"' :: r.tail ks) := by
  have hsplit : r.entry .error ++ r.tail ks = unit ':' :: js "error " ++ (js "\"" ++ (e ++ unit '"' :: r.tail ks)) := by
    rw [Report.entry, prString_eq, he, flatMap_escape h]
    simp only [List.append_assoc, List.cons_append, List.nil_append]
    rfl
  rw [hsplit, skip_word (by decide) (by cases K <;> first | exact absurd rfl hK | decide), skip_headOf (by decide)]

theorem quote_notMem (h : ∀ u ∈ e, escape u = [u]) : unit '"' ∉ e := by
  intro hmem
  exact absurd (h _ hmem) (by decide)

/-- A search for a word ends at the quote, and goes on behind it. -/
theorem word_error {p : UInt16 → Bool} (hK : K ≠ .error) (hquote : unit '"' ∉ headOf K) (hp : p (unit '"') = false)
    (h : ∀ u ∈ e, escape u = [u]) (he : r.error.getD [] = e) (ks : List Key) :
    first (headed (headOf K) (some1 p)) (r.entry .error ++ r.tail ks) =
      (first (headed (headOf K) (some1 p)) e).or (first (headed (headOf K) (some1 p)) (r.tail ks)) := by
  have hne : headOf K ≠ [] := by
    have := head_headOf K
    rintro hnil
    rw [hnil] at this
    cases this
  have hbehind : first (headed (headOf K) (some1 p)) (js "\"" ++ r.tail ks) = first (headed (headOf K) (some1 p)) (r.tail ks) :=
    skip_headOf (by decide)
  rw [first_error hK h he, first_headed_cut hne hquote fun t => some1_stop hp, ← hbehind]
  rfl

/-- The search for a piece CID begins at the quote behind the text, or not in the text at all. -/
theorem pieceCid_begins (h : ∀ u ∈ e, escape u = [u]) :
    headOf .pieceCid <+: e ++ unit '"' :: rest ↔ e = js ":piece-cid " :=
  @prefix_stop_iff _ (js ":piece-cid ") e rest (unit '"') (by decide) (quote_notMem h)

theorem pieceCid_error (h : ∀ u ∈ e, escape u = [u]) (he : r.error.getD [] = e)
    (hend : js ":piece-cid " <:+ e → unit '"' ∉ r.tail ks) :
    first (stringAt (js ":piece-cid")) (r.entry .error ++ r.tail ks) = first (stringAt (js ":piece-cid")) (r.tail ks) := by
  have hbehind : first (stringAt (js ":piece-cid")) (js "\"" ++ r.tail ks) = first (stringAt (js ":piece-cid")) (r.tail ks) :=
    @skip_headOf _ .pieceCid _ _ (by decide)
  rw [← hbehind]
  refine (@first_error _ toQuote .pieceCid e (by decide) h he ks).trans (first_skip fun t _ ht => ?_)
  by_cases hhead : headOf .pieceCid <+: t ++ unit '"' :: r.tail ks
  · obtain rfl := (pieceCid_begins fun u hu => h u (ht.subset hu)).mp hhead
    have hsplit : js ":piece-cid " ++ unit '"' :: r.tail ks = headOf .pieceCid ++ r.tail ks := rfl
    rw [hsplit]
    refine (headed_append (headOf .pieceCid) toQuote _).trans ?_
    rw [toQuote, if_neg (hend ht)]
  · exact headed_of_not hhead

theorem quote_notMem_tail (h : ∀ k ∈ ks, k ≠ .pieceCid ∧ k ≠ .error) : unit '"' ∉ r.tail ks := by
  induction ks with
  | nil => exact (by decide : unit '"' ∉ js "\x7d")
  | cons k ks ih =>
    obtain ⟨⟨hpiece, herror⟩, hks⟩ := List.forall_mem_cons.mp h
    have hentry : unit '"' ∉ r.entry k := by
      cases k with
      | state =>
        rw [Report.entry]
        cases r.state <;> decide
      | attempts =>
        intro hmem
        rcases List.mem_append.mp hmem with hmem | hmem
        · exact absurd hmem (by decide)
        · exact absurd (isDigit_of_mem hmem) (by decide)
      | pieceCid => exact absurd rfl hpiece
      | error => exact absurd rfl herror
    rw [Report.tail]
    intro hmem
    rcases List.mem_append.mp hmem with hmem | hmem
    · rcases List.mem_append.mp hmem with hmem | hmem
      · exact absurd hmem (by decide)
      · exact hentry hmem
    · exact ih hks hmem

/-- **An error text that ends in the key** is taken for it: what is read holds a colon. -/
theorem pieceCid_swallowed (h : ∀ u ∈ e, escape u = [u]) (he : r.error.getD [] = e) (hend : js ":piece-cid " <:+ e)
    (hks : .pieceCid ∈ ks) : ∃ w, first (stringAt (js ":piece-cid")) (r.entry .error ++ r.tail ks) = some w ∧ unit ':' ∈ w := by
  obtain ⟨front, rfl⟩ := hend
  have hquote : unit '"' ∈ r.tail ks := by
    induction ks with
    | nil => cases hks
    | cons k ks ih =>
      rw [Report.tail]
      rcases List.mem_cons.mp hks with rfl | hks
      · refine List.mem_append_left _ (List.mem_append_right _ (List.mem_append_right _ ?_))
        exact List.mem_cons_self
      · exact List.mem_append_right _ (ih hks)
  have hcolon : unit ':' ∈ (r.tail ks).takeWhile (· ≠ unit '"') := by
    cases ks with
    | nil => cases hks
    | cons k ks =>
      have hentry : ∃ t, r.entry k = unit ':' :: t := by cases k <;> exact ⟨_, rfl⟩
      obtain ⟨t, ht⟩ := hentry
      have htail : r.tail (k :: ks) = unit ',' :: unit ' ' :: unit ':' :: (t ++ r.tail ks) := by
        rw [Report.tail, ht]
        rfl
      rw [htail, List.takeWhile_cons_of_pos (by decide), List.takeWhile_cons_of_pos (by decide),
        List.takeWhile_cons_of_pos (by decide)]
      exact List.mem_cons_of_mem _ (List.mem_cons_of_mem _ List.mem_cons_self)
  refine ⟨_, ?_, hcolon⟩
  refine (@first_error _ toQuote .pieceCid _ (by decide) h he ks).trans ?_
  rw [List.append_assoc]
  refine (first_skip fun t hne ht => headed_of_not fun hhead => ?_).trans (first_of_some ?_)
  · rw [← List.append_assoc] at hhead
    have hplain : ∀ u ∈ t ++ js ":piece-cid ", escape u = [u] := by
      intro u hu
      refine h u ?_
      rcases List.mem_append.mp hu with hu | hu
      · exact List.mem_append_left _ (ht.subset hu)
      · exact List.mem_append_right _ hu
    have hlen := congrArg List.length ((pieceCid_begins hplain).mp hhead)
    rw [List.length_append] at hlen
    exact hne (List.eq_nil_of_length_eq_zero (by omega))
  · have hsplit : js ":piece-cid " ++ unit '"' :: r.tail ks = headOf .pieceCid ++ r.tail ks := rfl
    rw [hsplit, headed_append, toQuote, if_pos hquote]

/-! ## The four fields -/

section

variable (h : order.Perm r.keys)

include h

theorem mem_order (k : Key) : k ∈ order ↔ k ∈ r.keys := h.mem_iff

theorem nodup_order : order.Nodup := by
  refine h.nodup_iff.mpr ?_
  rw [Report.keys]
  split_ifs <;> decide

theorem state_mem : .state ∈ order := by
  rw [mem_order h, Report.keys]
  simp

theorem pieceCid_mem : .pieceCid ∈ order ↔ r.pieceCid.isSome = true := by
  rw [mem_order h, Report.keys]
  split_ifs <;> simp_all

theorem attempts_mem : .attempts ∈ order ↔ r.attempts.isSome = true := by
  rw [mem_order h, Report.keys]
  split_ifs <;> simp_all

theorem error_mem : .error ∈ order ↔ r.error.isSome = true := by
  rw [mem_order h, Report.keys]
  split_ifs <;> simp_all

theorem exists_error {k : Key} (hexposed : Exposed order k) : ∃ e, r.error = some e :=
  Option.isSome_iff_exists.mp ((error_mem h).mp (List.takeWhile_subset _ hexposed))

/-- The error text is read. -/
theorem parse_error : first (stringAt (js ":error")) (r.printed order) = r.error ↔
    ∀ e, r.error = some e → ∀ u ∈ e, escape u = [u] := by
  have hexposed : ¬ Exposed order .error := by
    intro hmem
    have := List.mem_takeWhile_imp hmem
    simp at this
  have hprinted : first (stringAt (js ":error")) (r.printed order) = first (stringAt (js ":error")) (r.tail order) :=
    @first_printed r toQuote .error order
  obtain ⟨hin, hout⟩ := @first_tail_direct r toQuote .error order hexposed
  rw [hprinted]
  cases he : r.error with
  | none =>
    have hmem : .error ∉ order := by
      rw [error_mem h, he]
      decide
    exact iff_of_true (hout hmem) (by simp)
  | some e =>
    have hmem : .error ∈ order := by
      rw [error_mem h, he]
      rfl
    obtain ⟨ks', hfirst⟩ := hin hmem
    have hread := hfirst.trans (hit_error ks')
    rw [he, Option.getD_some] at hread
    change first (stringAt (js ":error")) (r.tail order) = _ at hread
    rw [hread, Option.some.injEq, captured_eq_iff]
    exact ⟨fun hall e' he' => Option.some.inj he' ▸ hall, fun hall => hall e rfl⟩

/-- What is found in the error goes before the key's own value. -/
theorem found_or_iff {g : JsString → Option JsString} {P : Option JsString → Prop} {own : Option JsString} (K : Key) :
    P ((if Exposed order K then g (r.error.getD []) else none).or own) ↔
      (∀ e, r.error = some e → Exposed order K → ∀ w, g e = some w → P (some w)) ∧
        ((if Exposed order K then g (r.error.getD []) else none) = none → P own) := by
  by_cases hexposed : Exposed order K
  · obtain ⟨e, he⟩ := exists_error h hexposed
    rw [if_pos hexposed, he, Option.getD_some]
    cases hfound : g e with
    | none =>
      rw [Option.none_or]
      refine ⟨fun hown => ⟨?_, fun _ => hown⟩, fun hall => hall.2 rfl⟩
      rintro e' he' - w hw
      rw [← Option.some.inj he', hfound] at hw
      cases hw
    | some w =>
      rw [Option.some_or]
      refine ⟨fun hw => ⟨?_, fun hnone => by cases hnone⟩, fun hall => hall.1 e rfl hexposed w hfound⟩
      rintro e' he' - w' hw'
      rw [← Option.some.inj he', hfound] at hw'
      exact Option.some.inj hw' ▸ hw
  · rw [if_neg hexposed, Option.none_or]
    exact ⟨fun hown => ⟨fun e _ hcontra => absurd hcontra hexposed, fun _ => hown⟩, fun hall => hall.2 rfl⟩

variable (hplain : ∀ u ∈ r.error.getD [], escape u = [u])

include hplain

/-- The state is read, or what looks like one in the error. -/
theorem parse_state : first (keywordAt (js ":state")) (r.printed order) = some r.state.name ↔
    ∀ e, r.error = some e → Exposed order .state →
      ∀ w, first (keywordAt (js ":state")) e = some w → w = r.state.name := by
  have hfirst := @first_tail r (some1 isKeyword) .state order _ (nodup_order h) _ hit_state
    (word_error (by decide) (by decide) (by decide) hplain rfl)
  rw [← first_printed, if_pos (state_mem h)] at hfirst
  have hiff := @found_or_iff r order h (first (headed (headOf .state) (some1 isKeyword)))
    (fun found => found = some r.state.name) (some r.state.name) .state
  rw [← hfirst] at hiff
  refine hiff.trans ((and_iff_left fun _ => rfl).trans ?_)
  simp only [Option.some.injEq]
  rfl

theorem parse_attempts :
    (first attemptsAt (r.printed order)).map parseInt = r.attempts.map (fun (n : Nat) => .int n) ↔
      (∀ e, r.error = some e → Exposed order .attempts →
        ∀ w, first attemptsAt e = some w → r.attempts.map (fun (n : Nat) => .int n) = some (parseInt w)) ∧
        ∀ n, r.attempts = some n → Number.ofInt n = .int n := by
  have hfirst := @first_tail r (some1 isDigit) .attempts order _ (nodup_order h) _ hit_attempts
    (word_error (by decide) (by decide) (by decide) hplain rfl)
  rw [← first_printed] at hfirst
  have hown : (if Key.attempts ∈ order then some (natStr (r.attempts.getD 0)) else none) = r.attempts.map natStr := by
    cases hattempts : r.attempts with
    | none =>
      have hmem : .attempts ∉ order := by
        rw [attempts_mem h, hattempts]
        decide
      rw [if_neg hmem, Option.map_none]
    | some n =>
      have hmem : .attempts ∈ order := by
        rw [attempts_mem h, hattempts]
        rfl
      rw [if_pos hmem, Option.getD_some, Option.map_some]
  have hiff := @found_or_iff r order h (first (headed (headOf .attempts) (some1 isDigit)))
    (fun found => found.map parseInt = r.attempts.map (fun (n : Nat) => .int n)) (r.attempts.map natStr) .attempts
  rw [hown] at hfirst
  rw [← hfirst] at hiff
  have hheld : (r.attempts.map natStr).map parseInt = r.attempts.map (fun (n : Nat) => .int n) ↔
      ∀ n, r.attempts = some n → Number.ofInt n = .int n := by
    cases r.attempts with
    | none => exact iff_of_true rfl (by simp)
    | some n =>
      rw [Option.map_some, Option.map_some, Option.map_some, Option.some.injEq, parseInt, ofDigits_natStr]
      exact ⟨fun heq m hm => Option.some.inj hm ▸ heq, fun hall => hall n rfl⟩
  rw [hheld] at hiff
  refine hiff.trans ⟨fun hboth => ⟨fun e he hexposed w hw => (hboth.1 e he hexposed w hw).symm, fun n hn => ?_⟩,
    fun hboth => ⟨fun e he hexposed w hw => (hboth.1 e he hexposed w hw).symm, fun _ => hboth.2⟩⟩
  by_cases hnone : (if Exposed order .attempts then
      first (headed (headOf .attempts) (some1 isDigit)) (r.error.getD []) else none) = none
  · exact hboth.2 hnone n hn
  · -- What is read of the error is a double too.
    obtain ⟨w, hw⟩ := Option.ne_none_iff_exists'.mp hnone
    have hexposed : Exposed order .attempts := by
      by_contra hnot
      rw [if_neg hnot] at hw
      cases hw
    obtain ⟨e, he⟩ := exists_error h hexposed
    rw [if_pos hexposed, he, Option.getD_some] at hw
    have hread := hboth.1 e he hexposed w hw
    rw [hn, Option.map_some, Option.map_some] at hread
    have hint : Number.ofRat (ofDigits w : Int) = .int n := Option.some.inj hread
    have hheld := Number.ofRat_held (ofDigits w : Int)
    rw [hint] at hheld
    exact (hheld n rfl).2

theorem parse_pieceCid : first (stringAt (js ":piece-cid")) (r.printed order) = r.pieceCid.map CidText.text ↔
    ∀ e, r.error = some e → r.pieceCid.isSome = true → Exposed order .pieceCid → ¬ js ":piece-cid " <:+ e := by
  have hprinted : first (stringAt (js ":piece-cid")) (r.printed order) = first (stringAt (js ":piece-cid")) (r.tail order) :=
    @first_printed r toQuote .pieceCid order
  have hdirect (ks : List Key) (hnot : ¬ Exposed ks .pieceCid) : first (stringAt (js ":piece-cid")) (r.tail ks) =
      if .pieceCid ∈ ks then some (r.pieceCid.elim [] CidText.text) else none := by
    obtain ⟨hin, hout⟩ := @first_tail_direct r toQuote .pieceCid ks hnot
    by_cases hmem : .pieceCid ∈ ks
    · obtain ⟨ks', hfirst⟩ := hin hmem
      rw [if_pos hmem]
      exact hfirst.trans (hit_pieceCid ks')
    · rw [if_neg hmem]
      exact hout hmem
  have hown : (if Key.pieceCid ∈ order then some (r.pieceCid.elim [] CidText.text) else none) = r.pieceCid.map CidText.text := by
    cases hpiece : r.pieceCid with
    | none =>
      have hmem : .pieceCid ∉ order := by
        rw [pieceCid_mem h, hpiece]
        decide
      rw [if_neg hmem, Option.map_none]
    | some c =>
      have hmem : .pieceCid ∈ order := by
        rw [pieceCid_mem h, hpiece]
        rfl
      rw [if_pos hmem, Option.elim_some, Option.map_some]
  rw [hprinted]
  by_cases hexposed : Exposed order .pieceCid
  · obtain ⟨e, he⟩ := exists_error h hexposed
    have hget : r.error.getD [] = e := by rw [he, Option.getD_some]
    rw [hget] at hplain
    obtain ⟨ks', hsuffix, hin, hfirst⟩ := @first_tail_exposed r toQuote .pieceCid order hexposed
    change first (stringAt (js ":piece-cid")) (r.tail order) = first (stringAt (js ":piece-cid")) _ at hfirst
    have hnot : .error ∉ ks' := (List.nodup_cons.mp ((nodup_order h).sublist hsuffix.sublist)).1
    have hmem : Key.pieceCid ∈ ks' ↔ Key.pieceCid ∈ order :=
      ⟨fun hK => hsuffix.subset (List.mem_cons_of_mem _ hK), hin⟩
    have hpassed (hend : js ":piece-cid " <:+ e → unit '"' ∉ r.tail ks') :
        first (stringAt (js ":piece-cid")) (r.tail order) = r.pieceCid.map CidText.text := by
      rw [hfirst, pieceCid_error hplain hget hend, hdirect ks' (not_exposed hnot _), ← hown]
      simp only [hmem]
    by_cases hpiece : r.pieceCid.isSome = true
    · by_cases hend : js ":piece-cid " <:+ e
      · refine iff_of_false (fun hread => ?_) fun hall => hall e he hpiece hexposed hend
        obtain ⟨w, hw, hcolon⟩ := pieceCid_swallowed hplain hget hend (hmem.mpr ((pieceCid_mem h).mpr hpiece))
        obtain ⟨c, hc⟩ := Option.isSome_iff_exists.mp hpiece
        rw [hfirst, hw, hc, Option.map_some] at hread
        exact (c.plain _ (Option.some.inj hread ▸ hcolon)).1 rfl
      · refine iff_of_true (hpassed fun hcontra => absurd hcontra hend) fun e' he' _ _ => ?_
        rwa [← Option.some.inj (he.symm.trans he')]
    · refine iff_of_true (hpassed fun _ => quote_notMem_tail fun k hk => ⟨?_, ?_⟩) fun _ _ hcontra => absurd hcontra hpiece
      · rintro rfl
        exact hpiece ((pieceCid_mem h).mp (hmem.mp hk))
      · rintro rfl
        exact hnot hk
  · refine iff_of_true ?_ fun _ _ _ hcontra => absurd hcontra hexposed
    rw [hdirect order hexposed, hown]

end

/-- **A status is read back exactly where it is legible**: for every status and every order of its keys. -/
theorem parseStatus_printed (r : Report) (order : List Key) (h : order.Perm r.keys) :
    parseStatus (r.printed order) = r.map ↔ Legible r order := by
  have hfields : parseStatus (r.printed order) = r.map ↔
      first (keywordAt (js ":state")) (r.printed order) = some r.state.name ∧
        first (stringAt (js ":piece-cid")) (r.printed order) = r.pieceCid.map CidText.text ∧
        (first attemptsAt (r.printed order)).map parseInt = r.attempts.map (fun (n : Nat) => .int n) ∧
        first (stringAt (js ":error")) (r.printed order) = r.error := by
    rw [parseStatus, Report.map, Parsed.mk.injEq]
  have hgetD (herror : ∀ e, r.error = some e → ∀ u ∈ e, escape u = [u]) : ∀ u ∈ r.error.getD [], escape u = [u] := by
    cases he : r.error with
    | none => exact fun u hu => absurd hu List.not_mem_nil
    | some e => exact herror e he
  rw [hfields, parse_error h]
  constructor
  · rintro ⟨hstate, hpiece, hattempts, herror⟩
    have hplain := hgetD herror
    obtain ⟨hfound, hheld⟩ := (parse_attempts h hplain).mp hattempts
    exact ⟨herror, (parse_state h hplain).mp hstate, hfound, (parse_pieceCid h hplain).mp hpiece, hheld⟩
  · rintro ⟨herror, hstate, hattempts, hpiece, hheld⟩
    have hplain := hgetD herror
    exact ⟨(parse_state h hplain).mpr hstate, (parse_pieceCid h hplain).mpr hpiece,
      (parse_attempts h hplain).mpr ⟨hattempts, hheld⟩, herror⟩

namespace Sample

/-- A CAR that is not stored yet, since the tier was down. -/
def waiting : Report := ⟨.queued, none, some 2, some (js "sp down")⟩

/-- Another, whose error quotes a status. -/
def quoting : Report := ⟨.queued, none, none, some (js "peer said :state :stored")⟩

end Sample

theorem parseStatus_printed_sample : parseStatus (Sample.waiting.printed [.error, .attempts, .state]) = Sample.waiting.map := by
  have hlegible : Legible Sample.waiting [.error, .attempts, .state] := by
    have herror {P : JsString → Prop} (h : P (js "sp down")) : ∀ e, Sample.waiting.error = some e → P e :=
      fun e he => Option.some.inj he ▸ h
    have hplain : ((js "sp down").all fun u => escape u = [u]) = true := by decide
    refine ⟨herror fun u hu => of_decide_eq_true (List.all_eq_true.mp hplain u hu), herror fun _ w hw => ?_, herror fun _ w hw => ?_, (fun _ _ hpiece => by cases hpiece), ?_⟩
    · have hnone : first (keywordAt (js ":state")) (js "sp down") = none := by decide +kernel
      rw [hnone] at hw
      cases hw
    · have hnone : first attemptsAt (js "sp down") = none := by decide +kernel
      rw [hnone] at hw
      cases hw
    · intro n hn
      rw [← Option.some.inj hn]
      exact Number.ofInt_exact (by decide)
  exact (parseStatus_printed Sample.waiting [.error, .attempts, .state] (by decide)).mpr hlegible

/-- **A state is taken from inside the error text.** -/
theorem state_of_error : [Key.error, .state].Perm Sample.quoting.keys ∧
    (parseStatus (Sample.quoting.printed [.error, .state])).state = some (js "stored") ∧
      parseStatus (Sample.quoting.printed [.error, .state]) ≠ Sample.quoting.map := by
  decide +kernel

end Filecoin
