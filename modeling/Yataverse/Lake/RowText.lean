import Yataverse.Js.Loads

/-!
# The text of a row

All tools write a row as `{"cid":...,"bytes":...}`. Readers in both languages get the CID back, and JavaScript the size;
what Python has for a size depends on how it was printed.

- `rowText`: the text.
- **`parse_rowText`**: what `JSON.parse` returns.
- **`loads_rowText`**: what `json.loads` returns. The size is an `int` where its digits are printed.
-/

namespace Lake

open Js Json

/-- The text of a row. -/
def rowText (cid : JsString) (x : Number) : JsString :=
  js "\x7b\"cid\":" ++ stringify cid ++ js ",\"bytes\":" ++ numStr x ++ js "\x7d"

/-- The value of a row. -/
def rowJson (cid : JsString) (x : Number) : Json := .obj [(js "bytes", .num x), (js "cid", .str cid)]

variable {cid r : JsString} {x : Number}

theorem rowText_append (cid : JsString) (x : Number) (r : JsString) : rowText cid x ++ r =
    unit '{' :: unit '"' :: (js "cid\"" ++ unit ':' :: (stringify cid ++
      unit ',' :: unit '"' :: (js "bytes\"" ++ unit ':' :: (numStr x ++ unit '}' :: r)))) := by
  have h₁ : js "\x7b\"cid\":" = unit '{' :: unit '"' :: (js "cid\"" ++ [unit ':']) := by decide
  have h₂ : js ",\"bytes\":" = unit ',' :: unit '"' :: (js "bytes\"" ++ [unit ':']) := by decide
  have h₃ : js "\x7d" = [unit '}'] := by decide
  rw [rowText, h₁, h₂, h₃]
  simp only [List.append_assoc, List.cons_append, List.nil_append]

/-- The key of a member, behind its quote. -/
theorem readString_key (k : String) (hk : stringify (js k) = unit '"' :: js (k ++ "\"")) (t : JsString) :
    readString (js (k ++ "\"") ++ t) = some (js k, t) := by
  obtain ⟨body, hbody, hread⟩ := readsBack_stringify (js k)
  obtain rfl := (List.cons.inj (hk.symm.trans hbody)).2
  exact hread t

/-! ## JavaScript -/

/-- **A row parses.** -/
theorem readValue_rowText (hheld : x.Held) (hvalue : x.value?.isSome = true) (fuel : Nat) :
    readValue (fuel + 4) (rowText cid x ++ r) = some (rowJson cid x, r) := by
  obtain ⟨q, hq⟩ := Option.isSome_iff_exists.mp hvalue
  obtain ⟨body, hbody, hcid⟩ := readsBack_stringify cid
  obtain ⟨u, t, hnum, hu⟩ := numStr_cons hheld hq
  have hbytes : readValue (fuel + 1) (numStr x ++ unit '}' :: r) = some (.num x, unit '}' :: r) := by
    have hread := readNumber_numStr hheld hq (Stops.brace r)
    rw [hnum, List.cons_append] at hread ⊢
    rw [readValue_number hu, hread]
  have hlast : readMembers (fuel + 2) (unit '"' :: (js "bytes\"" ++ unit ':' :: (numStr x ++ unit '}' :: r))) =
      some ([(js "bytes", .num x)], r) :=
    readMembers_last (readString_key "bytes" (by decide) _) hbytes
  have hstr : readValue (fuel + 2) (stringify cid ++ unit ',' :: unit '"' ::
      (js "bytes\"" ++ unit ':' :: (numStr x ++ unit '}' :: r))) =
      some (.str cid, unit ',' :: unit '"' :: (js "bytes\"" ++ unit ':' :: (numStr x ++ unit '}' :: r))) := by
    rw [hbody, List.cons_append, readValue, dropWhile_unit (by decide)]
    simp [hcid]
  rw [rowText_append]
  exact readValue_obj (by unfold Starts; decide) (readMembers_next (readString_key "cid" (by decide) _) hstr hlast)

/-- **What `JSON.parse` returns** for a row with white space behind it. -/
theorem parse_rowText (hheld : x.Held) (hvalue : x.value?.isSome = true) (hr : r.all isSpace = true) :
    parse (rowText cid x ++ r) = some (rowJson cid x) := by
  have hlen : 3 ≤ (rowText cid x ++ r).length := by
    rw [rowText_append, List.length_cons, List.length_cons, List.length_append, List.length_cons]
    omega
  obtain ⟨fuel, hfuel⟩ := Nat.exists_eq_add_of_le' hlen
  rw [parse, hfuel, readValue_rowText hheld hvalue]
  exact if_pos hr

/-! ## Python -/

theorem text_head (d : Digits) : ∃ u t, d.text = u :: t ∧ IsDigit u := by
  obtain ⟨u, t, hnat⟩ := List.exists_cons_of_ne_nil (natStr_ne_nil d.s)
  have hdigit : IsDigit u := isDigit_natStr d.s u (by rw [hnat]; exact List.mem_cons_self)
  unfold Digits.text
  dsimp only
  rw [hnat]
  split_ifs with h₁ h₂ h₃ h₄
  · exact ⟨u, _, rfl, hdigit⟩
  · obtain ⟨k, hk⟩ := Nat.exists_eq_add_of_le' (by omega : 1 ≤ d.n.toNat)
    rw [hk]
    exact ⟨u, _, rfl, hdigit⟩
  · exact ⟨unit '0', _, rfl, by unfold IsDigit; decide⟩
  all_goals exact ⟨u, _, rfl, hdigit⟩

/-- The text of a size starts with a digit. -/
theorem numStr_head {n : Nat} (hheld : (Number.int n).Held) : ∃ u t, numStr (.int n) = u :: t ∧ IsDigit u := by
  obtain ⟨u, t, htext, hu⟩ := numStr_cons hheld rfl
  rw [numStr] at htext ⊢
  by_cases hsmall : (n : Int).natAbs ≤ 2 ^ 53
  · rw [if_pos hsmall] at htext ⊢
    have hnat : natStr n = u :: t := htext
    exact ⟨u, t, htext, isDigit_natStr n u (by rw [hnat]; exact List.mem_cons_self)⟩
  · rw [if_neg hsmall, ratStr, if_neg (not_lt.mpr (by exact_mod_cast Nat.zero_le n))] at htext ⊢
    cases hdigits : Digits.shortest |((n : Int) : ℚ)| with
    | none =>
      rw [hdigits] at htext
      cases htext
    | some d =>
      obtain ⟨v, s, hd, hv⟩ := text_head d
      exact ⟨v, s, hd, hv⟩

/-- **The size of a row, as Python reads it**: an `int` where its text is decimal. -/
theorem loadsNumber_numStr {n : Nat} (hheld : (Number.int n).Held) : ∃ y,
    Loads.readNumber (numStr (.int n) ++ unit '}' :: r) = some (.num y, unit '}' :: r) ∧
      (∀ m : Int, y = .int m → ∃ k : Nat, m = k ∧ numStr (.int n) = natStr k) ∧
        ∀ k : Nat, numStr (.int n) = natStr k → y = .int k := by
  obtain ⟨u, t, htext, hu⟩ := numStr_head hheld
  have hsign : ∀ s, numStr (.int n) ++ unit '}' :: r ≠ unit '-' :: s := by
    intro s hs
    rw [htext] at hs
    exact hu.ne (by unfold IsDigit; decide) (List.cons.inj hs).1
  obtain ⟨y, hread, hint⟩ := Loads.readNumber_eq hsign (readNumber_numStr hheld rfl (Stops.brace r))
  refine ⟨y, hread, fun m hm => ?_, fun k hk => ?_⟩
  · obtain ⟨whole, hsplit, hdecimal, rfl⟩ := hint m hm
    exact ⟨_, rfl, (List.append_cancel_right hsplit).trans (natStr_ofDigits hdecimal).symm⟩
  · rw [hk, Loads.readNumber_natStr (Stops.brace r)] at hread
    obtain ⟨hnum, -⟩ := Prod.mk.inj (Option.some.inj hread)
    exact (Json.num.inj hnum).symm

/-- **What `json.loads` returns** for a row with white space behind it. -/
theorem loads_rowText {n : Nat} (hheld : (Number.int n).Held) (hr : r.all isSpace = true) : ∃ y,
    loads (rowText cid (.int n) ++ r) = some (rowJson cid y) ∧
      (∀ m : Int, y = .int m → ∃ k : Nat, m = k ∧ numStr (.int n) = natStr k) ∧
        ∀ k : Nat, numStr (.int n) = natStr k → y = .int k := by
  obtain ⟨y, hread, hint, hdecimal⟩ := @loadsNumber_numStr r n hheld
  refine ⟨y, ?_, hint, hdecimal⟩
  obtain ⟨u, t, htext, hu⟩ := numStr_head hheld
  obtain ⟨body, hbody, hcid⟩ := readsBack_stringify cid
  have hlen : 3 ≤ (rowText cid (.int n) ++ r).length := by
    rw [rowText_append, List.length_cons, List.length_cons, List.length_append, List.length_cons]
    omega
  obtain ⟨fuel, hfuel⟩ := Nat.exists_eq_add_of_le' hlen
  have hbytes : Loads.readValue (fuel + 1) (numStr (.int n) ++ unit '}' :: r) = some (.num y, unit '}' :: r) := by
    rw [htext, List.cons_append] at hread ⊢
    rw [Loads.readValue_number hu, hread]
  have hlast : Loads.readMembers (fuel + 2) (unit '"' :: (js "bytes\"" ++ unit ':' ::
      (numStr (.int n) ++ unit '}' :: r))) = some ([(js "bytes", .num y)], r) :=
    Loads.readMembers_last (readString_key "bytes" (by decide) _) hbytes
  have hstr : Loads.readValue (fuel + 2) (stringify cid ++ unit ',' :: unit '"' ::
      (js "bytes\"" ++ unit ':' :: (numStr (.int n) ++ unit '}' :: r))) =
      some (.str cid, unit ',' :: unit '"' :: (js "bytes\"" ++ unit ':' :: (numStr (.int n) ++ unit '}' :: r))) := by
    rw [hbody, List.cons_append]
    exact Loads.readValue_string (hcid _) (fuel + 1)
  have hobj : Loads.readValue (fuel + 4) (rowText cid (.int n) ++ r) = some (rowJson cid y, r) := by
    rw [rowText_append]
    exact Loads.readValue_obj (by unfold Starts; decide)
      (Loads.readMembers_next (readString_key "cid" (by decide) _) hstr hlast)
  rw [loads, hfuel, hobj]
  exact if_pos hr

end Lake
