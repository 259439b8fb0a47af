import Yataverse.GraphHead.Actions
import Yataverse.Js.Utf8
import Mathlib.Data.List.Lex

/-!
# Canonical JSON and the Python writer

Documents are to be byte-identical to what the Python writer made, for which
`json.dumps(v, sort_keys=True, separators=(",", ":"))` is the definition.

- `pyStr`, `dumps`: what Python writes: all but printable ASCII escaped, the keys
  sorted by code point.
- **`canonicalStr_eq_dumps`**: for well-formed Unicode, `canonicalStr` writes the same
  exactly when no string holds a DEL and no object has keys that code units and code
  points order differently.
-/

namespace GraphHead

open Js

/-! ## What Python writes -/

/-- A code point inside quotes, as `json.encoder.py_encode_basestring_ascii` has it. -/
def pyChar (n : Nat) : JsString :=
  if n = 0x22 then js "\\\""
  else if n = 0x5c then js "\\\\"
  else if n = 8 then js "\\b"
  else if n = 9 then js "\\t"
  else if n = 10 then js "\\n"
  else if n = 12 then js "\\f"
  else if n = 13 then js "\\r"
  else if 0x20 ≤ n ∧ n ≤ 0x7e then [n.toUInt16]
  else (unitsOf n).flatMap unicodeEscape

/-- A string, as its code points are written. -/
def pyStr (s : JsString) : JsString := unit '"' :: (points s).flatMap pyChar ++ [unit '"']

/-- `str` compares code points. -/
def pointsLe (a b : JsString) : Prop := points a ≤ points b

instance : DecidableRel pointsLe := fun a b => inferInstanceAs (Decidable (points a ≤ points b))

/-- `json.dumps(v, sort_keys=True, separators=(",", ":"))`. -/
def dumps (v : Json) : JsString := Json.print pyStr (Json.sortKeys pointsLe v)

/-! ## Strings -/

/-- No DEL: U+007F is printable neither to Python nor escaped here. -/
def NoDelete (s : JsString) : Prop := 0x7f ∉ s

instance : DecidablePred NoDelete := fun s => inferInstanceAs (Decidable (0x7f ∉ s))

theorem pyChar_ascii : ∀ n < 0x80, n ≠ 0x7f → pyChar n = quoteUnit n.toUInt16 := by
  decide +kernel

theorem pyChar_of_le {n : Nat} (h : 0x80 ≤ n) : pyChar n = (unitsOf n).flatMap unicodeEscape := by
  unfold pyChar
  rw [if_neg (by omega), if_neg (by omega), if_neg (by omega), if_neg (by omega),
    if_neg (by omega), if_neg (by omega), if_neg (by omega), if_neg (by omega)]

theorem pyChar_toNat {u : UInt16} (hd : u ≠ 0x7f) : pyChar u.toNat = jsonUnit u := by
  have hu : u.toNat < 0x10000 := u.toNat_lt
  have hself : u.toNat.toUInt16 = u := by simp
  unfold jsonUnit
  split
  case isTrue h =>
    rw [pyChar_of_le (by simpa [UInt16.le_iff_toNat_le] using h), unitsOf, if_pos hu, hself]
    simp
  case isFalse h =>
    have hn : u.toNat ≠ 0x7f := fun h => hd (UInt16.toNat_inj.mp h)
    rw [pyChar_ascii _ (by simpa [UInt16.le_iff_toNat_le] using h) hn, hself]

/-- A surrogate pair is one code point, written as the pair. -/
theorem pyChar_pair {u v : UInt16} (hu : isHigh u = true) (hv : isLow v = true) :
    pyChar (0x10000 + (u.toNat - 0xd800) * 0x400 + (v.toNat - 0xdc00)) =
      jsonUnit u ++ jsonUnit v := by
  have h₁ := surrogate_not_ascii (.inl hu)
  have h₂ := surrogate_not_ascii (.inr hv)
  simp only [isHigh, isLow, Bool.and_eq_true, decide_eq_true_eq, UInt16.le_iff_toNat_le,
    UInt16.reduceToNat] at hu hv
  rw [pyChar_of_le (by omega), unitsOf, if_neg (by omega)]
  have hhi : (0xd800 + (0x10000 + (u.toNat - 0xd800) * 0x400 + (v.toNat - 0xdc00) - 0x10000) /
      0x400).toUInt16 = u := by
    rw [show 0xd800 + (0x10000 + (u.toNat - 0xd800) * 0x400 + (v.toNat - 0xdc00) - 0x10000) /
      0x400 = u.toNat by omega]
    simp
  have hlo : (0xdc00 + (0x10000 + (u.toNat - 0xd800) * 0x400 + (v.toNat - 0xdc00) - 0x10000) %
      0x400).toUInt16 = v := by
    rw [show 0xdc00 + (0x10000 + (u.toNat - 0xd800) * 0x400 + (v.toNat - 0xdc00) - 0x10000) %
      0x400 = v.toNat by omega]
    simp
  rw [hhi, hlo]
  simp [jsonUnit, h₁, h₂]

theorem flatMap_pyChar : ∀ {s : JsString}, WellFormed s → NoDelete s →
    (points s).flatMap pyChar = s.flatMap jsonUnit
  | [], _, _ => rfl
  | [u], hw, hd => by
    simp [points, lonePoint_eq hw, pyChar_toNat (u := u) fun h => hd (by simp [h])]
  | u :: v :: rest, hw, hd => by
    rw [WellFormed] at hw
    rw [points]
    split
    case isTrue h =>
      rw [if_pos h] at hw
      obtain ⟨hu, hv⟩ := Bool.and_eq_true_iff.mp h
      rw [List.flatMap_cons, pyChar_pair hu hv, flatMap_pyChar hw fun h => hd (by simp [h])]
      simp
    case isFalse h =>
      rw [if_neg h] at hw
      rw [List.flatMap_cons, List.flatMap_cons, lonePoint_eq hw.1,
        pyChar_toNat (u := u) fun h => hd (by simp [h]),
        flatMap_pyChar hw.2 fun h => hd (List.mem_cons_of_mem _ h)]

theorem pyStr_eq {s : JsString} (hw : WellFormed s) (hd : NoDelete s) : pyStr s = jsonStr s := by
  rw [pyStr, flatMap_pyChar hw hd, jsonStr_eq]

theorem unicodeEscape_printable (u : UInt16) : ∀ w ∈ unicodeEscape u, 0x20 ≤ w ∧ w ≤ 0x7e := by
  have hex : ∀ n < 16, 0x20 ≤ hexDigit n ∧ hexDigit n ≤ 0x7e := by decide
  have hu : u.toNat < 65536 := u.toNat_lt
  simp only [unicodeEscape, hex4, List.forall_mem_cons]
  exact ⟨by decide, by decide, hex _ (by omega), hex _ (by omega), hex _ (by omega),
    hex _ (by omega), fun _ h => absurd h List.not_mem_nil⟩

theorem pyChar_printable (n : Nat) : Printable (pyChar n) := by
  unfold pyChar
  split_ifs with h₁ h₂ h₃ h₄ h₅ h₆ h₇ h
  · decide
  · decide
  · decide
  · decide
  · decide
  · decide
  · decide
  · obtain ⟨h, h'⟩ := h
    simp only [Printable, List.mem_singleton, forall_eq, UInt16.le_iff_toNat_le, UInt16.reduceToNat,
      Nat.toUInt16_eq, UInt16.toNat_ofNat']
    omega
  · intro u hu
    obtain ⟨w, -, hw⟩ := List.mem_flatMap.mp hu
    exact unicodeEscape_printable w u hw

theorem pyStr_printable (s : JsString) : Printable (pyStr s) := by
  rw [Printable, pyStr, List.cons_append, List.forall_mem_cons, List.forall_mem_append]
  refine ⟨by decide, fun u hu => ?_, (by decide : Printable [unit '"'])⟩
  obtain ⟨n, -, hn⟩ := List.mem_flatMap.mp hu
  exact pyChar_printable n u hn

theorem noDelete_of_jsonStr {s : JsString} (h : Printable (jsonStr s)) :
    NoDelete s := by
  intro hd
  refine absurd (h 0x7f ?_).2 (by decide)
  rw [jsonStr_eq]
  refine List.mem_append_left _ (List.mem_cons_of_mem _ (List.mem_flatMap.mpr ⟨0x7f, hd, ?_⟩))
  decide

/-! ## Documents -/

instance : Std.Total pointsLe := ⟨fun a b => le_total (points a) (points b)⟩

instance : IsTrans JsString pointsLe := ⟨fun _ _ _ h h' => le_trans h h'⟩

/-- Python writes printable ASCII. -/
theorem dumps_printable {v : Json} (h : v.Safe) : Printable (dumps v) :=
  Json.forall_mem_print (fun _ hl hu => ⟨hl, hu⟩) pyStr_printable h.sortKeys

/-- **The Python writer**: for a value of well-formed Unicode, `canonicalStr` writes what
Python does exactly when no string or key holds a DEL and the keys of every object are
in the order of their code points. -/
theorem canonicalStr_eq_dumps (v : Plain) (hu : v.val.Strings WellFormed) :
    canonicalStr v.val = .ok (dumps v.val) ↔
      v.val.Strings NoDelete ∧ v.val.KeysInOrder pointsLe := by
  have agree : ∀ {w : Json}, w.Strings WellFormed → w.Strings NoDelete →
      Json.print pyStr w = Json.print jsonStr w := fun hw hd =>
    (hw.imp₂ (fun _ => pyStr_eq) hd).print_eq
  rw [canonicalStr_safe v.safe, dumps]
  constructor
  · intro h
    have h := Except.ok.inj h
    have hd : v.val.Strings NoDelete := by
      refine (Json.strings_of_print ?_).imp fun s => noDelete_of_jsonStr
      rw [h]
      exact dumps_printable v.safe
    refine ⟨hd, Json.sortKeys_eq_self.mp ?_⟩
    rw [agree hu.sortKeys hd.sortKeys] at h
    exact (Json.print_injective readsBack_jsonStr v.safe v.safe.sortKeys h).symm
  · rintro ⟨hd, ho⟩
    rw [ho.sortKeys_eq, agree hu hd]

/-- A value with a key outside ASCII, read alike by both. -/
theorem canonicalStr_eq_dumps_sample :
    canonicalStr (.obj [(js "a", .null), ([0xe9], .str [0xd83d, 0xde00])]) =
      .ok (dumps (.obj [(js "a", .null), ([0xe9], .str [0xd83d, 0xde00])])) := by
  refine (canonicalStr_eq_dumps ⟨.obj [(js "a", .null), ([0xe9], .str [0xd83d, 0xde00])],
    ⟨?_, trivial, trivial, trivial⟩, trivial, trivial, trivial⟩ ?_).mpr ⟨?_, ?_, trivial, trivial, trivial⟩
  · show List.Pairwise (· < ·) [js "a", [0xe9]]
    decide
  · exact ⟨⟨by decide, trivial⟩, ⟨by decide, show WellFormed _ by decide⟩, trivial⟩
  · exact ⟨⟨by decide, trivial⟩, ⟨by decide, show NoDelete _ by decide⟩, trivial⟩
  · decide

/-- A DEL stands as it is; Python escapes it. -/
theorem canonicalStr_delete :
    ¬ ∀ v : Plain, v.val.Strings WellFormed → canonicalStr v.val = .ok (dumps v.val) := by
  intro h
  have := (h ⟨.str [0x7f], trivial, trivial⟩ (show WellFormed _ by decide))
  exact absurd (Except.ok.inj this) (by decide)

end GraphHead
