import Yataverse.Fallible.Rules
import Yataverse.GraphHead.Canonical

/-!
# Documents and their CIDs

A document's CID is its identity on inga: the bytes say which value they were made
from, and the CID says which bytes.

- **`parseJson_canonical`**: canonical JSON reads back as the value it was made from.
- **`rawCid_injective`**: documents have the same CID only when they are the same bytes.
-/

namespace GraphHead

open Js Fallible

/-! ## Canonical JSON reads back -/

theorem hexDigit_ascii {n : Nat} (h : n < 16) : hexDigit n < 0x80 := by
  interval_cases n <;> decide

theorem unicodeEscape_ascii (u : UInt16) : Ascii (unicodeEscape u) := by
  have hu : u.toNat < 65536 := u.toNat_lt
  intro w hw
  simp only [unicodeEscape, hex4, List.mem_cons, List.not_mem_nil, or_false] at hw
  rcases hw with rfl | rfl | rfl | rfl | rfl | rfl
  · decide
  · decide
  · exact hexDigit_ascii (by omega)
  all_goals exact hexDigit_ascii (Nat.mod_lt _ (by decide))

theorem escapeNonAscii_append (s t : JsString) :
    escapeNonAscii (s ++ t) = escapeNonAscii s ++ escapeNonAscii t := by
  simp [escapeNonAscii]

theorem escapeNonAscii_ascii {s : JsString} (h : Ascii s) : escapeNonAscii s = s := by
  induction s with
  | nil => rfl
  | cons u s ih =>
    have hu : ¬ 0x80 ≤ u := by
      rw [UInt16.not_le]
      exact h u (by simp)
    have := ih fun w hw => h w (by simp [hw])
    rw [escapeNonAscii] at this ⊢
    rw [List.flatMap_cons, if_neg hu, this]
    rfl

/-- A unit of a canonical string. -/
def jsonUnit (u : UInt16) : JsString := if 0x80 ≤ u then unicodeEscape u else quoteUnit u

theorem quoteUnit_ascii {u : UInt16} (h : u < 0x80) : Ascii (quoteUnit u) := by
  unfold quoteUnit
  split_ifs
  · decide
  · decide
  · decide
  · decide
  · decide
  · decide
  · decide
  · exact unicodeEscape_ascii u
  · intro w hw
    obtain rfl : w = u := by simpa using hw
    exact h

theorem jsonUnit_ascii (u : UInt16) : Ascii (jsonUnit u) := by
  unfold jsonUnit
  split
  · exact unicodeEscape_ascii u
  · rename_i h
    exact quoteUnit_ascii (UInt16.not_le.mp h)

theorem quoteUnit_of_ne {u : UInt16} (h : 0x80 ≤ u) :
    quoteUnit u = [u] ∨ quoteUnit u = unicodeEscape u := by
  have key : ∀ w : UInt16, w < 0x80 → u ≠ w := by
    rintro w hw rfl
    exact absurd h (UInt16.not_le.mpr hw)
  unfold quoteUnit
  rw [if_neg (key _ (by decide)), if_neg (key _ (by decide)), if_neg (key _ (by decide)),
    if_neg (key _ (by decide)), if_neg (key _ (by decide)), if_neg (key _ (by decide)),
    if_neg (key _ (by decide))]
  split
  · exact .inr rfl
  · exact .inl rfl

theorem escapeNonAscii_single {u : UInt16} (h : 0x80 ≤ u) :
    escapeNonAscii [u] = unicodeEscape u := by
  simp [escapeNonAscii, h]

theorem escapeNonAscii_quoteUnit (u : UInt16) : escapeNonAscii (quoteUnit u) = jsonUnit u := by
  unfold jsonUnit
  split
  · rename_i h
    rcases quoteUnit_of_ne h with hq | hq <;> rw [hq]
    · exact escapeNonAscii_single h
    · exact escapeNonAscii_ascii (unicodeEscape_ascii u)
  · rename_i h
    exact escapeNonAscii_ascii (quoteUnit_ascii (UInt16.not_le.mp h))

theorem surrogate_not_ascii {u : UInt16} (h : isHigh u = true ∨ isLow u = true) : 0x80 ≤ u := by
  simp only [isHigh, isLow, Bool.and_eq_true, decide_eq_true_eq, UInt16.le_iff_toNat_le] at h ⊢
  have h₁ : (0xd800 : UInt16).toNat = 0xd800 := rfl
  have h₂ : (0xdc00 : UInt16).toNat = 0xdc00 := rfl
  have h₃ : (0x80 : UInt16).toNat = 0x80 := rfl
  omega

theorem escapeNonAscii_quoteUnits : ∀ s, escapeNonAscii (quoteUnits s) = s.flatMap jsonUnit
  | [] => rfl
  | [u] => by simp [quoteUnits, escapeNonAscii_quoteUnit]
  | u :: v :: rest => by
    rw [quoteUnits]
    split
    case isTrue h =>
      obtain ⟨hu, hv⟩ := Bool.and_eq_true_iff.mp h
      have hu := surrogate_not_ascii (.inl hu)
      have hv := surrogate_not_ascii (.inr hv)
      rw [show u :: v :: quoteUnits rest = [u] ++ ([v] ++ quoteUnits rest) from rfl,
        escapeNonAscii_append, escapeNonAscii_append, escapeNonAscii_single hu,
        escapeNonAscii_single hv, escapeNonAscii_quoteUnits rest]
      simp [jsonUnit, hu, hv]
    case isFalse h =>
      rw [escapeNonAscii_append, escapeNonAscii_quoteUnit, escapeNonAscii_quoteUnits (v :: rest)]
      rfl

theorem jsonStr_eq (s : JsString) : jsonStr s = unit '"' :: s.flatMap jsonUnit ++ [unit '"'] := by
  rw [jsonStr, stringify, escapeNonAscii_append,
    show unit '"' :: quoteUnits s = [unit '"'] ++ quoteUnits s from rfl, escapeNonAscii_append,
    escapeNonAscii_quoteUnits]
  rfl

theorem readString_jsonUnits (s t : JsString) :
    Json.readString (s.flatMap jsonUnit ++ unit '"' :: t) = some (s, t) := by
  induction s with
  | nil => exact Json.readString_close t
  | cons u s ih =>
    rw [List.flatMap_cons, List.append_assoc, jsonUnit]
    split
    · rw [Json.readString_unicodeEscape, ih]
      rfl
    · rw [Json.readString_quoteUnit, ih]
      rfl

theorem readsBack_jsonStr : Json.ReadsBack jsonStr := fun s =>
  ⟨s.flatMap jsonUnit ++ [unit '"'], jsonStr_eq s, fun r => by
    simpa using readString_jsonUnits s r⟩

theorem jsonStr_ascii (s : JsString) : Ascii (jsonStr s) := by
  rw [jsonStr_eq]
  intro u hu
  simp only [List.mem_append, List.mem_cons, List.mem_flatMap, List.not_mem_nil, or_false] at hu
  rcases hu with (rfl | ⟨w, -, hw⟩) | rfl
  · decide
  · exact jsonUnit_ascii w u hw
  · decide

theorem check_eq_ok {c : Prop} [Decidable c] {e : Err} : check c e = .ok () ↔ c := by
  unfold check
  split <;> simp_all

/-- A sequence of a check and the rest. -/
theorem check_bind_eq_ok {α : Type} {c : Prop} [Decidable c] {e : Err} {k : Unit → Except Err α}
    {r : α} : (check c e >>= k) = .ok r ↔ c ∧ k () = .ok r := by
  rw [bind_eq_ok]
  constructor
  · rintro ⟨⟨⟩, h, hk⟩
    exact ⟨check_eq_ok.mp h, hk⟩
  · rintro ⟨h, hk⟩
    exact ⟨(), check_eq_ok.mpr h, hk⟩

mutual

/-- `canonicalStr` prints, or refuses. -/
theorem canonicalStr_eq : ∀ {v : Json} {t : JsString},
    canonicalStr v = .ok t → Json.print jsonStr v = t
  | .null, _, h => Except.ok.inj h
  | .bool _, _, h => Except.ok.inj h
  | .num (.int _), _, h => Except.ok.inj h
  | .num (.frac _), _, h => nomatch h
  | .num (.inf _), _, h => nomatch h
  | .str _, _, h => Except.ok.inj h
  | .arr xs, t, h => by
    obtain ⟨s, hs, h⟩ := bind_eq_ok.mp h
    rw [Json.print, canonicalStrs_eq hs]
    exact Except.ok.inj h
  | .obj kvs, t, h => by
    obtain ⟨s, hs, h⟩ := bind_eq_ok.mp h
    rw [Json.print, canonicalEntries_eq hs]
    exact Except.ok.inj h

theorem canonicalStrs_eq : ∀ {xs : List Json} {t : JsString},
    canonicalStrs xs = .ok t → Json.printList jsonStr xs = t
  | [], _, h => Except.ok.inj h
  | [x], _, h => canonicalStr_eq h
  | x :: y :: xs, t, h => by
    obtain ⟨s, hs, h⟩ := bind_eq_ok.mp h
    obtain ⟨s', hs', h⟩ := bind_eq_ok.mp h
    rw [Json.printList, canonicalStr_eq hs, canonicalStrs_eq hs']
    exact Except.ok.inj h

theorem canonicalEntries_eq : ∀ {kvs : List (JsString × Json)} {t : JsString},
    canonicalEntries kvs = .ok t → Json.printEntries jsonStr kvs = t
  | [], _, h => Except.ok.inj h
  | [e], t, h => by
    obtain ⟨s, hs, h⟩ := bind_eq_ok.mp h
    rw [Json.printEntries, canonicalStr_eq hs]
    exact Except.ok.inj h
  | e :: f :: kvs, t, h => by
    obtain ⟨s, hs, h⟩ := bind_eq_ok.mp h
    obtain ⟨s', hs', h⟩ := bind_eq_ok.mp h
    rw [Json.printEntries, canonicalStr_eq hs, canonicalEntries_eq hs']
    exact Except.ok.inj h

end

theorem print_ascii {v : Json} (h : v.Safe) : Ascii (Json.print jsonStr v) :=
  Json.forall_mem_print (fun _ _ hu => UInt16.lt_of_le_of_lt hu (by decide)) jsonStr_ascii h

/-- **Canonical JSON reads back**: the canonical text of a well-formed value whose
numbers are safe integers parses as the value. -/
theorem parseJson_canonical {v : Json} {buf : Bytes} (hw : v.WF) (hs : v.Safe)
    (h : canonical v = .ok buf) : parseJson buf = some v := by
  obtain ⟨t, ht, rfl⟩ := map_eq_ok.mp h
  rw [← canonicalStr_eq ht, parseJson, ofUtf8_utf8 (print_ascii hs)]
  exact Json.parse_print readsBack_jsonStr hw hs

section Mirror

variable (graph : JsString) (seq : Number) (prev head : Json)

@[simp] theorem mirrorValue_graph :
    (mirrorValue graph seq prev head).get (js "graph") = .str graph := rfl

@[simp] theorem mirrorValue_head : (mirrorValue graph seq prev head).get (js "head") = head := rfl

@[simp] theorem mirrorValue_prev : (mirrorValue graph seq prev head).get (js "prev") = prev := rfl

@[simp] theorem mirrorValue_schema :
    (mirrorValue graph seq prev head).get (js "schema") = .str schema := rfl

@[simp] theorem mirrorValue_seq : (mirrorValue graph seq prev head).get (js "seq") = .num seq := rfl

variable {graph seq prev head}

theorem mirrorValue_wf (hp : prev.WF) (hh : head.WF) : (mirrorValue graph seq prev head).WF := by
  refine ⟨?_, trivial, hh, hp, trivial, trivial, trivial⟩
  show List.Pairwise (· < ·) [js "graph", js "head", js "prev", js "schema", js "seq"]
  decide

theorem mirrorValue_safe {n : Nat} (hn : n ≤ 2 ^ 53) (hp : prev.Safe) (hh : head.Safe) :
    (mirrorValue graph (.int n) prev head).Safe :=
  ⟨trivial, hh, hp, trivial, ⟨n, rfl, by simpa using hn⟩, trivial⟩

end Mirror

/-! ## CIDs -/

theorem byteBits_length (b : UInt8) : (byteBits b).length = 8 := rfl

theorem byteBits_injective : Function.Injective byteBits := by
  intro a b h
  apply UInt8.toNat_inj.mp
  have ha : a.toNat < 256 := a.toNat_lt
  have hb : b.toNat < 256 := b.toNat_lt
  apply Nat.eq_of_testBit_eq
  intro i
  by_cases hi : i < 8
  · have := (List.map_inj_left.mp h) i (by simpa using hi)
    exact this
  · rw [Nat.testBit_lt_two_pow (by calc
      a.toNat < 2 ^ 8 := ha
      _ ≤ 2 ^ i := Nat.pow_le_pow_right (by decide) (by omega)),
      Nat.testBit_lt_two_pow (by calc
      b.toNat < 2 ^ 8 := hb
      _ ≤ 2 ^ i := Nat.pow_le_pow_right (by decide) (by omega))]

theorem flatMap_byteBits_length (buf : Bytes) : (buf.flatMap byteBits).length = 8 * buf.length := by
  induction buf with
  | nil => rfl
  | cons b buf ih =>
    rw [List.flatMap_cons, List.length_append, ih, byteBits_length, List.length_cons]
    omega

theorem flatMap_byteBits_injective : ∀ {a b : Bytes},
    a.flatMap byteBits = b.flatMap byteBits → a = b
  | [], [], _ => rfl
  | [], y :: b, h => by
    have := congrArg List.length h
    simp [byteBits_length] at this
    omega
  | x :: a, [], h => by
    have := congrArg List.length h
    simp [byteBits_length] at this
  | x :: a, y :: b, h => by
    rw [List.flatMap_cons, List.flatMap_cons] at h
    obtain ⟨h₁, h₂⟩ := List.append_inj h rfl
    rw [byteBits_injective h₁, flatMap_byteBits_injective h₂]

theorem padded_length (bits : List Bool) :
    bits.length ≤ (padded bits).length ∧ (padded bits).length < bits.length + 5 ∧
      (padded bits).length % 5 = 0 := by
  simp only [padded, List.length_append, List.length_replicate]
  omega

/-- Bytes can be told from their padded bits: the padding is less than a byte. -/
theorem padded_injective {a b : Bytes}
    (h : padded (a.flatMap byteBits) = padded (b.flatMap byteBits)) : a = b := by
  have hl := congrArg List.length h
  have ha := padded_length (a.flatMap byteBits)
  have hb := padded_length (b.flatMap byteBits)
  rw [flatMap_byteBits_length] at ha hb
  have hlen : (a.flatMap byteBits).length = (b.flatMap byteBits).length := by
    rw [flatMap_byteBits_length, flatMap_byteBits_length]
    omega
  exact flatMap_byteBits_injective (List.append_inj h hlen).1

theorem ofBits_injective : ∀ g h : List Bool, g.length = 5 → h.length = 5 →
    b32.getD (ofBits g) 0 = b32.getD (ofBits h) 0 → g = h
  | [a, b, c, d, e], [a', b', c', d', e'], _, _ => by
    revert a b c d e a' b' c' d' e'
    decide +kernel

theorem partition5_map_injective : ∀ {x y : List Bool}, x.length % 5 = 0 → y.length % 5 = 0 →
    (partition5 x).map (fun g => b32.getD (ofBits g) 0) =
      (partition5 y).map (fun g => b32.getD (ofBits g) 0) → x = y
  | [], [], _, _, _ => rfl
  | a :: b :: c :: d :: e :: x, a' :: b' :: c' :: d' :: e' :: y, hx, hy, h => by
    simp only [partition5, List.map_cons, List.cons.injEq] at h
    obtain ⟨h₁, h₂⟩ := h
    have h₁ := ofBits_injective _ _ rfl rfl h₁
    have h₂ := partition5_map_injective (by simp at hx; omega) (by simp at hy; omega) h₂
    simp only [List.cons.injEq, and_true] at h₁
    obtain ⟨rfl, rfl, rfl, rfl, rfl⟩ := h₁
    rw [h₂]
  | [], _ :: _ :: _ :: _ :: _ :: _, _, _, h => by simp [partition5] at h
  | _ :: _ :: _ :: _ :: _ :: _, [], _, _, h => by simp [partition5] at h

theorem isB32_range {u : UInt16} (h : isB32 u = true) : 50 ≤ u.toNat ∧ u.toNat ≤ 122 := by
  simp only [isB32, inRange, Bool.or_eq_true, Bool.and_eq_true, decide_eq_true_eq,
    UInt16.le_iff_toNat_le] at h
  have ha : (unit 'a').toNat = 97 := rfl
  have hz : (unit 'z').toNat = 122 := rfl
  have h2 : (unit '2').toNat = 50 := rfl
  have h7 : (unit '7').toNat = 55 := rfl
  omega

/-- A base32 text holds base32 digits. -/
theorem isB32_b32Encode (buf : Bytes) : ∀ u ∈ b32Encode buf, isB32 u = true := by
  have hdigit : ∀ g : List Bool, g.length = 5 → isB32 (b32.getD (ofBits g) 0) = true
    | [a, b, c, d, e], _ => by
      revert a b c d e
      decide +kernel
  have hparts : ∀ bits, ∀ g ∈ partition5 bits, g.length = 5 := by
    intro bits
    induction bits using partition5.induct with
    | case1 a b c d e r ih =>
      intro g hg
      rcases List.mem_cons.mp hg with rfl | hg
      · rfl
      · exact ih g hg
    | case2 bits h =>
      intro g hg
      rw [partition5.eq_def] at hg
      split at hg
      · exact (h _ _ _ _ _ _ rfl).elim
      · cases hg
  intro u hu
  obtain ⟨g, hg, rfl⟩ := List.mem_map.mp hu
  exact hdigit g (hparts _ g hg)

theorem b32Encode_injective : Function.Injective b32Encode := fun _ _ h =>
  padded_injective (partition5_map_injective (padded_length _).2.2 (padded_length _).2.2 h)

/-- **Content addressing**: with a hash without collisions, equal CIDs mean equal bytes. -/
theorem rawCid_injective {nc : NodeCrypto} (hsha : Function.Injective nc.sha256) :
    Function.Injective (rawCid nc) := by
  intro a b h
  have h := b32Encode_injective (List.cons.inj h).2
  exact hsha (List.append_cancel_left h)

end GraphHead
