import Yataverse.Js.Readers
import Yataverse.Js.Decode
import Yataverse.Js.Utf8

/-!
# What `json.loads` makes of bytes

- `detectEncoding`: `detect_encoding` of Python's `json`.
- `loadBytes`, `loadUnits`, `loadPoints`: UTF-8, UTF-16 and UTF-32 where `surrogatepass` lets surrogates through.
- `jsonText`: the text of the bytes.
- **`similar_jsonText`**: what Node decodes, with U+FFFD for what is ill-formed, is similar.
-/

namespace Js

open Json

/-! ## Encodings -/

inductive Encoding
  | utf8
  | utf8Sig
  | utf16 (big : Bool)
  | utf32 (big : Bool)
deriving DecidableEq

/-- `detect_encoding`, and how many bytes the mark takes. -/
def detectEncoding (b : Bytes) : Encoding × Nat :=
  if [0x00, 0x00, 0xfe, 0xff].isPrefixOf b then (.utf32 true, 4)
  else if [0xff, 0xfe, 0x00, 0x00].isPrefixOf b then (.utf32 false, 4)
  else if [0xfe, 0xff].isPrefixOf b then (.utf16 true, 2)
  else if [0xff, 0xfe].isPrefixOf b then (.utf16 false, 2)
  else if [0xef, 0xbb, 0xbf].isPrefixOf b then (.utf8Sig, 3)
  else
    match b with
    | [b₀, b₁] =>
      if b₀ = 0 then (.utf16 true, 0)
      else if b₁ = 0 then (.utf16 false, 0)
      else (.utf8, 0)
    | b₀ :: b₁ :: b₂ :: b₃ :: _ =>
      if b₀ = 0 then (if b₁ ≠ 0 then (.utf16 true, 0) else (.utf32 true, 0))
      else if b₁ = 0 then (if b₂ ≠ 0 ∨ b₃ ≠ 0 then (.utf16 false, 0) else (.utf32 false, 0))
      else (.utf8, 0)
    | _ => (.utf8, 0)

/-! ## Decoding -/

/-- The first byte of a code point, where a surrogate is one. -/
def loadFirst (b : Nat) : Option (Option Partial × JsString) :=
  if b < 0x80 then some (none, [b.toUInt16])
  else if 0xc2 ≤ b && b ≤ 0xdf then some (some ⟨1, b - 0xc0, 0x80, 0xbf⟩, [])
  else if b = 0xe0 then some (some ⟨2, 0, 0xa0, 0xbf⟩, [])
  else if 0xe1 ≤ b && b ≤ 0xef then some (some ⟨2, b - 0xe0, 0x80, 0xbf⟩, [])
  else if b = 0xf0 then some (some ⟨3, 0, 0x90, 0xbf⟩, [])
  else if b = 0xf4 then some (some ⟨3, 4, 0x80, 0x8f⟩, [])
  else if 0xf1 ≤ b && b ≤ 0xf3 then some (some ⟨3, b - 0xf0, 0x80, 0xbf⟩, [])
  else none

/-- One byte: `none` is a `UnicodeDecodeError`. -/
def loadByte (st : Option Partial) (b : Nat) : Option (Option Partial × JsString) :=
  match st with
  | none => loadFirst b
  | some p => if p.lo ≤ b && b ≤ p.hi then some (readByte (some p) b) else none

/-- UTF-8. -/
def loadBytes : Option Partial → Bytes → Option JsString
  | none, [] => some []
  | some _, [] => none
  | st, b :: bs => (loadByte st b.toNat).bind fun (st', out) => (loadBytes st' bs).map (out ++ ·)

/-- UTF-16. -/
def loadUnits (big : Bool) : Bytes → Option JsString
  | [] => some []
  | [_] => none
  | a :: b :: bs =>
    let n := if big then a.toNat * 0x100 + b.toNat else b.toNat * 0x100 + a.toNat
    (loadUnits big bs).map (n.toUInt16 :: ·)

/-- UTF-32. -/
def loadPoints (big : Bool) : Bytes → Option JsString
  | [] => some []
  | a :: b :: c :: d :: bs =>
    let n :=
      if big then ((a.toNat * 0x100 + b.toNat) * 0x100 + c.toNat) * 0x100 + d.toNat
      else ((d.toNat * 0x100 + c.toNat) * 0x100 + b.toNat) * 0x100 + a.toNat
    if n < 0x110000 then (loadPoints big bs).map (unitsOf n ++ ·) else none
  | _ => none

/-- `b.decode(detect_encoding(b), "surrogatepass")` -/
def jsonText (b : Bytes) : Option JsString :=
  let (encoding, mark) := detectEncoding b
  match encoding with
  | .utf8 | .utf8Sig => loadBytes none (b.drop mark)
  | .utf16 big => loadUnits big (b.drop mark)
  | .utf32 big => loadPoints big (b.drop mark)

/-! ## UTF-8 -/

variable {ends : JsString → Prop} {st : Option Partial} {b n : Nat} {bs : Bytes} {s t w : JsString}

theorem Similar.common (w : JsString) (h : Similar ends s t) : Similar ends (w ++ s) (w ++ t) := by
  induction w with
  | nil => exact h
  | cons u w ih => exact .same u ih

theorem Similar.mono {ends' : JsString → Prop} (hends : ∀ s, ends s → ends' s) (h : Similar ends s t) : Similar ends' s t := by
  induction h with
  | stop he => exact .stop (hends _ he)
  | same u more ih => exact .same u ih
  | lone hu more ih => exact .lone hu ih

theorem loadBytes_cons {b : UInt8} : loadBytes st (b :: bs) = some s ↔
    ∃ st' out rest, loadByte st b.toNat = some (st', out) ∧ loadBytes st' bs = some rest ∧ s = out ++ rest := by
  have heq : loadBytes st (b :: bs) = (loadByte st b.toNat).bind fun p => (loadBytes p.1 bs).map (p.2 ++ ·) := by
    cases st <;> rfl
  rw [heq, Option.bind_eq_some_iff]
  constructor
  · rintro ⟨⟨st', out⟩, hbyte, h⟩
    obtain ⟨rest, hrest, rfl⟩ := Option.map_eq_some_iff.mp h
    exact ⟨st', out, rest, hbyte, hrest, rfl⟩
  · rintro ⟨st', out, rest, hbyte, hrest, rfl⟩
    exact ⟨(st', out), hbyte, Option.map_eq_some_iff.mpr ⟨rest, hrest, rfl⟩⟩

/-- Behind the first byte of a surrogate, Node does not go on as Python does. -/
theorem loadFirst_eq (h : b ≠ 0xed) {p : Option Partial × JsString} (hb : loadFirst b = some p) : readFirst b = p := by
  unfold loadFirst at hb
  unfold readFirst
  rw [if_neg h]
  split_ifs at hb ⊢ <;> exact Option.some.inj hb

theorem readFirst_continuation (hlow : 0x80 ≤ b) (hhigh : b ≤ 0xbf) : readFirst b = (none, [0xfffd]) := by
  have hrange {lo hi : Nat} (h : b < lo) : ¬ (decide (lo ≤ b) && decide (b ≤ hi)) = true := by
    rw [Bool.and_eq_true, decide_eq_true_iff]
    omega
  rw [readFirst, if_neg (by omega), if_neg (hrange (by omega)), if_neg (by omega), if_neg (by omega),
    if_neg (hrange (by omega)), if_neg (by omega), if_neg (by omega), if_neg (hrange (by omega))]

theorem isSurrogate_unitsOf (h : 0xd800 ≤ n) (h' : n ≤ 0xdfff) : ∃ u, unitsOf n = [u] ∧ isSurrogate u = true := by
  refine ⟨n.toUInt16, if_pos (by omega), ?_⟩
  have hn : n.toUInt16.toNat = n := by
    rw [Nat.toUInt16_eq, UInt16.toNat_ofNat', Nat.mod_eq_of_lt (by omega)]
  rw [isSurrogate, Bool.or_eq_true, isHigh_iff, isLow_iff, hn]
  omega

/-- **What is decoded is similar**: from one state, and from those that differ behind the first byte of a surrogate. -/
theorem similar_loadBytes :
    (∀ st s, loadBytes st bs = some s → Similar Nothing (readBytes st bs) s) ∧
      (∀ s, loadBytes (some ⟨2, 0xd, 0x80, 0xbf⟩) bs = some s →
        Similar Nothing (readBytes (some ⟨2, 0xd, 0x80, 0x9f⟩) bs) s) ∧
      ∀ bits s, 0x360 ≤ bits → bits ≤ 0x37f → loadBytes (some ⟨1, bits, 0x80, 0xbf⟩) bs = some s →
        Similar Nothing (0xfffd :: 0xfffd :: readBytes none bs) s := by
  induction bs with
  | nil =>
    refine ⟨fun st s h => ?_, fun s h => (by cases h), fun bits s _ _ h => (by cases h)⟩
    cases st with
    | none =>
      obtain rfl := Option.some.inj h
      exact .stop rfl
    | some p => cases h
  | cons b bs ih =>
    obtain ⟨hsame, hwide, hhalf⟩ := ih
    refine ⟨fun st s h => ?_, fun s h => ?_, fun bits s hlow hhigh h => ?_⟩
    · obtain ⟨st', out, rest, hbyte, hrest, rfl⟩ := loadBytes_cons.mp h
      rw [readBytes_cons]
      cases st with
      | none =>
        by_cases hed : b.toNat = 0xed
        · rw [hed] at hbyte ⊢
          obtain ⟨rfl, rfl⟩ := Prod.mk.inj (Option.some.inj hbyte)
          exact hwide _ hrest
        · have hread : readByte none b.toNat = (st', out) := loadFirst_eq hed hbyte
          rw [hread]
          exact (hsame _ _ hrest).common out
      | some p =>
        rw [loadByte] at hbyte
        split_ifs at hbyte
        rw [Option.some.inj hbyte]
        exact (hsame _ _ hrest).common out
    · obtain ⟨st', out, rest, hbyte, hrest, rfl⟩ := loadBytes_cons.mp h
      rw [loadByte] at hbyte
      split_ifs at hbyte with hrange
      rw [Bool.and_eq_true, decide_eq_true_iff, decide_eq_true_iff] at hrange
      dsimp only at hrange
      rw [readByte_some hrange.1 hrange.2, if_neg (by decide)] at hbyte
      obtain ⟨rfl, rfl⟩ := Prod.mk.inj (Option.some.inj hbyte)
      rw [readBytes_cons]
      by_cases hnarrow : b.toNat ≤ 0x9f
      · rw [readByte_some hrange.1 hnarrow, if_neg (by decide)]
        exact hsame _ _ hrest
      · have hread : readByte (some ⟨2, 0xd, 0x80, 0x9f⟩) b.toNat = (none, [0xfffd, 0xfffd]) := by
          rw [readByte, if_neg, readFirst_continuation hrange.1 hrange.2]
          rw [Bool.and_eq_true, decide_eq_true_iff, decide_eq_true_iff]
          exact fun h => hnarrow h.2
        rw [hread]
        exact hhalf _ _ (by omega) (by omega) hrest
    · obtain ⟨st', out, rest, hbyte, hrest, rfl⟩ := loadBytes_cons.mp h
      rw [loadByte] at hbyte
      split_ifs at hbyte with hrange
      rw [Bool.and_eq_true, decide_eq_true_iff, decide_eq_true_iff] at hrange
      dsimp only at hrange
      rw [readByte_some hrange.1 hrange.2, if_pos rfl] at hbyte
      obtain ⟨rfl, rfl⟩ := Prod.mk.inj (Option.some.inj hbyte)
      rw [readBytes_cons, readByte, readFirst_continuation hrange.1 hrange.2]
      obtain ⟨u, hu, hsurrogate⟩ := @isSurrogate_unitsOf (bits * 0x40 + (b.toNat - 0x80)) (by omega) (by omega)
      rw [hu]
      exact .lone hsurrogate (hsame _ _ hrest)

/-! ## Rows -/

theorem not_ascii_unitsOf (h : 0x80 ≤ n) (h' : n < 0x110000) {u : UInt16} (hu : u ∈ unitsOf n) : ¬ u < 0x80 := by
  have hne : ∀ k : Nat, 0x80 ≤ k → k < 0x10000 → ¬ k.toUInt16 < 0x80 := by
    intro k hk hk'
    rw [UInt16.lt_iff_toNat_lt, Nat.toUInt16_eq, UInt16.toNat_ofNat', Nat.mod_eq_of_lt hk']
    exact Nat.not_lt.mpr hk
  unfold unitsOf at hu
  split_ifs at hu with hsmall
  · obtain rfl := List.mem_singleton.mp hu
    exact hne n h hsmall
  · rw [List.mem_cons, List.mem_singleton] at hu
    rcases hu with rfl | rfl
    · exact hne _ (by omega) (by omega)
    · exact hne _ (by omega) (by omega)

/-- What has begun is no ASCII character. -/
theorem not_ascii_readBytes {p : Partial} (hp : p.Midway) {u : UInt16} (h : readBytes (some p) bs = u :: s) :
    ¬ u < 0x80 := by
  induction bs generalizing p with
  | nil =>
    obtain ⟨rfl, -⟩ := List.cons.inj h
    decide
  | cons b bs ih =>
    rw [readBytes_cons] at h
    by_cases hrange : (p.lo ≤ b.toNat && b.toNat ≤ p.hi) = true
    · have hmid := (@readByte_spec (some p) b.toNat (fun _ hq => Option.some.inj hq ▸ hp) b.toNat_lt).1
      rw [readByte] at h hmid
      dsimp only at h hmid
      rw [if_pos hrange] at h hmid
      rw [Bool.and_eq_true, decide_eq_true_iff, decide_eq_true_iff] at hrange
      by_cases hlast : p.missing = 1
      · rw [if_pos hlast] at h
        have hmost := hp.most
        rw [hlast, Nat.sub_self, pow_zero, Nat.mul_one] at hmost
        have hfinal := hp.final hlast
        have hlow := hp.low
        obtain ⟨v, us, hunits⟩ := List.exists_cons_of_ne_nil (@unitsOf_ne_nil (p.bits * 0x40 + (b.toNat - 0x80)))
        rw [hunits] at h
        obtain ⟨rfl, -⟩ := List.cons.inj h
        exact not_ascii_unitsOf (by omega) (by omega) (hunits ▸ List.mem_cons_self)
      · rw [if_neg hlast] at h hmid
        exact ih (hmid _ rfl) h
    · rw [readByte] at h
      dsimp only at h
      rw [if_neg hrange] at h
      obtain ⟨rfl, -⟩ := List.cons.inj h
      decide

theorem readFirst_high (h : 0x80 ≤ b) : (∃ p, readFirst b = (some p, [])) ∨ readFirst b = (none, [0xfffd]) := by
  unfold readFirst
  rw [if_neg (by omega)]
  split_ifs
  all_goals first | exact .inl ⟨_, rfl⟩ | exact .inr rfl

/-- The first byte of a text that starts in ASCII. -/
theorem ofUtf8_eq_cons {u : UInt16} (hu : u < 0x80) (h : ofUtf8 bs = u :: s) :
    ∃ b bs', bs = b :: bs' ∧ b.toNat = u.toNat ∧ ofUtf8 bs' = s := by
  cases bs with
  | nil => cases h
  | cons b bs =>
    have hspec := (@readFirst_spec b.toNat b.toNat_lt).1
    rw [ofUtf8, readBytes_cons, readByte] at h
    by_cases hb : b.toNat < 0x80
    · rw [readFirst, if_pos hb] at h
      obtain ⟨rfl, hs⟩ := List.cons.inj h
      refine ⟨b, bs, rfl, ?_, hs⟩
      rw [Nat.toUInt16_eq, UInt16.toNat_ofNat', Nat.mod_eq_of_lt (by omega)]
    · exfalso
      rcases readFirst_high (Nat.le_of_not_lt hb) with ⟨p, hp⟩ | hp
      · rw [hp] at h hspec
        exact not_ascii_readBytes (hspec p rfl) h hu
      · rw [hp] at h
        obtain ⟨rfl, -⟩ := List.cons.inj h
        exact absurd hu (by decide)

/-! ## Objects -/

/-- A unit that is no part of a mark, nor half of a character of two or four bytes. -/
def Opening (u : UInt16) : Prop := 0 < u ∧ u < 0x80

theorem opening_of_space {u : UInt16} (h : isSpace u = true) : Opening u := by
  simp only [isSpace, Bool.or_eq_true, beq_iff_eq] at h
  rcases h with ((rfl | rfl) | rfl) | rfl <;> exact ⟨by decide, by decide⟩

/-- Behind spaces there are only units like them. -/
theorem opening_dropWhile {u c : UInt16} {r : JsString} (hc : Opening c) (h : (u :: s).dropWhile isSpace = c :: r) :
    Opening u ∧ (u = c ∧ s = r ∨ s.dropWhile isSpace = c :: r) := by
  by_cases hu : isSpace u = true
  · rw [List.dropWhile_cons_of_pos hu] at h
    exact ⟨opening_of_space hu, .inr h⟩
  · rw [List.dropWhile_cons_of_neg hu] at h
    obtain ⟨rfl, rfl⟩ := List.cons.inj h
    exact ⟨hc, .inl ⟨rfl, rfl⟩⟩

theorem ReadsMembers.key {value : JsString → Option (Json × JsString)}
    {members : JsString → Option (List (JsString × Json) × JsString)} {kvs : List (JsString × Json)}
    (h : ReadsMembers value members s kvs t) : ∃ k r, ReadsKey s k r := by
  cases h with
  | next hk hv hsep hkvs => exact ⟨_, _, hk⟩
  | last hk hv hsep hend => exact ⟨_, _, hk⟩

/-- An object with an entry starts with a brace and a quote. -/
theorem starts_of_parse {e : JsString × Json} {kvs : List (JsString × Json)} (h : parse s = some (obj (e :: kvs))) :
    ∃ t q, s.dropWhile isSpace = unit '{' :: t ∧ t.dropWhile isSpace = unit '"' :: q := by
  rw [parse] at h
  split at h
  · rename_i v r hread
    split_ifs at h
    obtain rfl := Option.some.inj h
    have hstep := (jsonReader.value_succ s.length s).symm.trans hread
    cases valueStep_eq_some.mp hstep with
    | obj hs hmore hkvs =>
      rename_i t
      cases hlen : s.length with
      | zero =>
        rw [List.length_eq_zero_iff.mp hlen] at hs
        cases hs
      | succ fuel =>
        rw [hlen, jsonReader.members_succ, membersStep_eq_some] at hkvs
        obtain ⟨k, t', q, a, hq, -, -⟩ := hkvs.key
        exact ⟨t, q, hs, Loads.skip_eq_some hq⟩
    | word hw hs => simp [words] at hw
    | num hs hu hx =>
      obtain ⟨x, -, hv, -⟩ := readNumber_both hx
      cases hv
  · cases h

theorem detectEncoding_opening {b₀ b₁ : UInt8} (h₀ : 0 < b₀.toNat ∧ b₀.toNat < 0x80)
    (h₁ : 0 < b₁.toNat ∧ b₁.toNat < 0x80) : detectEncoding (b₀ :: b₁ :: bs) = (.utf8, 0) := by
  have hmark : ∀ (c : UInt8) (cs : Bytes), c.toNat = 0 ∨ 0x80 ≤ c.toNat → ¬ (c :: cs).isPrefixOf (b₀ :: b₁ :: bs) = true := by
    intro c cs hc hpre
    obtain ⟨t, ht⟩ := List.isPrefixOf_iff_prefix.mp hpre
    obtain rfl := (List.cons.inj ht).1
    omega
  have hzero₀ : b₀ ≠ 0 := by
    rintro rfl
    exact absurd h₀.1 (by decide)
  have hzero₁ : b₁ ≠ 0 := by
    rintro rfl
    exact absurd h₁.1 (by decide)
  unfold detectEncoding
  rw [if_neg (hmark _ _ (by decide)), if_neg (hmark _ _ (by decide)), if_neg (hmark _ _ (by decide)),
    if_neg (hmark _ _ (by decide)), if_neg (hmark _ _ (by decide))]
  cases bs with
  | nil =>
    dsimp only
    rw [if_neg hzero₀, if_neg hzero₁]
  | cons b₂ bs =>
    cases bs with
    | nil => rfl
    | cons b₃ bs =>
      dsimp only
      rw [if_neg hzero₀, if_neg hzero₁]

/-- **An object that Node reads is UTF-8** for Python. -/
theorem detectEncoding_of_parse {e : JsString × Json} {kvs : List (JsString × Json)}
    (h : parse (ofUtf8 bs) = some (obj (e :: kvs))) : detectEncoding bs = (.utf8, 0) := by
  obtain ⟨t, q, hbrace, hquote⟩ := starts_of_parse h
  cases hs : ofUtf8 bs with
  | nil =>
    rw [hs] at hbrace
    cases hbrace
  | cons u s =>
    rw [hs] at hbrace
    obtain ⟨hu, hnext⟩ := opening_dropWhile ⟨by decide, by decide⟩ hbrace
    -- the second unit is a space, the brace or the quote
    have hsecond : ∃ v r, s = v :: r ∧ Opening v := by
      cases s with
      | nil =>
        rcases hnext with ⟨-, rfl⟩ | hnext
        · cases hquote
        · cases hnext
      | cons v r =>
        refine ⟨v, r, rfl, ?_⟩
        rcases hnext with ⟨-, rfl⟩ | hnext
        · exact (opening_dropWhile ⟨by decide, by decide⟩ hquote).1
        · exact (opening_dropWhile ⟨by decide, by decide⟩ hnext).1
    obtain ⟨v, r, rfl, hv⟩ := hsecond
    obtain ⟨b₀, bs', rfl, hb₀, hs'⟩ := ofUtf8_eq_cons hu.2 hs
    obtain ⟨b₁, bs'', rfl, hb₁, -⟩ := ofUtf8_eq_cons hv.2 hs'
    have hnat : ∀ {w : UInt16} {b : UInt8}, Opening w → b.toNat = w.toNat → 0 < b.toNat ∧ b.toNat < 0x80 := by
      intro w b hw hb
      rw [hb]
      exact ⟨UInt16.lt_iff_toNat_lt.mp hw.1, UInt16.lt_iff_toNat_lt.mp hw.2⟩
    exact detectEncoding_opening (hnat hu hb₀) (hnat hv hb₁)

/-- **Such an object is read in Python** if its bytes can be decoded. -/
theorem jsonText_of_parse {e : JsString × Json} {kvs : List (JsString × Json)}
    (h : parse (ofUtf8 bs) = some (obj (e :: kvs))) (ht : jsonText bs = some t) :
    ∃ w, loads t = some w ∧ Akin Nearest (obj (e :: kvs)) w := by
  rw [jsonText, detectEncoding_of_parse h] at ht
  have hsimilar : Similar Blank (ofUtf8 bs) t := ((@similar_loadBytes bs).1 none t ht).mono fun s hs => by
    subst hs
    exact fun u hu => absurd hu List.not_mem_nil
  exact loads_similar hsimilar h

/-- ASCII is read as it is. -/
theorem loadBytes_ascii (h : Ascii s) : loadBytes none (s.map fun u => byte u.toNat) = some s := by
  induction s with
  | nil => rfl
  | cons u s ih =>
    obtain ⟨hu, hs⟩ := List.forall_mem_cons.mp h
    have hlt : u.toNat < 0x80 := UInt16.lt_iff_toNat_lt.mp hu
    have hbyte : (byte u.toNat).toNat = u.toNat := byte_toNat (by omega)
    refine loadBytes_cons.mpr ⟨none, [u], s, ?_, ih hs, rfl⟩
    rw [hbyte, loadByte, loadFirst, if_pos hlt, Nat.toUInt16_eq, UInt16.ofNat_toNat]

end Js
