import Yataverse.Js.Utf8

/-!
# The rules of a service-evidence receipt

`evidence.kotoba`: the bounds, contracts and decisions about a receipt. Strings are
indexed by their UTF-8 bytes; a read that is not at the start of a code point is a trap,
`none`.

- `seek`, `codePointAt`, `substring`: the string operations of the language.
- `eventIdValid`, `boundedNonblank`, `didValid`, `positiveDecimal`: what a field may be,
  each with a lemma `..._eq` that says it traps on no string and decides its rule.
- `receiptShapeValid`, `admissionCode`: the decisions.
-/

namespace Economy

open Js

/-! ## Strings -/

/-- `code-point-width`. -/
def codePointWidth (point : Nat) : Nat :=
  if point < 128 then 1 else if point < 2048 then 2 else if point < 65536 then 3 else 4

/-- The code points from a byte offset on: none inside a code point. -/
def seek : List JsString → Nat → Option (List JsString)
  | cs, 0 => some cs
  | [], _ + 1 => none
  | c :: cs, i + 1 =>
    if codePointWidth (charPoint c) ≤ i + 1 then seek cs (i + 1 - codePointWidth (charPoint c))
    else none

/-- `string-byte-length`. -/
def byteLength (s : JsString) : Nat := (utf8 s).length

/-- `string-code-unit-count`. -/
def codeUnitCount (s : JsString) : Nat := s.length

/-- `string-code-point-at`. -/
def codePointAt (s : JsString) (i : Nat) : Option Nat := do
  return charPoint (← (← seek (chars s) i).head?)

/-- `string-substring`. -/
def substring (s : JsString) (i j : Nat) : Option JsString := do
  let rest ← seek (chars s) i
  let after ← seek (chars s) j
  return (rest.take (rest.length - after.length)).flatten

/-! ## Fields -/

/-- `schema-valid?`. -/
def schemaValid (value : JsString) : Bool := value = js "kotoba.service-evidence/v1"

/-- `hex-digit?`. -/
def hexDigit (point : Nat) : Bool := (48 ≤ point && point ≤ 57) || (97 ≤ point && point ≤ 102)

/-- The comparisons of the code points at `i`, `i + 1` and so on. -/
def pointsAre (value : JsString) : Nat → List Nat → Option Bool
  | _, [] => some true
  | i, p :: ps => do
    if (← codePointAt value i) = p then pointsAre value (i + 1) ps else return false

/-- The loop over the code points at `i` to the end, `n` bytes, while `test` holds. -/
def pointsAll (value : JsString) (test : Nat → Bool) : Nat → Nat → Option Bool
  | _, 0 => some true
  | i, n + 1 => do
    if test (← codePointAt value i) then pointsAll value test (i + 1) n else return false

/-- `event-id-valid?`. -/
def eventIdValid (value : JsString) : Option Bool :=
  if byteLength value ≠ 71 then some false
  else do
    if ← pointsAre value 0 [115, 104, 97, 50, 53, 54, 58] then pointsAll value hexDigit 7 64
    else return false

/-- `whitespace-character?`. -/
def whitespaceCharacter (point : Nat) : Bool :=
  (9 ≤ point && point ≤ 13) || point = 32 || point = 133 || point = 160 || point = 5760 ||
    (8192 ≤ point && point ≤ 8202) || point = 8232 || point = 8233 || point = 8239 ||
    point = 8287 || point = 12288 || point = 65279

/-- The loop of `has-non-whitespace?` from byte `i` on; every round moves at least one
byte, so the byte length is fuel enough. -/
def nonWhitespaceFrom (value : JsString) : Nat → Nat → Option Bool
  | 0, i => if i = byteLength value then some false else none
  | fuel + 1, i =>
    if i = byteLength value then some false
    else do
      let point ← codePointAt value i
      if whitespaceCharacter point then
        nonWhitespaceFrom value fuel (i + codePointWidth point)
      else return true

/-- `has-non-whitespace?`. -/
def hasNonWhitespace (value : JsString) : Option Bool :=
  nonWhitespaceFrom value (byteLength value) 0

/-- `bounded-nonblank?`. -/
def boundedNonblank (value : JsString) (maxCodeUnits : Nat) : Option Bool :=
  if 0 < maxCodeUnits ∧ codeUnitCount value ≤ maxCodeUnits then hasNonWhitespace value
  else some false

/-- `did-valid?`. -/
def didValid (value : JsString) : Option Bool :=
  if 9 ≤ byteLength value ∧ byteLength value ≤ 256 then do
    if ← pointsAre value 0 [100, 105, 100, 58, 107, 101, 121, 58] then
      hasNonWhitespace (← substring value 8 (byteLength value))
    else return false
  else some false

/-- `positive-decimal?`. -/
def positiveDecimal (value : JsString) : Option Bool := do
  let first ← if byteLength value = 0 then some 0 else codePointAt value 0
  if 1 ≤ byteLength value ∧ byteLength value ≤ 40 ∧ 49 ≤ first ∧ first ≤ 57 then
    pointsAll value (fun point => 48 ≤ point && point ≤ 57) 1 (byteLength value - 1)
  else return false

/-- A work kind with its service category and measure unit. -/
structure WorkContract where
  workKind : JsString
  serviceCategory : JsString
  measureKind : JsString
deriving DecidableEq

/-- The contracts of `work-contract-valid?`. -/
def workContracts : List WorkContract :=
  [⟨js "itonami-compute", js "compute-execution", js "verified-output-tokens"⟩,
   ⟨js "yataverse-useful-egress", js "delivery-serving", js "client-useful-bytes"⟩,
   ⟨js "kura-retention", js "storage-retention", js "verified-byte-seconds"⟩,
   ⟨js "kura-repair", js "placement-repair", js "verified-repair-bytes"⟩]

/-- `work-contract-valid?`. -/
def workContractValid (workKind serviceCategory measureKind : JsString) : Bool :=
  workContracts.contains ⟨workKind, serviceCategory, measureKind⟩

/-- `signing-message`. -/
def signingMessage (eventId : JsString) : JsString := js "kotoba.service-evidence/v1\n" ++ eventId

/-! ## Decisions -/

/-- What the host projects from a receipt: the arguments of `receipt-shape-valid?`. -/
structure Facts where
  schema : JsString
  eventId : JsString
  orderId : JsString
  providerDid : JsString
  workKind : JsString
  serviceCategory : JsString
  policyVersion : JsString
  measureKind : JsString
  measureValue : JsString
  nonce : JsString
  providerSignatureDid : JsString
  providerSignature : JsString
  witnessCount : Nat
  evidenceCount : Nat
  receiptFieldsValid : Bool
  measureFieldsValid : Bool
  signaturesFieldsValid : Bool
  witnessesValid : Bool
  evidenceCidsValid : Bool
  economicFieldsAbsent : Bool
  privateFieldsAbsent : Bool

/-- `(and a b)`: `b` is only evaluated when `a` is true. -/
def also (a b : Option Bool) : Option Bool := do if ← a then b else return false

/-- `receipt-shape-valid?`. -/
def receiptShapeValid (f : Facts) : Option Bool :=
  [some (schemaValid f.schema),
   eventIdValid f.eventId,
   boundedNonblank f.orderId 256,
   didValid f.providerDid,
   some (workContractValid f.workKind f.serviceCategory f.measureKind),
   boundedNonblank f.policyVersion 128,
   some f.measureFieldsValid,
   positiveDecimal f.measureValue,
   boundedNonblank f.nonce 256,
   some f.signaturesFieldsValid,
   some (f.providerSignatureDid = f.providerDid),
   boundedNonblank f.providerSignature 4096,
   some (1 ≤ f.witnessCount ∧ f.witnessCount ≤ 32),
   some f.witnessesValid,
   some (1 ≤ f.evidenceCount ∧ f.evidenceCount ≤ 64),
   some f.evidenceCidsValid,
   some f.receiptFieldsValid,
   some f.economicFieldsAbsent,
   some f.privateFieldsAbsent].foldr also (some true)

/-- `verification-complete?`. -/
def verificationComplete (digestValid providerSignatureValid witnessesSignaturesValid policyValid
    evidenceValid : Bool) : Bool :=
  digestValid && providerSignatureValid && witnessesSignaturesValid && policyValid && evidenceValid

/-- `admission-code`: 0 is accepted, 1 a duplicate, -1 an event collision, -2 a nonce
used before. -/
def admissionCode (eventPresent sameEventBody noncePresent : Bool) : Int :=
  if eventPresent then (if sameEventBody then 1 else -1) else if noncePresent then -2 else 0

/-! ## Decided rules -/

/-- A computation that traps on nothing and says whether `P`. -/
def Decides (x : Option Bool) (P : Prop) : Prop := ∃ b, x = some b ∧ (b = true ↔ P)

theorem Decides.some {b : Bool} {P : Prop} (h : b = true ↔ P) : Decides (some b) P := ⟨b, rfl, h⟩

theorem Decides.also {x y : Option Bool} {P Q : Prop} (hx : Decides x P) (hy : P → Decides y Q) :
    Decides (also x y) (P ∧ Q) := by
  obtain ⟨a, rfl, ha⟩ := hx
  cases a with
  | false => exact ⟨false, rfl, by simp [← ha]⟩
  | true =>
    obtain ⟨b, rfl, hb⟩ := hy (ha.mp rfl)
    exact ⟨b, rfl, by simp [← ha, hb]⟩

theorem Decides.congr {x : Option Bool} {P Q : Prop} (h : Decides x P) (hPQ : P ↔ Q) :
    Decides x Q := by
  obtain ⟨b, hb, hP⟩ := h
  exact ⟨b, hb, hP.trans hPQ⟩

/-! ## Reading a string -/

theorem codePointWidth_pos (point : Nat) : 0 < codePointWidth point := by
  unfold codePointWidth
  split_ifs <;> decide

theorem utf8Point_length (point : Nat) : (utf8Point point).length = codePointWidth point := by
  unfold utf8Point codePointWidth
  split_ifs <;> rfl

/-- The first code point of a string. -/
theorem chars_cons {t : JsString} (h : t ≠ []) :
    ∃ c t', IsChar c ∧ t = c ++ t' ∧ chars t = c :: chars t' := by
  match t, h with
  | [u], _ => exact ⟨[u], [], .single u, rfl, rfl⟩
  | u :: v :: rest, _ =>
    by_cases hp : isHigh u && isLow v
    · obtain ⟨hu, hv⟩ := Bool.and_eq_true_iff.mp hp
      exact ⟨[u, v], rest, .pair hu hv, rfl, by rw [chars, if_pos hp]⟩
    · exact ⟨[u], v :: rest, .single u, rfl, by rw [chars, if_neg hp]⟩

theorem byteLength_append {c t t' : JsString} (h : chars t = c :: chars t') :
    byteLength t = codePointWidth (charPoint c) + byteLength t' := by
  rw [byteLength, utf8, points_eq_map, h, List.map_cons, List.flatMap_cons, List.length_append,
    utf8Point_length, byteLength, utf8, points_eq_map]

theorem byteLength_pos {t : JsString} (h : t ≠ []) : 0 < byteLength t := by
  obtain ⟨c, t', -, -, hc⟩ := chars_cons h
  have := codePointWidth_pos (charPoint c)
  rw [byteLength_append hc]
  omega

/-- `t` is what is left of `s` at byte `i`. -/
structure At (s : JsString) (i : Nat) (t : JsString) : Prop where
  seek : seek (chars s) i = some (chars t)
  length : i + byteLength t = byteLength s

theorem At.start (s : JsString) : At s 0 s := by
  refine ⟨?_, by omega⟩
  cases chars s <;> rfl

theorem seek_width {cs : List JsString} {c : JsString} {ds : List JsString} {i : Nat} :
    seek cs i = some (c :: ds) → seek cs (i + codePointWidth (charPoint c)) = some ds := by
  have hw := codePointWidth_pos (charPoint c)
  induction cs generalizing i with
  | nil =>
    cases i with
    | zero => exact nofun
    | succ i => exact nofun
  | cons d cs ih =>
    intro h
    cases i with
    | zero =>
      rw [seek, Option.some.injEq, List.cons.injEq] at h
      obtain ⟨rfl, rfl⟩ := h
      obtain ⟨k, hk⟩ : ∃ k, codePointWidth (charPoint d) = k + 1 := ⟨_, (Nat.succ_pred_eq_of_pos hw).symm⟩
      rw [Nat.zero_add, hk, seek, if_pos (by omega), hk, Nat.sub_self]
      cases cs <;> rfl
    | succ i =>
      rw [seek] at h
      split at h
      case isFalse => exact nomatch h
      case isTrue hle =>
        have := ih h
        rw [show i + 1 + codePointWidth (charPoint c) = (i + codePointWidth (charPoint c)) + 1 by omega,
          seek, if_pos (by omega)]
        rw [← this]
        congr 1
        omega

theorem At.next {s t t' c : JsString} {i : Nat} (h : At s i t) (hc : chars t = c :: chars t') :
    codePointAt s i = some (charPoint c) ∧ At s (i + codePointWidth (charPoint c)) t' := by
  have hs := h.seek
  rw [hc] at hs
  refine ⟨?_, seek_width hs, ?_⟩
  · rw [codePointAt, hs]
    rfl
  · have := h.length
    rw [byteLength_append hc] at this
    omega

/-- Nothing is left at the end. -/
theorem At.finish {s : JsString} : ∀ {t : JsString} {i : Nat}, At s i t →
    At s (byteLength s) []
  | [], i, h => by
    rw [← h.length]
    exact h
  | u :: t, i, h => by
    obtain ⟨c, t', hc, ht, hch⟩ := chars_cons (t := u :: t) (by simp)
    have hlen : t'.length < (u :: t).length := by
      rw [ht, List.length_append]
      cases hc <;> simp
    exact At.finish (h.next hch).2
termination_by t => t.length
decreasing_by exact hlen

/-- The rest of a string from a byte on. -/
theorem At.substring {s t : JsString} {i : Nat} (h : At s i t) :
    substring s i (byteLength s) = some t := by
  have hend : chars ([] : JsString) = [] := rfl
  rw [Economy.substring, h.seek, h.finish.seek, hend]
  simp [flatten_chars]

/-! ## ASCII text -/

theorem chars_ascii {u : UInt16} {t : JsString} (h : u < 0x80) : chars (u :: t) = [u] :: chars t := by
  cases t with
  | nil => rfl
  | cons v t =>
    have hu : isHigh u = false := by
      rw [Bool.eq_false_iff, ne_eq, isHigh_iff]
      have : u.toNat < 0x80 := by simpa [UInt16.lt_iff_toNat_lt] using h
      omega
    rw [chars, hu, Bool.false_and, if_neg (by decide)]

theorem charPoint_ascii {u : UInt16} (h : u < 0x80) : charPoint [u] = u.toNat :=
  lonePoint_ascii h

/-- A code point below 128 is a unit of its own. -/
theorem eq_of_charPoint_lt {c : JsString} (hc : IsChar c) (h : charPoint c < 128) :
    ∃ u : UInt16, u < 0x80 ∧ c = [u] := by
  cases hc with
  | single u =>
    refine ⟨u, ?_, rfl⟩
    rw [charPoint_single, lonePoint] at h
    split at h
    · omega
    · simpa [UInt16.lt_iff_toNat_lt] using h
  | pair hu hv =>
    rw [charPoint_pair] at h
    omega

theorem tail_eq_nil {u : UInt16} {c : JsString} (h : IsChar (u :: c)) (hu : u < 0x80) :
    c = [] := by
  have : u.toNat < 0x80 := by simpa [UInt16.lt_iff_toNat_lt] using hu
  cases h with
  | single => rfl
  | pair hh =>
    rw [isHigh_iff] at hh
    omega

theorem At.ascii {s t : JsString} : ∀ {a : JsString} {i : Nat}, Ascii a → At s i (a ++ t) →
    At s (i + a.length) t
  | [], i, _, h => h
  | u :: a, i, ha, h => by
    have hu : u < 0x80 := ha u (by simp)
    have hn : u.toNat < 0x80 := by simpa [UInt16.lt_iff_toNat_lt] using hu
    have := (h.next (chars_ascii hu)).2
    rw [charPoint_ascii hu, codePointWidth, if_pos hn] at this
    have := At.ascii (a := a) (fun v hv => ha v (by simp [hv])) this
    rw [List.length_cons]
    rwa [Nat.add_assoc, Nat.add_comm 1] at this

/-- Comparing the next code points with ASCII ones tells whether the string goes on so. -/
theorem pointsAre_eq {s : JsString} : ∀ {a t : JsString} {i : Nat}, Ascii a → At s i t →
    a.length ≤ byteLength t → pointsAre s i (a.map UInt16.toNat) = some (a.isPrefixOf t)
  | [], t, i, _, _, _ => by cases t <;> rfl
  | u :: a, t, i, ha, h, hlen => by
    have hu : u < 0x80 := ha u (by simp)
    have hn : u.toNat < 0x80 := by simpa [UInt16.lt_iff_toNat_lt] using hu
    have ht : t ≠ [] := by
      rintro rfl
      simp [byteLength, utf8, points] at hlen
    obtain ⟨c, t', hc, rfl, hch⟩ := chars_cons ht
    obtain ⟨hp, hnext⟩ := h.next hch
    rw [List.map_cons, pointsAre, hp]
    by_cases he : charPoint c = u.toNat
    · obtain ⟨v, hv, rfl⟩ := eq_of_charPoint_lt hc (by omega)
      rw [charPoint_ascii hv] at he hnext
      obtain rfl := UInt16.toNat_inj.mp he
      rw [codePointWidth, if_pos hn] at hnext
      have hlen' : a.length ≤ byteLength t' := by
        rw [byteLength_append hch, charPoint_ascii hv, codePointWidth, if_pos hn,
          List.length_cons] at hlen
        omega
      have ih := pointsAre_eq (fun w hw => ha w (by simp [hw])) hnext hlen'
      simp [charPoint_ascii hv, ih]
    · have hne : ¬ (u :: a).isPrefixOf (c ++ t') = true := by
        intro hpre
        cases c with
        | nil => cases hc
        | cons w c =>
          simp only [List.cons_append, List.isPrefixOf, Bool.and_eq_true, beq_iff_eq] at hpre
          obtain ⟨rfl, -⟩ := hpre
          rw [tail_eq_nil hc hu] at he
          exact he (charPoint_ascii hu)
      simp [he, Bool.eq_false_iff.mpr hne]

/-- The loop over the code points to the end, for a test that only ASCII passes. -/
theorem pointsAll_eq {s : JsString} {test : Nat → Bool} (htest : ∀ p, test p = true → p < 128) :
    ∀ {n : Nat} {t : JsString} {i : Nat}, At s i t → byteLength t = n →
      pointsAll s test i n = some (t.all fun u => test u.toNat)
  | 0, t, i, h, hn => by
    have ht : t = [] := by
      by_contra hne
      have := byteLength_pos hne
      omega
    rw [ht]
    rfl
  | n + 1, t, i, h, hn => by
    have ht : t ≠ [] := by
      rintro rfl
      simp [byteLength, utf8, points] at hn
    obtain ⟨c, t', hc, rfl, hch⟩ := chars_cons ht
    obtain ⟨hp, hnext⟩ := h.next hch
    rw [pointsAll, hp]
    by_cases he : test (charPoint c) = true
    · have hlt := htest _ he
      obtain ⟨v, hv, rfl⟩ := eq_of_charPoint_lt hc hlt
      rw [byteLength_append hch, codePointWidth, if_pos hlt] at hn
      rw [codePointWidth, if_pos hlt] at hnext
      have ih := pointsAll_eq htest hnext (by omega : byteLength t' = n)
      rw [charPoint_ascii hv] at he
      simp [charPoint_ascii hv, he, ih]
    · have hne : ¬ (c ++ t').all (fun u => test u.toNat) = true := by
        intro hall
        cases c with
        | nil => cases hc
        | cons w c =>
          simp only [List.cons_append, List.all_cons, Bool.and_eq_true] at hall
          have hw : w < 0x80 := by simpa [UInt16.lt_iff_toNat_lt] using htest _ hall.1
          rw [tail_eq_nil hc hw, charPoint_ascii hw] at he
          exact he hall.1
      simp [he, Bool.eq_false_iff.mpr hne]

/-- The loop that looks for a code point that is not white space. -/
theorem nonWhitespaceFrom_eq {s : JsString} : ∀ {fuel : Nat} {t : JsString} {i : Nat}, At s i t →
    byteLength t ≤ fuel →
      nonWhitespaceFrom s fuel i = some ((points t).any fun p => !whitespaceCharacter p)
  | fuel, [], i, h, _ => by
    have hi : i = byteLength s := h.length
    cases fuel <;> rw [nonWhitespaceFrom, if_pos hi] <;> rfl
  | 0, u :: t, i, _, hf => by
    have := byteLength_pos (t := u :: t) (by simp)
    omega
  | fuel + 1, u :: t, i, h, hf => by
    have hpos := byteLength_pos (t := u :: t) (by simp)
    have hi : i ≠ byteLength s := by
      have := h.length
      omega
    obtain ⟨c, t', hc, ht, hch⟩ := chars_cons (t := u :: t) (by simp)
    obtain ⟨hp, hnext⟩ := h.next hch
    have hw := codePointWidth_pos (charPoint c)
    have hshort : byteLength t' ≤ fuel := by
      rw [byteLength_append hch] at hf
      omega
    have ih := nonWhitespaceFrom_eq hnext hshort
    have hpoints : points (u :: t) = charPoint c :: points t' := by
      rw [points_eq_map, hch, List.map_cons, points_eq_map]
    rw [nonWhitespaceFrom, if_neg hi, hp, hpoints, List.any_cons]
    by_cases hwhite : whitespaceCharacter (charPoint c) = true
    · simp [hwhite, ih]
    · simp [Bool.eq_false_iff.mpr hwhite]

/-! ## The rules -/

/-- Not only white space. -/
def Nonblank (s : JsString) : Prop := ∃ p ∈ points s, whitespaceCharacter p = false

/-- `sha256:` and 64 lower-case hexadecimal digits. -/
def IsEventId (s : JsString) : Prop :=
  ∃ h, s = js "sha256:" ++ h ∧ h.length = 64 ∧ ∀ u ∈ h, hexDigit u.toNat = true

/-- A string that is not blank, of at most `n` code units. -/
def Bounded (n : Nat) (s : JsString) : Prop := s.length ≤ n ∧ Nonblank s

/-- `did:key:` and something that is not blank, 9 to 256 bytes in all. -/
def IsDid (s : JsString) : Prop :=
  ∃ t, s = js "did:key:" ++ t ∧ Nonblank t ∧ 9 ≤ byteLength s ∧ byteLength s ≤ 256

/-- At most 40 decimal digits that do not start with zero. -/
def IsPositiveDecimal (s : JsString) : Prop :=
  s.length ≤ 40 ∧ (∀ u ∈ s, inRange '0' '9' u = true) ∧ ∃ u t, s = u :: t ∧ u ≠ unit '0'

theorem hasNonWhitespace_decides (s : JsString) : Decides (hasNonWhitespace s) (Nonblank s) := by
  refine ⟨_, nonWhitespaceFrom_eq (At.start s) (Nat.le_refl _), ?_⟩
  simp [Nonblank]

theorem boundedNonblank_decides (s : JsString) {n : Nat} (hn : 0 < n) :
    Decides (boundedNonblank s n) (Bounded n s) := by
  unfold boundedNonblank Bounded codeUnitCount
  by_cases h : s.length ≤ n
  · rw [if_pos ⟨hn, h⟩]
    exact (hasNonWhitespace_decides s).congr (by simp [h])
  · rw [if_neg (by simp [h])]
    exact .some (by simp [h])

theorem byteLength_ascii : ∀ {s : JsString}, Ascii s → byteLength s = s.length
  | [], _ => rfl
  | u :: s, h => by
    have hu : u < 0x80 := h u (by simp)
    have hn : u.toNat < 0x80 := by simpa [UInt16.lt_iff_toNat_lt] using hu
    rw [byteLength_append (chars_ascii hu), charPoint_ascii hu, codePointWidth, if_pos hn,
      byteLength_ascii fun v hv => h v (by simp [hv]), List.length_cons, Nat.add_comm]

/-- A string that starts with ASCII text, by its code points. -/
theorem pointsAre_decides {s a : JsString} (ha : Ascii a) (hlen : a.length ≤ byteLength s) :
    Decides (pointsAre s 0 (a.map UInt16.toNat)) (∃ t, s = a ++ t) := by
  refine ⟨_, pointsAre_eq ha (At.start s) hlen, ?_⟩
  rw [List.isPrefixOf_iff_prefix]
  exact ⟨fun ⟨t, ht⟩ => ⟨t, ht.symm⟩, fun ⟨t, ht⟩ => ⟨t, ht.symm⟩⟩

theorem hexDigit_lt {p : Nat} (h : hexDigit p = true) : p < 128 := by
  simp only [hexDigit, Bool.or_eq_true, Bool.and_eq_true, decide_eq_true_eq] at h
  omega

theorem ascii_of_hex {h : JsString} (hh : ∀ u ∈ h, hexDigit u.toNat = true) : Ascii h := fun u hu => by
  simpa [UInt16.lt_iff_toNat_lt] using hexDigit_lt (hh u hu)

theorem IsEventId.byteLength {s : JsString} (h : IsEventId s) : byteLength s = 71 := by
  obtain ⟨t, rfl, hlen, ht⟩ := h
  rw [byteLength_ascii (Ascii.append (by decide) (ascii_of_hex ht)), List.length_append, hlen]
  rfl

theorem eventIdValid_decides (s : JsString) : Decides (eventIdValid s) (IsEventId s) := by
  unfold eventIdValid
  by_cases hb : byteLength s = 71
  · rw [if_neg (by simp [hb])]
    have hp := pointsAre_decides (s := s) (a := js "sha256:") (by decide) (by rw [hb]; decide)
    refine (hp.also (Q := ∀ u ∈ s.drop 7, hexDigit u.toNat = true) ?_).congr ?_
    · rintro ⟨t, rfl⟩
      have hat := At.ascii (a := js "sha256:") (i := 0) (by decide) (At.start (js "sha256:" ++ t))
      have hlen : byteLength t = 64 := by
        have := hat.length
        rw [hb] at this
        have h7 : (js "sha256:").length = 7 := by decide
        omega
      refine ⟨_, pointsAll_eq (fun _ => hexDigit_lt) hat hlen, ?_⟩
      rw [List.all_eq_true]
      exact Iff.rfl
    · constructor
      · rintro ⟨⟨t, rfl⟩, ht⟩
        have hd : (js "sha256:" ++ t).drop 7 = t := rfl
        rw [hd] at ht
        refine ⟨t, rfl, ?_, ht⟩
        rw [byteLength_ascii (Ascii.append (by decide) (ascii_of_hex ht)), List.length_append] at hb
        have h7 : (js "sha256:").length = 7 := by decide
        omega
      · rintro ⟨t, rfl, -, ht⟩
        exact ⟨⟨t, rfl⟩, ht⟩
  · rw [if_pos hb]
    exact .some ⟨nofun, fun h => absurd h.byteLength hb⟩

theorem didValid_decides (s : JsString) : Decides (didValid s) (IsDid s) := by
  unfold didValid
  by_cases hb : 9 ≤ byteLength s ∧ byteLength s ≤ 256
  · rw [if_pos hb]
    have h8 : (js "did:key:").length = 8 := by decide
    have hp := pointsAre_decides (s := s) (a := js "did:key:") (by decide) (by omega)
    refine (hp.also (Q := Nonblank (s.drop 8)) ?_).congr ?_
    · rintro ⟨t, rfl⟩
      have hat := At.ascii (a := js "did:key:") (i := 0) (by decide) (At.start (js "did:key:" ++ t))
      have hsub : substring (js "did:key:" ++ t) 8 (byteLength (js "did:key:" ++ t)) = some t :=
        hat.substring
      rw [hsub]
      exact hasNonWhitespace_decides t
    · constructor
      · rintro ⟨⟨t, rfl⟩, ht⟩
        exact ⟨t, rfl, ht, hb⟩
      · rintro ⟨t, rfl, ht, -⟩
        exact ⟨⟨t, rfl⟩, ht⟩
  · rw [if_neg hb]
    exact .some ⟨nofun, fun ⟨_, _, _, h⟩ => absurd h hb⟩

theorem inRange_digit {u : UInt16} :
    inRange '0' '9' u = true ↔ 48 ≤ u.toNat ∧ u.toNat ≤ 57 := by
  have h₀ : (unit '0').toNat = 48 := rfl
  have h₉ : (unit '9').toNat = 57 := rfl
  simp [inRange, UInt16.le_iff_toNat_le, h₀, h₉]

theorem ascii_of_digits {s : JsString} (h : ∀ u ∈ s, inRange '0' '9' u = true) : Ascii s :=
  fun u hu => by
    have := inRange_digit.mp (h u hu)
    rw [UInt16.lt_iff_toNat_lt]
    exact Nat.lt_of_le_of_lt this.2 (by decide)

/-- The first digit of a positive decimal, and its length. -/
theorem IsPositiveDecimal.bounds {c t : JsString} (hc : IsChar c) (h : IsPositiveDecimal (c ++ t)) :
    byteLength (c ++ t) ≤ 40 ∧ 49 ≤ charPoint c ∧ charPoint c ≤ 57 := by
  obtain ⟨hlen, hall, u, r, hr, hne⟩ := h
  have hasc := ascii_of_digits hall
  refine ⟨by rwa [byteLength_ascii hasc], ?_⟩
  match c, hc with
  | v :: c, hc =>
    obtain ⟨rfl, -⟩ := List.cons.inj hr
    rw [tail_eq_nil hc (hasc v (by simp)), charPoint_ascii (hasc v (by simp))]
    have hd := inRange_digit.mp (hall v (by simp))
    have h0 : v.toNat ≠ 48 := fun h => hne (UInt16.toNat_inj.mp h)
    omega

theorem positiveDecimal_decides (s : JsString) : Decides (positiveDecimal s) (IsPositiveDecimal s) := by
  unfold positiveDecimal
  by_cases hs : s = []
  · subst hs
    exact .some (b := false) ⟨nofun, fun ⟨_, _, _, _, h, _⟩ => nomatch h⟩
  obtain ⟨c, t, hc, rfl, hch⟩ := chars_cons hs
  have hpos := byteLength_pos hs
  obtain ⟨hp, hnext⟩ := (At.start (c ++ t)).next hch
  rw [if_neg (by omega), hp]
  show Decides (if 1 ≤ byteLength (c ++ t) ∧ byteLength (c ++ t) ≤ 40 ∧ 49 ≤ charPoint c ∧
      charPoint c ≤ 57 then pointsAll (c ++ t) (fun p => 48 ≤ p && p ≤ 57) 1
        (byteLength (c ++ t) - 1) else some false) _
  by_cases hcond : 1 ≤ byteLength (c ++ t) ∧ byteLength (c ++ t) ≤ 40 ∧ 49 ≤ charPoint c ∧
      charPoint c ≤ 57
  · rw [if_pos hcond]
    obtain ⟨-, h40, hlo, hhi⟩ := hcond
    obtain ⟨u, hu, rfl⟩ := eq_of_charPoint_lt hc (by omega)
    have hw : codePointWidth (charPoint [u]) = 1 := if_pos (by omega)
    rw [hw] at hnext
    have hlen : byteLength t = byteLength ([u] ++ t) - 1 := by
      rw [byteLength_append hch, hw]
      omega
    have htest : ∀ p, (decide (48 ≤ p) && decide (p ≤ 57)) = true → p < 128 := by
      intro p hp
      simp only [Bool.and_eq_true, decide_eq_true_eq] at hp
      omega
    refine ⟨_, pointsAll_eq htest hnext hlen, ?_⟩
    rw [charPoint_ascii hu] at hlo hhi
    have hall : (t.all fun v => decide (48 ≤ v.toNat) && decide (v.toNat ≤ 57)) = true ↔
        ∀ v ∈ t, inRange '0' '9' v = true := by
      simp only [List.all_eq_true, Bool.and_eq_true, decide_eq_true_eq, inRange_digit]
    rw [hall]
    constructor
    · intro ht
      have hd : ∀ v ∈ [u] ++ t, inRange '0' '9' v = true :=
        List.forall_mem_cons.mpr ⟨inRange_digit.mpr ⟨by omega, hhi⟩, ht⟩
      refine ⟨by rwa [byteLength_ascii (ascii_of_digits hd)] at h40, hd, u, t, rfl, ?_⟩
      rintro rfl
      exact absurd hlo (by decide)
    · exact fun h v hv => h.2.1 v (by simp [hv])
  · rw [if_neg hcond]
    exact .some ⟨nofun, fun h => absurd ⟨hpos, h.bounds hc⟩ hcond⟩

end Economy
