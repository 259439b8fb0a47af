import Yataverse.Economy.Core

/-!
# The shape of a service-evidence receipt

The projection of `evidence-host.mjs`: the facts about a parsed receipt that the core
decides on.

- `projectReceipt`: the facts and the verdict; `none` is a trap of the core.
- `visit`: the scan for forbidden keys, bounded in depth, nodes and entries.
- `IsReceipt`: what a receipt is, field by field.
- **`projectReceipt_exact`**: the verdict is that, for every JSON value, and the scans
  never change it.
-/

namespace Economy

open Js

/-! ## Projection -/

def receiptFields : List JsString :=
  [js "schema", js "event-id", js "order-id", js "provider-did", js "work-kind",
    js "service-category", js "policy-version", js "measure", js "evidence-cids",
    js "signatures", js "nonce"]

def measureFields : List JsString := [js "kind", js "value"]

def signaturesFields : List JsString := [js "provider", js "witnesses"]

def signerFields : List JsString := [js "did", js "signature"]

def economicFields : List JsString :=
  [js "token", js "token-symbol", js "amount", js "currency", js "chain", js "epoch", js "root",
    js "payee", js "recipient", js "payout", js "settlement", js "conversion", js "exchange-rate"]

def privateFields : List JsString :=
  [js "prompt", js "customer-payload", js "request-body", js "personal-data"]

/-- `hasExactFields`. -/
def hasExactFields (value : Json) (expected : List JsString) : Bool :=
  value.isObj && value.keys.length = expected.length && value.keys.all expected.contains

section Scan

variable (forbidden : List JsString)

mutual

/-- `visit` of `forbiddenKeysAbsent`: the answer, and the nodes counted so far. No part
of a JSON value is seen twice. -/
def visit : Json → Nat → Nat → Bool × Nat
  | item, depth, nodes =>
    if 8 < depth then (false, nodes)
    else if 4096 < nodes + 1 then (false, nodes + 1)
    else
      match item with
      | .arr xs => visitAll xs (depth + 1) (nodes + 1)
      | .obj kvs =>
        if 64 < kvs.length then (false, nodes + 1) else visitEntries kvs (depth + 1) (nodes + 1)
      | _ => (true, nodes + 1)

def visitAll : List Json → Nat → Nat → Bool × Nat
  | [], _, nodes => (true, nodes)
  | x :: xs, depth, nodes =>
    match visit x depth nodes with
    | (true, nodes) => visitAll xs depth nodes
    | (false, nodes) => (false, nodes)

def visitEntries : List (JsString × Json) → Nat → Nat → Bool × Nat
  | [], _, nodes => (true, nodes)
  | e :: kvs, depth, nodes =>
    if forbidden.contains e.1 then (false, nodes)
    else
      match visit e.2 depth nodes with
      | (true, nodes) => visitEntries kvs depth nodes
      | (false, nodes) => (false, nodes)

end

/-- `forbiddenKeysAbsent`. -/
def forbiddenKeysAbsent (value : Json) : Bool := (visit forbidden value 0 0).1

end Scan

/-- `normalizedString`. -/
def normalizedString (value : Json) : JsString :=
  match value with
  | .str s => s
  | _ => []

/-- The elements of an array of at most `n`: `none` is anything else. -/
def elements? (value : Json) (n : Nat) : Option (List Json) :=
  match value with
  | .arr xs => if xs.length ≤ n then some xs else none
  | _ => none

/-- `xs.every(test)`. -/
def every (test : Json → Option Bool) : List Json → Option Bool
  | [] => some true
  | x :: xs => also (test x) (every test xs)

/-- The test of one witness. -/
def witnessValid (providerDid : JsString) (witness : Json) : Option Bool :=
  match witness.get (js "did"), witness.get (js "signature") with
  | .str did, .str signature =>
    also (some (hasExactFields witness signerFields))
      (also (didValid did) (also (boundedNonblank signature 4096) (some (did ≠ providerDid))))
  | _, _ => some false

/-- The test of one CID. -/
def cidValid (cid : Json) : Option Bool :=
  match cid with
  | .str s => boundedNonblank s 512
  | _ => some false

/-- `witnessShapesValid`. -/
def witnessShapesValid (providerDid : JsString) (witnesses : Json) : Option Bool :=
  match elements? witnesses 32 with
  | none => some false
  | some ws =>
    also (every (witnessValid providerDid) ws)
      (some (ws.map fun w => w.get (js "did")).Nodup)

/-- `evidenceShapeValid`. -/
def evidenceShapeValid (cids : Json) : Option Bool :=
  match elements? cids 64 with
  | none => some false
  | some cs => every cidValid cs

/-- The object of a receipt; what is not a record has no fields. -/
def objectOf (receipt : Json) : Json := if receipt.isObj then receipt else .obj []

/-- The `values` of a receipt. A field that is missing is null here: no test tells it
from `undefined`. -/
def facts (receipt : Json) : Option Facts := do
  let object := objectOf receipt
  let measure := object.get (js "measure")
  let signatures := object.get (js "signatures")
  let provider := signatures.get (js "provider")
  let witnesses := signatures.get (js "witnesses")
  let cids := object.get (js "evidence-cids")
  let providerDid := normalizedString (object.get (js "provider-did"))
  let witnessShapesValid ← witnessShapesValid providerDid witnesses
  let evidenceShapeValid ← evidenceShapeValid cids
  return {
    schema := normalizedString (object.get (js "schema"))
    eventId := normalizedString (object.get (js "event-id"))
    orderId := normalizedString (object.get (js "order-id"))
    providerDid
    workKind := normalizedString (object.get (js "work-kind"))
    serviceCategory := normalizedString (object.get (js "service-category"))
    policyVersion := normalizedString (object.get (js "policy-version"))
    measureKind := normalizedString (measure.get (js "kind"))
    measureValue := normalizedString (measure.get (js "value"))
    nonce := normalizedString (object.get (js "nonce"))
    providerSignatureDid := normalizedString (provider.get (js "did"))
    providerSignature := normalizedString (provider.get (js "signature"))
    witnessCount := ((elements? witnesses 32).map List.length).getD 0
    evidenceCount := if evidenceShapeValid then ((elements? cids 64).map List.length).getD 0 else 0
    receiptFieldsValid := receipt.isObj && receipt.keys.all receiptFields.contains
    measureFieldsValid := hasExactFields measure measureFields &&
      (measure.get (js "kind")).str?.isSome && (measure.get (js "value")).str?.isSome
    signaturesFieldsValid := hasExactFields signatures signaturesFields &&
      hasExactFields provider signerFields && (elements? witnesses 32).isSome
    witnessesValid := witnessShapesValid
    evidenceCidsValid := evidenceShapeValid
    economicFieldsAbsent := forbiddenKeysAbsent economicFields receipt
    privateFieldsAbsent := forbiddenKeysAbsent privateFields receipt }

/-- What `projectReceipt` returns. -/
structure Projected where
  valid : Bool
  object : Json
  provider : Json
  witnesses : Json
  cids : Json

/-- `projectReceipt`. -/
def projectReceipt (receipt : Json) : Option Projected := do
  let object := objectOf receipt
  let signatures := object.get (js "signatures")
  let valid ← receiptShapeValid (← facts receipt)
  return {
    valid
    object
    provider := signatures.get (js "provider")
    witnesses := signatures.get (js "witnesses")
    cids := object.get (js "evidence-cids") }

/-! ## What a receipt is -/

/-- A string that satisfies `P`. -/
def IsText (P : JsString → Prop) (v : Json) : Prop := ∃ s, v = .str s ∧ P s

/-- An object with exactly these fields. -/
def HasFields (fields : List JsString) (v : Json) : Prop :=
  v.isObj = true ∧ ∀ k, k ∈ v.keys ↔ k ∈ fields

/-- A signer: a DID and a signature. -/
structure IsSigner (P : JsString → Prop) (v : Json) : Prop where
  fields : HasFields signerFields v
  did : IsText P (v.get (js "did"))
  signature : IsText (Bounded 4096) (v.get (js "signature"))

/-- 1 to 32 distinct witnesses, none of whom is the provider. -/
structure AreWitnesses (providerDid : JsString) (ws : List Json) : Prop where
  count : 1 ≤ ws.length ∧ ws.length ≤ 32
  signer : ∀ w ∈ ws, IsSigner (fun did => IsDid did ∧ did ≠ providerDid) w
  distinct : (ws.map fun w => w.get (js "did")).Nodup

/-- The service-evidence receipt, field by field. -/
structure IsReceipt (v : Json) : Prop where
  fields : HasFields receiptFields v
  schema : v.get (js "schema") = .str (js "kotoba.service-evidence/v1")
  eventId : IsText IsEventId (v.get (js "event-id"))
  orderId : IsText (Bounded 256) (v.get (js "order-id"))
  policyVersion : IsText (Bounded 128) (v.get (js "policy-version"))
  nonce : IsText (Bounded 256) (v.get (js "nonce"))
  contract : ∃ c ∈ workContracts, v.get (js "work-kind") = .str c.workKind ∧
    v.get (js "service-category") = .str c.serviceCategory ∧
    (v.get (js "measure")).get (js "kind") = .str c.measureKind
  measure : HasFields measureFields (v.get (js "measure"))
  measureValue : IsText IsPositiveDecimal ((v.get (js "measure")).get (js "value"))
  signatures : HasFields signaturesFields (v.get (js "signatures"))
  signed : ∃ did, v.get (js "provider-did") = .str did ∧ IsDid did ∧
    IsSigner (· = did) ((v.get (js "signatures")).get (js "provider")) ∧
    ∃ ws, (v.get (js "signatures")).get (js "witnesses") = .arr ws ∧ AreWitnesses did ws
  cids : ∃ cs, v.get (js "evidence-cids") = .arr cs ∧ 1 ≤ cs.length ∧ cs.length ≤ 64 ∧
    ∀ c ∈ cs, IsText (Bounded 512) c

/-! ## The verdict -/

/-- The facts of a well-shaped receipt, but for the two scans. -/
structure ShapeFacts (f : Facts) : Prop where
  schema : f.schema = js "kotoba.service-evidence/v1"
  eventId : IsEventId f.eventId
  orderId : Bounded 256 f.orderId
  providerDid : IsDid f.providerDid
  contract : ⟨f.workKind, f.serviceCategory, f.measureKind⟩ ∈ workContracts
  policyVersion : Bounded 128 f.policyVersion
  measureFields : f.measureFieldsValid = true
  measureValue : IsPositiveDecimal f.measureValue
  nonce : Bounded 256 f.nonce
  signaturesFields : f.signaturesFieldsValid = true
  provider : f.providerSignatureDid = f.providerDid
  providerSignature : Bounded 4096 f.providerSignature
  witnessCount : 1 ≤ f.witnessCount ∧ f.witnessCount ≤ 32
  witnesses : f.witnessesValid = true
  evidenceCount : 1 ≤ f.evidenceCount ∧ f.evidenceCount ≤ 64
  evidenceCids : f.evidenceCidsValid = true
  receiptFields : f.receiptFieldsValid = true

theorem receiptShapeValid_decides (f : Facts) : Decides (receiptShapeValid f)
    (ShapeFacts f ∧ f.economicFieldsAbsent = true ∧ f.privateFieldsAbsent = true) := by
  have bool (b : Bool) : Decides (some b) (b = true) := .some Iff.rfl
  have prop (P : Prop) [Decidable P] : Decides (some (decide P)) P := .some decide_eq_true_iff
  have contract : Decides (some (workContractValid f.workKind f.serviceCategory f.measureKind))
      (⟨f.workKind, f.serviceCategory, f.measureKind⟩ ∈ workContracts) :=
    .some List.contains_iff_mem
  refine ((prop _).also fun _ => (eventIdValid_decides _).also fun _ =>
    (boundedNonblank_decides _ (by decide)).also fun _ => (didValid_decides _).also fun _ =>
    contract.also fun _ => (boundedNonblank_decides _ (by decide)).also fun _ =>
    (bool _).also fun _ => (positiveDecimal_decides _).also fun _ =>
    (boundedNonblank_decides _ (by decide)).also fun _ => (bool _).also fun _ =>
    (prop _).also fun _ => (boundedNonblank_decides _ (by decide)).also fun _ =>
    (prop _).also fun _ => (bool _).also fun _ => (prop _).also fun _ => (bool _).also fun _ =>
    (bool _).also fun _ => (bool _).also fun _ => (bool _).also fun _ =>
    Decides.some (b := true) (P := True) (by simp)).congr ?_
  constructor
  · rintro ⟨h₁, h₂, h₃, h₄, h₅, h₆, h₇, h₈, h₉, h₁₀, h₁₁, h₁₂, h₁₃, h₁₄, h₁₅, h₁₆, h₁₇, he, hp, -⟩
    exact ⟨⟨h₁, h₂, h₃, h₄, h₅, h₆, h₇, h₈, h₉, h₁₀, h₁₁, h₁₂, h₁₃, h₁₄, h₁₅, h₁₆, h₁₇⟩, he, hp⟩
  · rintro ⟨h, he, hp⟩
    exact ⟨h.schema, h.eventId, h.orderId, h.providerDid, h.contract, h.policyVersion,
      h.measureFields, h.measureValue, h.nonce, h.signaturesFields, h.provider,
      h.providerSignature, h.witnessCount, h.witnesses, h.evidenceCount, h.evidenceCids,
      h.receiptFields, he, hp, trivial⟩

/-! ## The facts of a value -/

theorem keys_nodup {v : Json} (h : v.WF) : v.keys.Nodup := by
  cases v with
  | obj kvs =>
    refine List.Pairwise.imp (fun {a b} hab => ?_) h.1
    rintro rfl
    exact List.lt_irrefl _ hab
  | _ => exact List.nodup_nil

theorem hasExactFields_iff {v : Json} (hw : v.WF) {fields : List JsString} (hn : fields.Nodup) :
    hasExactFields v fields = true ↔ HasFields fields v := by
  simp only [hasExactFields, HasFields, Bool.and_eq_true, decide_eq_true_eq, List.all_eq_true,
    List.contains_iff_mem]
  constructor
  · rintro ⟨⟨ho, hlen⟩, hsub⟩
    have hp := (List.subperm_of_subset (keys_nodup hw) hsub).perm_of_length_le (by omega)
    exact ⟨ho, fun k => hp.mem_iff⟩
  · rintro ⟨ho, hmem⟩
    have hp := (List.perm_ext_iff_of_nodup (keys_nodup hw) hn).mpr hmem
    exact ⟨⟨ho, hp.length_eq⟩, fun k hk => (hmem k).mp hk⟩

theorem every_decides {test : Json → Option Bool} {P : Json → Prop} {xs : List Json}
    (h : ∀ x ∈ xs, Decides (test x) (P x)) : Decides (every test xs) (∀ x ∈ xs, P x) := by
  induction xs with
  | nil => exact .some (by simp)
  | cons x xs ih =>
    refine ((h x (by simp)).also fun _ => ih fun y hy => h y (by simp [hy])).congr ?_
    rw [List.forall_mem_cons]

theorem elements?_eq_some {v : Json} {n : Nat} {xs : List Json} :
    elements? v n = some xs ↔ v = .arr xs ∧ xs.length ≤ n := by
  unfold elements?
  split
  · rename_i ys
    split
    · rename_i h
      constructor
      · rintro ⟨⟩
        exact ⟨rfl, h⟩
      · rintro ⟨⟨⟩, -⟩
        rfl
    · rename_i h
      refine ⟨nofun, ?_⟩
      rintro ⟨⟨⟩, hle⟩
      exact absurd hle h
  · rename_i hv
    exact ⟨nofun, fun ⟨h, _⟩ => absurd h (hv xs)⟩

theorem witnessValid_decides (did : JsString) {w : Json} (hw : w.WF) :
    Decides (witnessValid did w) (IsSigner (fun d => IsDid d ∧ d ≠ did) w) := by
  unfold witnessValid
  split
  · rename_i d sig hd hs
    have hf : Decides (some (hasExactFields w signerFields)) (HasFields signerFields w) :=
      .some (hasExactFields_iff hw (by decide))
    refine (hf.also fun _ => (didValid_decides d).also fun _ =>
      (boundedNonblank_decides sig (by decide)).also fun _ =>
      Decides.some (P := d ≠ did) decide_eq_true_iff).congr ?_
    constructor
    · rintro ⟨h₁, h₂, h₃, h₄⟩
      exact ⟨h₁, ⟨d, hd, h₂, h₄⟩, ⟨sig, hs, h₃⟩⟩
    · rintro ⟨h₁, ⟨d', hd', h₂, h₄⟩, ⟨sig', hs', h₃⟩⟩
      rw [hd] at hd'
      rw [hs] at hs'
      obtain rfl := Json.str.inj hd'
      obtain rfl := Json.str.inj hs'
      exact ⟨h₁, h₂, h₃, h₄⟩
  · rename_i hno
    refine .some ⟨nofun, fun h => ?_⟩
    obtain ⟨d, hd, -⟩ := h.did
    obtain ⟨sig, hs, -⟩ := h.signature
    exact (hno d sig hd hs).elim

theorem cidValid_decides (c : Json) : Decides (cidValid c) (IsText (Bounded 512) c) := by
  unfold cidValid
  split
  · rename_i s
    refine (boundedNonblank_decides s (by decide)).congr ⟨fun h => ⟨s, rfl, h⟩, ?_⟩
    rintro ⟨s', hs', h⟩
    rwa [Json.str.inj hs']
  · rename_i hno
    exact .some ⟨nofun, fun ⟨s, hs, _⟩ => (hno s hs).elim⟩

theorem wfList_iff {xs : List Json} : Json.WFList xs ↔ ∀ x ∈ xs, x.WF := by
  induction xs with
  | nil => simp [Json.WFList]
  | cons x xs ih => simp [Json.WFList, ih]

theorem witnessShapesValid_decides (did : JsString) {v : Json} (hw : v.WF) :
    Decides (witnessShapesValid did v) (∃ ws, v = .arr ws ∧ ws.length ≤ 32 ∧
      (∀ w ∈ ws, IsSigner (fun d => IsDid d ∧ d ≠ did) w) ∧
      (ws.map fun w => w.get (js "did")).Nodup) := by
  unfold witnessShapesValid
  cases he : elements? v 32 with
  | none =>
    refine .some ⟨nofun, fun ⟨ws, hv, hlen, _⟩ => ?_⟩
    rw [elements?_eq_some.mpr ⟨hv, hlen⟩] at he
    exact nomatch he
  | some ws =>
    obtain ⟨rfl, hlen⟩ := elements?_eq_some.mp he
    have hws := every_decides fun w hmem =>
      witnessValid_decides did (wfList_iff.mp hw w hmem)
    refine (hws.also fun _ => Decides.some decide_eq_true_iff).congr ?_
    constructor
    · rintro ⟨h₁, h₂⟩
      exact ⟨ws, rfl, hlen, h₁, h₂⟩
    · rintro ⟨ws', h, -, h₁, h₂⟩
      obtain rfl := Json.arr.inj h
      exact ⟨h₁, h₂⟩

theorem evidenceShapeValid_decides (v : Json) : Decides (evidenceShapeValid v)
    (∃ cs, v = .arr cs ∧ cs.length ≤ 64 ∧ ∀ c ∈ cs, IsText (Bounded 512) c) := by
  unfold evidenceShapeValid
  cases he : elements? v 64 with
  | none =>
    refine .some ⟨nofun, fun ⟨cs, hv, hlen, _⟩ => ?_⟩
    rw [elements?_eq_some.mpr ⟨hv, hlen⟩] at he
    exact nomatch he
  | some cs =>
    obtain ⟨rfl, hlen⟩ := elements?_eq_some.mp he
    refine (every_decides fun c _ => cidValid_decides c).congr ⟨fun h => ⟨cs, rfl, hlen, h⟩, ?_⟩
    rintro ⟨cs', h, -, hall⟩
    obtain rfl := Json.arr.inj h
    exact hall

theorem eq_str_of_normalizedString {v : Json} {s : JsString} (h : normalizedString v = s)
    (hs : s ≠ []) : v = .str s := by
  cases v with
  | str t => rw [show t = s from h]
  | _ => exact absurd h.symm hs

/-- A rule that no empty string meets is met by a string. -/
theorem isText_iff {P : JsString → Prop} {v : Json} (hP : ¬ P []) :
    P (normalizedString v) ↔ IsText P v := by
  constructor
  · intro h
    cases v with
    | str s => exact ⟨s, rfl, h⟩
    | _ => exact absurd h hP
  · rintro ⟨s, rfl, h⟩
    exact h

theorem not_nonblank_nil : ¬ Nonblank [] := by
  rintro ⟨p, hp, -⟩
  exact nomatch hp

theorem not_isEventId_nil : ¬ IsEventId [] := fun h => absurd h.byteLength (by decide)

theorem not_isDid_nil : ¬ IsDid [] := by
  rintro ⟨t, h, -⟩
  exact absurd (congrArg List.length h) (by simp [show (js "did:key:").length = 8 by decide]; omega)

theorem not_isPositiveDecimal_nil : ¬ IsPositiveDecimal [] := by
  rintro ⟨-, -, u, t, h, -⟩
  exact nomatch h

theorem mem_keys_of_get {v : Json} {k : JsString} (h : v.get k ≠ .null) : k ∈ v.keys := by
  cases v with
  | obj kvs => exact List.mem_map_of_mem (f := Prod.fst) (Json.mem_of_lookup h)
  | _ => exact absurd rfl h

/-- A value with the fields of a receipt and no others. -/
theorem IsReceipt.of_subset {v : Json} (ho : v.isObj = true)
    (hsub : ∀ k ∈ v.keys, k ∈ receiptFields) (hall : ∀ k ∈ receiptFields, v.get k ≠ .null) :
    HasFields receiptFields v :=
  ⟨ho, fun k => ⟨hsub k, fun hk => mem_keys_of_get (hall k hk)⟩⟩

theorem IsText.ne_null {P : JsString → Prop} {v : Json} (h : IsText P v) : v ≠ .null := by
  obtain ⟨s, rfl, -⟩ := h
  simp

theorem HasFields.ne_null {fields : List JsString} {v : Json} (h : HasFields fields v) :
    v ≠ .null := by
  rintro rfl
  exact nomatch h.1

/-- The facts of a value trap on nothing, and are those of a receipt exactly when it is
one. -/
theorem facts_spec {v : Json} (hw : v.WF) : ∃ f, facts v = some f ∧ (ShapeFacts f ↔ IsReceipt v) ∧
    f.economicFieldsAbsent = forbiddenKeysAbsent economicFields v ∧
    f.privateFieldsAbsent = forbiddenKeysAbsent privateFields v := by
  have hwo : (objectOf v).WF := by
    unfold objectOf
    split
    · exact hw
    · exact ⟨List.Pairwise.nil, trivial⟩
  have hwm := hwo.get (js "measure")
  have hws := hwo.get (js "signatures")
  have hwp := hws.get (js "provider")
  obtain ⟨bw, hbw, hwit⟩ := witnessShapesValid_decides
    (normalizedString ((objectOf v).get (js "provider-did"))) (hws.get (js "witnesses"))
  obtain ⟨be, hbe, hev⟩ := evidenceShapeValid_decides ((objectOf v).get (js "evidence-cids"))
  unfold facts
  simp only [hbw, hbe, Option.bind_eq_bind, Option.bind_some, Option.pure_def]
  refine ⟨_, rfl, ?_, rfl, rfl⟩
  by_cases ho : v.isObj = true
  swap
  · constructor
    · intro h
      have := h.receiptFields
      simp [ho] at this
    · exact fun h => absurd h.fields.1 ho
  rw [show objectOf v = v from if_pos ho] at *
  have measureIff : hasExactFields (v.get (js "measure")) measureFields = true ↔ _ :=
    hasExactFields_iff hwm (by decide)
  have signaturesIff : hasExactFields (v.get (js "signatures")) signaturesFields = true ↔ _ :=
    hasExactFields_iff hws (by decide)
  have providerIff : hasExactFields ((v.get (js "signatures")).get (js "provider"))
      signerFields = true ↔ _ := hasExactFields_iff hwp (by decide)
  constructor
  · intro h
    have hsig := h.signaturesFields
    have hmea := h.measureFields
    have hrec := h.receiptFields
    simp only [Bool.and_eq_true, measureIff] at hmea
    simp only [Bool.and_eq_true, signaturesIff, providerIff] at hsig
    simp only [Bool.and_eq_true, List.all_eq_true, List.contains_iff_mem] at hrec
    obtain ⟨ws, hws', hwlen, hsigners, hnodup⟩ := hwit.mp h.witnesses
    obtain ⟨cs, hcs, hclen, hcids⟩ := hev.mp h.evidenceCids
    have hdid := (isText_iff not_isDid_nil).mp h.providerDid
    have hcontract := h.contract
    have nonempty : ∀ c ∈ workContracts, c.workKind ≠ [] ∧ c.serviceCategory ≠ [] ∧
        c.measureKind ≠ [] := by decide
    obtain ⟨hk, hc, hm⟩ := nonempty _ hcontract
    have hschema := eq_str_of_normalizedString h.schema (by decide)
    have hbounded : ∀ {n : Nat} {x : Json}, Bounded n (normalizedString x) → IsText (Bounded n) x :=
      (isText_iff fun hb => not_nonblank_nil hb.2).mp
    have heid := (isText_iff not_isEventId_nil).mp h.eventId
    have hkind := eq_str_of_normalizedString rfl hk
    have hcat := eq_str_of_normalizedString rfl hc
    have hunit := eq_str_of_normalizedString rfl hm
    obtain ⟨did, hd, hdv⟩ := hdid
    rw [hd] at hsigners
    have hprov : IsText (· = did) (((v.get (js "signatures")).get (js "provider")).get (js "did")) := by
      have hp := h.provider
      have hne : did ≠ [] := by
        rintro rfl
        exact not_isDid_nil hdv
      rw [hd] at hp
      exact ⟨did, eq_str_of_normalizedString hp hne, rfl⟩
    have hcount : 1 ≤ ws.length ∧ ws.length ≤ 32 := by
      simpa [elements?_eq_some.mpr ⟨hws', hwlen⟩] using h.witnessCount
    have hecount : 1 ≤ cs.length ∧ cs.length ≤ 64 := by
      have hbt : be = true := h.evidenceCids
      simpa [hbt, elements?_eq_some.mpr ⟨hcs, hclen⟩] using h.evidenceCount
    refine ⟨IsReceipt.of_subset ho hrec.2 ?_, hschema, heid, hbounded h.orderId,
      hbounded h.policyVersion, hbounded h.nonce, ⟨_, hcontract, hkind, hcat, hunit⟩, hmea.1.1,
      (isText_iff not_isPositiveDecimal_nil).mp h.measureValue, hsig.1.1,
      ⟨did, hd, hdv, ⟨hsig.1.2, hprov, hbounded h.providerSignature⟩, ws, hws', hcount, hsigners,
        hnodup⟩, cs, hcs, hecount.1, hecount.2, hcids⟩
    intro k hk
    simp only [receiptFields, List.mem_cons, List.not_mem_nil, or_false] at hk
    rcases hk with rfl | rfl | rfl | rfl | rfl | rfl | rfl | rfl | rfl | rfl | rfl
    · rw [hschema]; simp
    · exact heid.ne_null
    · exact (hbounded h.orderId).ne_null
    · rw [hd]; simp
    · rw [hkind]; simp
    · rw [hcat]; simp
    · exact (hbounded h.policyVersion).ne_null
    · exact hmea.1.1.ne_null
    · rw [hcs]; simp
    · exact hsig.1.1.ne_null
    · exact (hbounded h.nonce).ne_null
  · intro h
    obtain ⟨did, hd, hdv, hprov, ws, hws', hwit'⟩ := h.signed
    obtain ⟨cs, hcs, hc1, hc64, hcids⟩ := h.cids
    obtain ⟨c, hmem, hkind, hcat, hunit⟩ := h.contract
    obtain ⟨did', hpd, rfl⟩ := hprov.did
    have hbounded : ∀ {n : Nat} {x : Json}, IsText (Bounded n) x → Bounded n (normalizedString x) :=
      (isText_iff fun hb => not_nonblank_nil hb.2).mpr
    have hbt : be = true := hev.mpr ⟨cs, hcs, hc64, hcids⟩
    have hsigners := hwit'.signer
    have hbw' : bw = true := by
      refine hwit.mpr ⟨ws, hws', hwit'.count.2, ?_, hwit'.distinct⟩
      rw [hd]
      exact hsigners
    have hwl := elements?_eq_some.mpr ⟨hws', hwit'.count.2⟩
    obtain ⟨value, hvalue, -⟩ := h.measureValue
    constructor
    case schema => rw [h.schema]; rfl
    case eventId => exact (isText_iff not_isEventId_nil).mpr h.eventId
    case orderId => exact hbounded h.orderId
    case providerDid => rw [hd]; exact hdv
    case contract => rw [hkind, hcat, hunit]; exact hmem
    case policyVersion => exact hbounded h.policyVersion
    case measureFields => simp [measureIff.mpr h.measure, hunit, hvalue, Json.str?]
    case measureValue => exact (isText_iff not_isPositiveDecimal_nil).mpr h.measureValue
    case nonce => exact hbounded h.nonce
    case signaturesFields => simp [signaturesIff.mpr h.signatures, providerIff.mpr hprov.fields, hwl]
    case provider => rw [hpd, hd]
    case providerSignature => exact hbounded hprov.signature
    case witnessCount => simpa [hwl] using hwit'.count
    case witnesses => exact hbw'
    case evidenceCount => simpa [hbt, elements?_eq_some.mpr ⟨hcs, hc64⟩] using ⟨hc1, hc64⟩
    case evidenceCids => exact hbt
    case receiptFields =>
      simp only [Bool.and_eq_true, List.all_eq_true, List.contains_iff_mem]
      exact ⟨ho, fun k hk => (h.fields.2 k).mp hk⟩

/-! ## The scans -/

section Measures

variable (forbidden : List JsString)

mutual

/-- No object, at any depth, has a forbidden key. -/
def NoKey : Json → Prop
  | .arr xs => NoKeyList xs
  | .obj kvs => NoKeyEntries kvs
  | _ => True

def NoKeyList : List Json → Prop
  | [] => True
  | x :: xs => NoKey x ∧ NoKeyList xs

def NoKeyEntries : List (JsString × Json) → Prop
  | [] => True
  | e :: kvs => (e.1 ∉ forbidden ∧ NoKey e.2) ∧ NoKeyEntries kvs

end

mutual

/-- The nodes of a value. -/
def size : Json → Nat
  | .arr xs => 1 + sizeList xs
  | .obj kvs => 1 + sizeEntries kvs
  | _ => 1

def sizeList : List Json → Nat
  | [] => 0
  | x :: xs => size x + sizeList xs

def sizeEntries : List (JsString × Json) → Nat
  | [] => 0
  | e :: kvs => size e.2 + sizeEntries kvs

end

mutual

/-- At most `d` levels below the value, and at most 64 entries in an object. -/
def Fits : Nat → Json → Prop
  | d, .arr xs => FitsList d xs
  | d, .obj kvs => kvs.length ≤ 64 ∧ FitsEntries d kvs
  | _, _ => True

def FitsList : Nat → List Json → Prop
  | _, [] => True
  | d, x :: xs => (0 < d ∧ Fits (d - 1) x) ∧ FitsList d xs

def FitsEntries : Nat → List (JsString × Json) → Prop
  | _, [] => True
  | d, e :: kvs => (0 < d ∧ Fits (d - 1) e.2) ∧ FitsEntries d kvs

end

end Measures

section Visit

variable {forbidden : List JsString}

mutual

/-- A scan that comes to its end finds every value that fits and has no forbidden key. -/
theorem visit_complete : ∀ {v : Json} {d depth nodes : Nat}, NoKey forbidden v → Fits d v →
    depth + d ≤ 8 → nodes + size v ≤ 4096 → visit forbidden v depth nodes = (true, nodes + size v)
  | .arr xs, d, depth, nodes, hk, hf, hd, hn => by
    rw [size] at hn
    rw [visit, if_neg (by omega), if_neg (by omega),
      visitAll_complete hk hf hd (by omega), size, Nat.add_assoc]
  | .obj kvs, d, depth, nodes, hk, hf, hd, hn => by
    rw [size] at hn
    have hlen := hf.1
    simp only [visit]
    rw [if_neg (by omega), if_neg (by omega), if_neg (by omega),
      visitEntries_complete hk hf.2 hd (by omega), size, Nat.add_assoc]
  | .null, d, depth, nodes, _, _, hd, hn => by
    simp only [size] at hn ⊢
    simp only [visit]
    rw [if_neg (by omega), if_neg (by omega)]
  | .bool _, d, depth, nodes, _, _, hd, hn => by
    simp only [size] at hn ⊢
    simp only [visit]
    rw [if_neg (by omega), if_neg (by omega)]
  | .num _, d, depth, nodes, _, _, hd, hn => by
    simp only [size] at hn ⊢
    simp only [visit]
    rw [if_neg (by omega), if_neg (by omega)]
  | .str _, d, depth, nodes, _, _, hd, hn => by
    simp only [size] at hn ⊢
    simp only [visit]
    rw [if_neg (by omega), if_neg (by omega)]

theorem visitAll_complete : ∀ {xs : List Json} {d depth nodes : Nat}, NoKeyList forbidden xs →
    FitsList d xs → depth + d ≤ 8 → nodes + sizeList xs ≤ 4096 →
    visitAll forbidden xs (depth + 1) nodes = (true, nodes + sizeList xs)
  | [], _, _, _, _, _, _, _ => rfl
  | x :: xs, d, depth, nodes, hk, hf, hd, hn => by
    obtain ⟨⟨hpos, hx⟩, hxs⟩ := hf
    rw [sizeList] at hn
    rw [visitAll, visit_complete hk.1 hx (by omega) (by omega), sizeList, ← Nat.add_assoc]
    exact visitAll_complete hk.2 hxs hd (by omega)

theorem visitEntries_complete : ∀ {kvs : List (JsString × Json)} {d depth nodes : Nat},
    NoKeyEntries forbidden kvs → FitsEntries d kvs → depth + d ≤ 8 →
    nodes + sizeEntries kvs ≤ 4096 →
    visitEntries forbidden kvs (depth + 1) nodes = (true, nodes + sizeEntries kvs)
  | [], _, _, _, _, _, _, _ => rfl
  | e :: kvs, d, depth, nodes, hk, hf, hd, hn => by
    obtain ⟨⟨hpos, hx⟩, hxs⟩ := hf
    rw [sizeEntries] at hn
    rw [visitEntries, if_neg (by simpa using hk.1.1),
      visit_complete hk.1.2 hx (by omega) (by omega), sizeEntries, ← Nat.add_assoc]
    exact visitEntries_complete hk.2 hxs hd (by omega)

end

end Visit

/-- A value that a scan passes: no forbidden key, `d` levels, `n` nodes. -/
structure Passes (forbidden : List JsString) (d n : Nat) (v : Json) : Prop where
  noKey : NoKey forbidden v
  fits : Fits d v
  size : size v ≤ n

section Passes

variable {forbidden : List JsString} {d n : Nat}

theorem Passes.str (s : JsString) : Passes forbidden d 1 (.str s) :=
  ⟨trivial, trivial, Nat.le_refl 1⟩

theorem Passes.mono {v : Json} {m : Nat} (h : Passes forbidden d n v) (hm : n ≤ m) :
    Passes forbidden d m v :=
  ⟨h.noKey, h.fits, h.size.trans hm⟩

theorem Passes.text {P : JsString → Prop} {v : Json} (h : IsText P v) : Passes forbidden d 1 v := by
  obtain ⟨s, rfl, -⟩ := h
  exact .str s

theorem Passes.arr {xs : List Json} (h : ∀ x ∈ xs, Passes forbidden d n x) :
    Passes forbidden (d + 1) (1 + xs.length * n) (.arr xs) := by
  have key : NoKeyList forbidden xs ∧ FitsList (d + 1) xs ∧ sizeList xs ≤ xs.length * n := by
    induction xs with
    | nil => exact ⟨trivial, trivial, Nat.zero_le _⟩
    | cons x xs ih =>
      obtain ⟨hx, hxs⟩ := List.forall_mem_cons.mp h
      obtain ⟨hk, hf, hs⟩ := ih hxs
      refine ⟨⟨hx.noKey, hk⟩, ⟨⟨by omega, hx.fits⟩, hf⟩, ?_⟩
      have := hx.size
      rw [sizeList, List.length_cons, Nat.succ_mul]
      omega
  refine ⟨key.1, key.2.1, ?_⟩
  have := key.2.2
  rw [Economy.size]
  omega

theorem Passes.obj {v : Json} {fields : List JsString} (hw : v.WF) (hf : HasFields fields v)
    (hlen : fields.length ≤ 64) (hforb : ∀ k ∈ fields, k ∉ forbidden)
    (h : ∀ k ∈ fields, Passes forbidden d n (v.get k)) :
    Passes forbidden (d + 1) (1 + fields.length * n) v := by
  cases v with
  | obj kvs =>
    have hcount : kvs.length ≤ fields.length := by
      have hsub := List.subperm_of_subset (keys_nodup hw) fun k hk => (hf.2 k).mp hk
      simpa [Json.keys] using hsub.length_le
    have hmem : ∀ e ∈ kvs, e.1 ∉ forbidden ∧ Passes forbidden d n e.2 := by
      intro e he
      have hk : e.1 ∈ fields := (hf.2 e.1).mp (List.mem_map_of_mem he)
      have hget : (Json.obj kvs).get e.1 = e.2 := Json.lookup_of_mem hw.1 he
      exact ⟨hforb _ hk, hget ▸ h _ hk⟩
    have key : ∀ l : List (JsString × Json), (∀ e ∈ l, e.1 ∉ forbidden ∧ Passes forbidden d n e.2) →
        NoKeyEntries forbidden l ∧ FitsEntries (d + 1) l ∧ sizeEntries l ≤ l.length * n := by
      intro l hl
      induction l with
      | nil => exact ⟨trivial, trivial, Nat.zero_le _⟩
      | cons e l ih =>
        obtain ⟨⟨hek, he⟩, hl⟩ := List.forall_mem_cons.mp hl
        obtain ⟨hk, hfit, hs⟩ := ih hl
        refine ⟨⟨⟨hek, he.noKey⟩, hk⟩, ⟨⟨by omega, he.fits⟩, hfit⟩, ?_⟩
        have := he.size
        rw [sizeEntries, List.length_cons, Nat.succ_mul]
        omega
    obtain ⟨hk, hfit, hs⟩ := key kvs hmem
    refine ⟨hk, ⟨by omega, hfit⟩, ?_⟩
    have := Nat.mul_le_mul_right n hcount
    rw [Economy.size]
    omega
  | _ => exact nomatch hf.1

end Passes

/-- The keys a receipt has, at any depth. -/
def receiptKeys : List JsString := receiptFields ++ measureFields ++ signaturesFields ++ signerFields

/-- A receipt passes every scan for keys that it cannot have. -/
theorem IsReceipt.passes {v : Json} (hw : v.WF) (h : IsReceipt v) {forbidden : List JsString}
    (hforb : ∀ k ∈ receiptKeys, k ∉ forbidden) : Passes forbidden 4 4096 v := by
  obtain ⟨did, hd, hdv, hprov, ws, hws, hwit⟩ := h.signed
  obtain ⟨cs, hcs, hc1, hc64, hcids⟩ := h.cids
  obtain ⟨c, hmem, hkind, hcat, hunit⟩ := h.contract
  simp only [receiptKeys, List.forall_mem_append] at hforb
  obtain ⟨⟨⟨hrf, hmf⟩, hsf⟩, hgf⟩ := hforb
  have signer : ∀ {d : Nat} {P : JsString → Prop} {w : Json}, w.WF → IsSigner P w →
      Passes forbidden (d + 1) 3 w := by
    intro d P w hw hs
    refine Passes.obj (n := 1) hw hs.fields (by decide) hgf fun k hk => ?_
    simp only [signerFields, List.mem_cons, List.not_mem_nil, or_false] at hk
    rcases hk with rfl | rfl
    · exact .text hs.did
    · exact .text hs.signature
  have hwsig := hw.get (js "signatures")
  have witnesses : Passes forbidden 2 97 ((v.get (js "signatures")).get (js "witnesses")) := by
    have hwws := hwsig.get (js "witnesses")
    rw [hws] at hwws ⊢
    refine (Passes.arr fun w hw => signer (wfList_iff.mp hwws w hw) (hwit.signer w hw)).mono ?_
    have := hwit.count.2
    omega
  have signatures : Passes forbidden 3 195 (v.get (js "signatures")) := by
    refine Passes.obj (n := 97) hwsig h.signatures (by decide) hsf fun k hk => ?_
    simp only [signaturesFields, List.mem_cons, List.not_mem_nil, or_false] at hk
    rcases hk with rfl | rfl
    · exact (signer (hwsig.get _) hprov).mono (by decide)
    · exact witnesses
  have measure : Passes forbidden 3 3 (v.get (js "measure")) := by
    refine Passes.obj (n := 1) (hw.get _) h.measure (by decide) hmf fun k hk => ?_
    simp only [measureFields, List.mem_cons, List.not_mem_nil, or_false] at hk
    rcases hk with rfl | rfl
    · rw [hunit]
      exact .str _
    · exact .text h.measureValue
  have cids : Passes forbidden 3 65 (v.get (js "evidence-cids")) := by
    rw [hcs]
    exact (Passes.arr fun c hc => .text (hcids c hc)).mono (by omega)
  have text : ∀ {P : JsString → Prop} {x : Json}, IsText P x → Passes forbidden 3 195 x :=
    fun hx => (Passes.text hx).mono (by decide)
  have str : ∀ {x : Json} {s : JsString}, x = .str s → Passes forbidden 3 195 x := by
    rintro x s rfl
    exact (Passes.str s).mono (by decide)
  refine (Passes.obj (n := 195) hw h.fields (by decide) hrf fun k hk => ?_).mono (by decide)
  simp only [receiptFields, List.mem_cons, List.not_mem_nil, or_false] at hk
  rcases hk with rfl | rfl | rfl | rfl | rfl | rfl | rfl | rfl | rfl | rfl | rfl
  · exact str h.schema
  · exact text h.eventId
  · exact text h.orderId
  · exact str hd
  · exact str hkind
  · exact str hcat
  · exact text h.policyVersion
  · exact measure.mono (by decide)
  · exact cids.mono (by decide)
  · exact signatures
  · exact text h.nonce

theorem Passes.absent {v : Json} {forbidden : List JsString} (h : Passes forbidden 4 4096 v) :
    forbiddenKeysAbsent forbidden v = true := by
  rw [forbiddenKeysAbsent, visit_complete h.noKey h.fits (by decide) (by have := h.size; omega)]

/-- **The shape check is exact**: for every JSON value the projection traps on nothing,
and reports valid exactly the receipts; these have no economic or private key at any
depth, and leaving the two scans out changes no verdict. -/
theorem projectReceipt_exact (v : Json) (hw : v.WF) :
    (∃ p, projectReceipt v = some p ∧ (p.valid = true ↔ IsReceipt v)) ∧
    (IsReceipt v → NoKey economicFields v ∧ NoKey privateFields v) ∧
    (∃ f, facts v = some f ∧ receiptShapeValid f =
      receiptShapeValid { f with economicFieldsAbsent := true, privateFieldsAbsent := true }) := by
  obtain ⟨f, hf, hshape, he, hp⟩ := facts_spec hw
  have passes : ∀ forbidden, (∀ k ∈ receiptKeys, k ∉ forbidden) → IsReceipt v →
      Passes forbidden 4 4096 v := fun forbidden hforb h => h.passes hw hforb
  have economic := passes economicFields (by decide)
  have priv := passes privateFields (by decide)
  have scans : ShapeFacts f ∧ f.economicFieldsAbsent = true ∧ f.privateFieldsAbsent = true ↔
      IsReceipt v := by
    rw [hshape, he, hp]
    exact ⟨fun h => h.1, fun h => ⟨h, (economic h).absent, (priv h).absent⟩⟩
  obtain ⟨b, hb, hbv⟩ := (receiptShapeValid_decides f).congr scans
  refine ⟨?_, fun h => ⟨(economic h).noKey, (priv h).noKey⟩, f, hf, ?_⟩
  · rw [projectReceipt, hf, Option.bind_eq_bind, Option.bind_some, hb]
    exact ⟨_, rfl, hbv⟩
  · have shapeOnly : ShapeFacts { f with economicFieldsAbsent := true, privateFieldsAbsent := true } ↔
        ShapeFacts f := by
      constructor <;> rintro ⟨⟩ <;> constructor <;> assumption
    obtain ⟨b', hb', hbv'⟩ := receiptShapeValid_decides
      { f with economicFieldsAbsent := true, privateFieldsAbsent := true }
    rw [hb, hb', Bool.eq_iff_iff.mpr (hbv.trans (hshape.symm.trans ?_))]
    rw [hbv', shapeOnly]
    simp

namespace Sample

def signer (did : JsString) : Json := .obj [(js "did", .str did), (js "signature", .str (js "sig"))]

def receipt : Json :=
  .obj [(js "event-id", .str (js "sha256:" ++ List.replicate 64 (unit 'a'))),
    (js "evidence-cids", .arr [.str (js "bafk")]),
    (js "measure", .obj [(js "kind", .str (js "client-useful-bytes")), (js "value", .str (js "120"))]),
    (js "nonce", .str (js "n1")), (js "order-id", .str (js "o1")),
    (js "policy-version", .str (js "v1")), (js "provider-did", .str (js "did:key:p")),
    (js "schema", .str (js "kotoba.service-evidence/v1")),
    (js "service-category", .str (js "delivery-serving")),
    (js "signatures", .obj [(js "provider", signer (js "did:key:p")),
      (js "witnesses", .arr [signer (js "did:key:w")])]),
    (js "work-kind", .str (js "yataverse-useful-egress"))]

theorem receipt_wf : receipt.WF := by
  have pair : ∀ a b : JsString, a < b → Json.KeysSorted [(a, Json.null), (b, Json.null)] := by
    intro a b h
    simp [Json.KeysSorted, h]
  have hsigner : ∀ did, (signer did).WF := fun did =>
    ⟨pair (js "did") (js "signature") (by decide), trivial, trivial, trivial⟩
  refine ⟨?_, trivial, ⟨trivial, trivial⟩, ⟨pair (js "kind") (js "value") (by decide), trivial,
    trivial, trivial⟩, trivial, trivial, trivial, trivial, trivial, trivial,
    ⟨pair (js "provider") (js "witnesses") (by decide), hsigner _, ⟨hsigner _, trivial⟩, trivial⟩,
    trivial, trivial⟩
  show List.Pairwise (· < ·) [js "event-id", js "evidence-cids", js "measure", js "nonce",
    js "order-id", js "policy-version", js "provider-did", js "schema", js "service-category",
    js "signatures", js "work-kind"]
  decide

theorem receipt_valid : (projectReceipt receipt).map Projected.valid = some true := by
  decide +kernel

end Sample

/-- A receipt that is accepted is one. -/
theorem projectReceipt_exact_sample : IsReceipt Sample.receipt ∧
    NoKey economicFields Sample.receipt ∧ NoKey privateFields Sample.receipt := by
  obtain ⟨⟨p, hp, hv⟩, hno, -⟩ := projectReceipt_exact Sample.receipt Sample.receipt_wf
  have hvalid := Sample.receipt_valid
  rw [hp] at hvalid
  have h := hv.mp (Option.some.inj hvalid)
  exact ⟨h, hno h⟩

end Economy
