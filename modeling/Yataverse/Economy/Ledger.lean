import Yataverse.Economy.Receipt
import Yataverse.EventLoop.Atomic
import Yataverse.Js.Map

/-!
# The replay ledger

`admitReceipt` of `evidence-host.mjs`, any number of calls at once on one ledger. The
verifiers answer asynchronously and as they like; the ledger is read and written after
the last of them.

- `checkReceipt`, `admitReceipt`: the calls.
- `LedgerOk`: the two maps hold exactly what the accepted calls have brought.
- **`admitReceipt_ledger`**: this in every run, and what follows from it.
-/

namespace Economy

open Js EventLoop Function

/-! ## Checking a receipt -/

/-- The injected verifiers. -/
inductive Verifier where
  | canonicalize
  | digestValid
  | signatureValid
  | policyValid
  | evidenceValid
deriving DecidableEq

def Verifier.names : List (Verifier × JsString) :=
  [(canonicalize, js "canonicalize"), (digestValid, js "digestValid"),
    (signatureValid, js "signatureValid"), (policyValid, js "policyValid"),
    (evidenceValid, js "evidenceValid")]

/-- A call of a verifier. -/
inductive Question where
  | canonicalize (body : Json)
  | digestValid (canonical eventId : JsString)
  | signatureValid (message : JsString) (signer : Json)
  | policyValid (object : Json)
  | evidenceValid (object : Json)

/-- What is awaited: the answer to one question, or with `Promise.all` those to several. -/
inductive Await where
  | one (q : Question)
  | all (qs : List Question)

/-- What an await is settled with; an answer that is no JSON value counts as null. -/
def Await.Value : Await → Type
  | one _ => Json
  | all qs => { vs : List Json // vs.length = qs.length }

/-- Why a call rejects: a `TypeError`, a trap of the core, or a verifier that rejects. -/
inductive Thrown where
  | typeError (message : JsString)
  | trap
  | rejected (reason : Json)

structure Ledger where
  events : JsMap JsString JsString
  nonces : JsMap JsString JsString

/-- `emptyLedger`. -/
def emptyLedger : Ledger := ⟨.empty, .empty⟩

abbrev EvidenceTask := Task Ledger Await (fun a => Except Json a.Value) Thrown

def settled {α : Type} : Except Json α → EvidenceTask α
  | .ok v => .ret v
  | .error e => .throw (.rejected e)

/-- Await one verifier. -/
def ask (q : Question) : EvidenceTask Json := .await (.one q) settled

/-- Await several verifiers at once. -/
def askAll (qs : List Question) : EvidenceTask (List Json) :=
  .await (.all qs) fun r => (settled r).bind fun vs => .ret vs.1

def isTrue : Json → Bool
  | .bool b => b
  | _ => false

/-- `requireVerifiers`. -/
def requireVerifiers (verifiers : Verifier → Bool) : EvidenceTask Unit :=
  match Verifier.names.find? fun v => !verifiers v.1 with
  | some v => throw (.typeError (js "service evidence verifier " ++ v.2 ++ js " is required"))
  | none => return

/-- `canonicalBody`. -/
def canonicalBody (receipt : Json) : Json :=
  match receipt with
  | .obj kvs => .obj (kvs.filter fun e => e.1 ≠ js "event-id" && e.1 ≠ js "signatures")
  | _ => .obj []

/-- The text of a field; every field read this way is a string in a valid receipt. -/
def textField (object : Json) (field : JsString) : JsString := normalizedString (object.get field)

/-- What `checkReceipt` resolves with. -/
structure Checked extends Projected where
  body : Json
  canonical : JsString

/-- The projection of a receipt that has the shape of one. -/
def shaped (receipt : Json) : EvidenceTask Projected :=
  match projectReceipt receipt with
  | none => throw .trap
  | some projected =>
    if projected.valid then return projected
    else throw (.typeError (js "service evidence has invalid shape"))

/-- The text that `canonicalize` answers. -/
def canonicalText : Json → EvidenceTask JsString
  | .str canonical =>
    if 100000 < canonical.length then
      throw (.typeError (js "canonical service evidence body is invalid or too large"))
    else return canonical
  | _ => throw (.typeError (js "canonical service evidence body is invalid or too large"))

/-- Two checks that fail when they are not made. -/
def checkedWhen (needed : Bool) (check : EvidenceTask (Bool × Bool)) : EvidenceTask (Bool × Bool) :=
  if needed then check else return (false, false)

/-- `providerSignatureValid` and `witnessesSignaturesValid`. -/
def signaturesValid (projected : Projected) (message : JsString) : EvidenceTask (Bool × Bool) := do
  let providerSignatureValid := isTrue (← ask (.signatureValid message projected.provider))
  if providerSignatureValid then
    let signers := (elements? projected.witnesses 32).getD []
    let results ← askAll (signers.map (.signatureValid message))
    return (providerSignatureValid, results.all isTrue)
  else return (providerSignatureValid, false)

/-- `policyValid` and `evidenceValid`. -/
def policyAndEvidenceValid (object : Json) : EvidenceTask (Bool × Bool) := do
  let results ← askAll [.policyValid object, .evidenceValid object]
  return (isTrue (results.getD 0 .null), isTrue (results.getD 1 .null))

/-- `checkReceipt`. -/
def checkReceipt (receipt : Json) (verifiers : Verifier → Bool) : EvidenceTask Checked := do
  requireVerifiers verifiers
  let projected ← shaped receipt
  let body := canonicalBody projected.object
  let canonical ← canonicalText (← ask (.canonicalize body))
  let eventId := textField projected.object (js "event-id")
  let digestValid := isTrue (← ask (.digestValid canonical eventId))
  let message := signingMessage eventId
  let (providerSignatureValid, witnessesSignaturesValid) ←
    checkedWhen digestValid (signaturesValid projected message)
  let (policyValid, evidenceValid) ←
    checkedWhen (digestValid && providerSignatureValid && witnessesSignaturesValid)
      (policyAndEvidenceValid projected.object)
  if verificationComplete digestValid providerSignatureValid witnessesSignaturesValid policyValid
      evidenceValid then
    return { projected with body, canonical }
  else throw (.typeError (js "service evidence verification failed"))

/-! ## Admission -/

inductive Status where
  | accepted
  | duplicate
deriving DecidableEq

/-- What `admitReceipt` resolves with, but for the ledger, which it shares. -/
structure Admission where
  status : Status
  eventId : JsString
  economicActions : List Json
deriving DecidableEq

/-- `nonceKey`: both texts, each behind its length. -/
def nonceKey (orderId nonce : JsString) : JsString :=
  natStr orderId.length ++ unit ':' :: orderId ++ (natStr nonce.length ++ unit ':' :: nonce)

/-- `admitReceipt`, from the end of `checkReceipt` on. -/
def admitChecked (checked : Checked) : EvidenceTask Admission := do
  let eventId := textField checked.object (js "event-id")
  let orderId := textField checked.object (js "order-id")
  let nonce := textField checked.object (js "nonce")
  let nonceKey := nonceKey orderId nonce
  let ledger ← Task.reads id
  let priorBody := ledger.events.get eventId
  let decision := admissionCode (ledger.events.has eventId) (priorBody = some checked.canonical)
    (ledger.nonces.has nonceKey)
  if decision = 1 then
    return ⟨.duplicate, eventId, []⟩
  else if decision = -1 then
    throw (.typeError (js "service evidence event-id collision"))
  else if decision = -2 then
    throw (.typeError (js "service evidence nonce already used for this order"))
  else if decision ≠ 0 then
    throw (.typeError (js "service evidence core returned an invalid replay decision"))
  else
    Task.modify fun l => { l with events := l.events.set eventId checked.canonical }
    Task.modify fun l => { l with nonces := l.nonces.set nonceKey eventId }
    return ⟨.accepted, eventId, []⟩

/-- A call: the receipt, and which verifiers are given. -/
structure Call where
  receipt : Json
  verifiers : Verifier → Bool

/-- `admitReceipt`. -/
def admitReceipt (call : Call) : EvidenceTask Admission := do
  admitChecked (← checkReceipt call.receipt call.verifiers)

/-- Calls on one ledger; the world answers the verifiers as it likes. -/
def calling {ι : Type} (calls : ι → Call) :
    Loop ι Ledger Unit Await ((a : Await) → Except Json a.Value)
      (fun a => Except Json a.Value) Thrown Admission where
  spawn i := admitReceipt (calls i)
  exec _ _ _ a answer := some (answer a, ())
  tick _ _ := none

/-! ## The key of an order and a nonce -/

/-- A text behind its length can be told from what follows it. -/
theorem sized_append_inj {a b r r' : JsString}
    (h : natStr a.length ++ unit ':' :: a ++ r = natStr b.length ++ unit ':' :: b ++ r') :
    a = b ∧ r = r' := by
  have colon : ∀ (u : UInt16) (t t' : JsString), unit ':' :: t = u :: t' → ¬ IsDigit u := by
    rintro u t t' h
    obtain ⟨rfl, -⟩ := List.cons.inj h
    unfold IsDigit
    decide
  have split : ∀ a r : JsString, spanDigits (natStr a.length ++ unit ':' :: a ++ r) =
      (natStr a.length, unit ':' :: a ++ r) := by
    intro a r
    rw [List.append_assoc]
    exact spanDigits_append (isDigit_natStr _) fun u t => colon u (a ++ r) t
  have hspan := congrArg spanDigits h
  rw [split, split, Prod.mk.injEq] at hspan
  have hlen : a.length = b.length := by
    rw [← ofDigits_natStr a.length, hspan.1, ofDigits_natStr]
  exact List.append_inj (List.cons.inj hspan.2).2 hlen

/-- The key determines the order and the nonce. -/
theorem nonceKey_inj {o n o' n' : JsString} (h : nonceKey o n = nonceKey o' n') :
    o = o' ∧ n = n' := by
  obtain ⟨ho, hrest⟩ := sized_append_inj h
  exact ⟨ho, (@sized_append_inj n n' [] [] (by simpa using hrest)).1⟩

/-! ## Calls are atomic -/

section Calls

variable {ι : Type} {calls : ι → Call} {i : ι}

theorem shaped_cases (receipt : Json) : (∃ e, shaped receipt = .throw e) ∨
    ∃ p, shaped receipt = .ret p ∧ p.object = objectOf receipt := by
  unfold shaped
  split
  · exact .inl ⟨_, rfl⟩
  · rename_i p hp
    split
    · refine .inr ⟨p, rfl, ?_⟩
      obtain ⟨f, -, hp⟩ := Option.bind_eq_some_iff.mp hp
      obtain ⟨v, -, hp⟩ := Option.bind_eq_some_iff.mp hp
      rw [← Option.some.inj hp]
    · exact .inl ⟨_, rfl⟩

theorem ask_gives (q : Question) : (ask q).Gives fun _ => True := by
  rintro (e | v) <;> trivial

theorem askAll_gives (qs : List Question) : (askAll qs).Gives fun _ => True := by
  rintro (e | v) <;> trivial

theorem requireVerifiers_gives (verifiers : Verifier → Bool) :
    (requireVerifiers verifiers).Gives fun _ => True := by
  unfold requireVerifiers
  split <;> trivial

theorem canonicalText_gives (v : Json) : (canonicalText v).Gives fun _ => True := by
  unfold canonicalText
  split
  · split <;> trivial
  · trivial

theorem checkedWhen_gives {needed : Bool} {check : EvidenceTask (Bool × Bool)}
    (h : check.Gives fun _ => True) : (checkedWhen needed check).Gives fun _ => True := by
  unfold checkedWhen
  split
  · exact h
  · trivial

theorem signaturesValid_gives (projected : Projected) (message : JsString) :
    (signaturesValid projected message).Gives fun _ => True := by
  refine (ask_gives _).bind fun provider _ => ?_
  dsimp only
  split
  · exact (askAll_gives _).bind fun _ _ => trivial
  · trivial

theorem policyAndEvidenceValid_gives (object : Json) :
    (policyAndEvidenceValid object).Gives fun _ => True :=
  (askAll_gives _).bind fun _ _ => trivial

/-- A check leaves the ledger alone, and resolves with the object it was given. -/
theorem checkReceipt_gives (receipt : Json) (verifiers : Verifier → Bool) :
    (checkReceipt receipt verifiers).Gives fun c => c.object = objectOf receipt := by
  refine (requireVerifiers_gives verifiers).bind fun _ _ => ?_
  rcases shaped_cases receipt with ⟨e, hs⟩ | ⟨p, hs, hp⟩ <;> rw [hs]
  · trivial
  refine (ask_gives _).bind fun body _ => (canonicalText_gives body).bind fun canonical _ =>
    (ask_gives _).bind fun digest _ =>
    (checkedWhen_gives (signaturesValid_gives p _)).bind fun signatures _ =>
    (checkedWhen_gives (policyAndEvidenceValid_gives _)).bind fun rest _ => ?_
  dsimp only
  split
  · exact hp
  · trivial

theorem admit_settles (checked : Checked) (l : Ledger) :
    ∃ r, ((admitChecked checked).turn l).2 = .settled r := by
  simp only [admitChecked, Task.reads, Task.bind_eq, Task.bind_get, Task.bind_ret, Task.turn_get]
  split_ifs <;> exact ⟨_, rfl⟩

/-- What a commit does: it leaves the ledger alone and does not accept, or adds an event
and a nonce that are both new and accepts. -/
theorem admit_answer {checked : Checked} {l l' : Ledger} {r : Except Thrown Admission}
    (h : (admitChecked checked).turn l = (l', .settled r)) :
    (l' = l ∧ ∀ a, r = .ok a → a.status ≠ .accepted) ∨
    (l.events.has (textField checked.object (js "event-id")) = false ∧
      l.nonces.has (nonceKey (textField checked.object (js "order-id"))
        (textField checked.object (js "nonce"))) = false ∧
      l' = ⟨l.events.set (textField checked.object (js "event-id")) checked.canonical,
        l.nonces.set (nonceKey (textField checked.object (js "order-id"))
          (textField checked.object (js "nonce"))) (textField checked.object (js "event-id"))⟩ ∧
      r = .ok ⟨.accepted, textField checked.object (js "event-id"), []⟩) := by
  simp only [admitChecked, Task.reads, Task.bind_eq, Task.bind_get, Task.bind_ret, Task.turn_get, id,
    admissionCode] at h
  generalize hpresent : l.events.has _ = present at h ⊢
  generalize hused : l.nonces.has _ = used at h ⊢
  generalize (decide (l.events.get _ = some checked.canonical)) = same at h
  cases present with
  | true =>
    cases same <;>
    · obtain ⟨rfl, hr⟩ := Prod.mk.inj h
      obtain rfl := Task.Stop.settled.inj hr
      refine .inl ⟨rfl, fun a ha hs => ?_⟩
      cases ha <;> cases hs
  | false =>
    cases used with
    | true =>
      obtain ⟨rfl, hr⟩ := Prod.mk.inj h
      obtain rfl := Task.Stop.settled.inj hr
      refine .inl ⟨rfl, fun a ha hs => ?_⟩
      cases ha <;> cases hs
    | false =>
      obtain ⟨rfl, hr⟩ := Prod.mk.inj h
      obtain rfl := Task.Stop.settled.inj hr
      exact .inr ⟨rfl, rfl, rfl, rfl⟩

/-! ## The ledger in every run -/

/-- The event id, the order id and the nonce of a call. -/
def Call.field (call : Call) (field : JsString) : JsString :=
  textField (objectOf call.receipt) field

def Call.eventId (call : Call) : JsString := call.field (js "event-id")

def Call.orderId (call : Call) : JsString := call.field (js "order-id")

def Call.nonce (call : Call) : JsString := call.field (js "nonce")

def Call.nonceKey (call : Call) : JsString := Economy.nonceKey call.orderId call.nonce

/-- Call `i` has been answered `accepted`, with the event id `id`. -/
def Accepted (answers : ι → Option (Except Thrown Admission)) (i : ι) (id : JsString) : Prop :=
  ∃ a, answers i = some (.ok a) ∧ a.status = .accepted ∧ a.eventId = id

/-- The maps hold what the accepted calls have brought, each event and each nonce once. -/
structure LedgerOk (calls : ι → Call) (l : Ledger)
    (answers : ι → Option (Except Thrown Admission)) : Prop where
  eventId : ∀ i id, Accepted answers i id → (calls i).eventId = id
  events : ∀ id, l.events.has id = true ↔ ∃ i, Accepted answers i id
  nonces : ∀ k id, l.nonces.get k = some id ↔ ∃ i, Accepted answers i id ∧ (calls i).nonceKey = k
  event_once : ∀ i j id, Accepted answers i id → Accepted answers j id → i = j
  nonce_once : ∀ i j id id', Accepted answers i id → Accepted answers j id' →
    (calls i).nonceKey = (calls j).nonceKey → i = j

theorem calling_atomic (calls : ι → Call) : (calling calls).Atomic
    (fun i checked => checked.object = objectOf (calls i).receipt)
    (fun i => checkReceipt (calls i).receipt (calls i).verifiers) (fun _ => admitChecked) where
  spawn _ := rfl
  gives _ := checkReceipt_gives ..
  settles _ := admit_settles

variable [DecidableEq ι] {answers : ι → Option (Except Thrown Admission)} {l l' : Ledger}

theorem accepted_update {r : Except Thrown Admission} (hn : answers i = none) {j : ι}
    {id : JsString} : Accepted (update answers i (some r)) j id ↔
      (j = i ∧ ∃ a, r = .ok a ∧ a.status = .accepted ∧ a.eventId = id) ∨ Accepted answers j id := by
  by_cases hj : j = i
  · subst hj
    simp [Accepted, hn]
  · simp [Accepted, hj]

/-- A call that is not accepted keeps the ledger and the accepted calls together. -/
theorem LedgerOk.refuse (h : LedgerOk calls l answers) (hn : answers i = none)
    {r : Except Thrown Admission} (hna : ∀ a, r = .ok a → a.status ≠ .accepted) :
    LedgerOk calls l (update answers i (some r)) := by
  have same : ∀ j id, Accepted (update answers i (some r)) j id ↔ Accepted answers j id := by
    intro j id
    rw [accepted_update hn]
    refine or_iff_right ?_
    rintro ⟨-, a, ha, hs, -⟩
    exact hna a ha hs
  constructor <;> simp only [same]
  · exact h.eventId
  · exact h.events
  · exact h.nonces
  · exact h.event_once
  · exact h.nonce_once

/-- So does a call that is accepted with an event and a nonce that are new. -/
theorem LedgerOk.accept (h : LedgerOk calls l answers) (hn : answers i = none)
    {canonical : JsString} (hevent : l.events.has (calls i).eventId = false)
    (hnonce : l.nonces.has (calls i).nonceKey = false) :
    LedgerOk calls
      ⟨l.events.set (calls i).eventId canonical, l.nonces.set (calls i).nonceKey (calls i).eventId⟩
      (update answers i (some (.ok ⟨.accepted, (calls i).eventId, []⟩))) := by
  have newEvent : ∀ j id, Accepted answers j id → id ≠ (calls i).eventId := by
    rintro j id hj rfl
    exact Bool.eq_false_iff.mp hevent ((h.events _).mpr ⟨j, hj⟩)
  have newNonce : ∀ j id, Accepted answers j id → (calls j).nonceKey ≠ (calls i).nonceKey := by
    intro j id hj hk
    refine Bool.eq_false_iff.mp hnonce (JsMap.has_eq_true.mpr ⟨id, ?_⟩)
    exact (h.nonces _ _).mpr ⟨j, hj, hk⟩
  have accepted : ∀ j id, Accepted (update answers i
      (some (.ok ⟨.accepted, (calls i).eventId, []⟩))) j id ↔
        (j = i ∧ id = (calls i).eventId) ∨ Accepted answers j id := by
    intro j id
    rw [accepted_update hn]
    simp [eq_comm]
  constructor <;> simp only [accepted]
  · rintro j id (⟨rfl, rfl⟩ | hj)
    · rfl
    · exact h.eventId j id hj
  · intro id
    rw [JsMap.has_set, h.events]
    constructor
    · rintro (rfl | ⟨j, hj⟩)
      · exact ⟨i, .inl ⟨rfl, rfl⟩⟩
      · exact ⟨j, .inr hj⟩
    · rintro ⟨j, ⟨rfl, rfl⟩ | hj⟩
      · exact .inl rfl
      · exact .inr ⟨j, hj⟩
  · intro k id
    rw [JsMap.get_set]
    by_cases hk : k = (calls i).nonceKey
    · rw [if_pos hk]
      subst hk
      constructor
      · rintro ⟨⟩
        exact ⟨i, .inl ⟨rfl, rfl⟩, rfl⟩
      · rintro ⟨j, ⟨-, rfl⟩ | hj, hkey⟩
        · rfl
        · exact absurd hkey (newNonce j id hj)
    · rw [if_neg hk, h.nonces]
      refine exists_congr fun j => and_congr_left fun hkey => (or_iff_right ?_).symm
      rintro ⟨rfl, -⟩
      exact hk hkey.symm
  · rintro j j' id (⟨rfl, rfl⟩ | hj) (⟨rfl, hid⟩ | hj')
    · rfl
    · exact absurd rfl (newEvent j' _ hj')
    · exact absurd hid (newEvent j id hj)
    · exact h.event_once j j' id hj hj'
  · rintro j j' id id' (⟨rfl, rfl⟩ | hj) (⟨rfl, hid⟩ | hj') hkey
    · rfl
    · exact absurd hkey.symm (newNonce j' _ hj')
    · exact absurd hkey (newNonce j id hj)
    · exact h.nonce_once j j' id id' hj hj' hkey

/-- Every answer keeps the ledger and the accepted calls together. -/
theorem LedgerOk.answer {r : Except Thrown Admission} (h : LedgerOk calls l answers)
    (hn : answers i = none)
    (hr : Loop.Answers (fun i (checked : Checked) => checked.object = objectOf (calls i).receipt)
      (fun _ => admitChecked) i l l' r) : LedgerOk calls l' (update answers i (some r)) := by
  rcases hr with ⟨rfl, e, rfl⟩ | ⟨checked, hobj, ht⟩
  · exact h.refuse hn nofun
  have ht := admit_answer ht
  rw [hobj] at ht
  rcases ht with ⟨rfl, hna⟩ | ⟨hevent, hnonce, rfl, rfl⟩
  · exact h.refuse hn hna
  · exact h.accept hn hevent hnonce

/-- The two maps are in bijection: an event has one order id and nonce, and what is kept
under the key of an order id and a nonce is one event. -/
structure InBijection (l : Ledger) : Prop where
  pair : ∀ id, l.events.has id = true →
    ∃! p : JsString × JsString, l.nonces.get (nonceKey p.1 p.2) = some id
  event : ∀ k id, l.nonces.get k = some id → l.events.has id = true
  key : ∀ k id, l.nonces.get k = some id → ∃! p : JsString × JsString, nonceKey p.1 p.2 = k

theorem Call.nonceKey_inj {a b : Call} (h : a.nonceKey = b.nonceKey) :
    a.orderId = b.orderId ∧ a.nonce = b.nonce := Economy.nonceKey_inj h

omit [DecidableEq ι] in
theorem LedgerOk.inBijection (h : LedgerOk calls l answers) : InBijection l where
  pair id hid := by
    obtain ⟨i, hi⟩ := (h.events id).mp hid
    refine ⟨((calls i).orderId, (calls i).nonce), (h.nonces _ _).mpr ⟨i, hi, rfl⟩, ?_⟩
    rintro ⟨o, n⟩ hp
    obtain ⟨j, hj, hkey⟩ := (h.nonces _ _).mp hp
    obtain rfl := h.event_once j i id hj hi
    obtain ⟨rfl, rfl⟩ := nonceKey_inj hkey
    rfl
  event k id hk := by
    obtain ⟨i, hi, -⟩ := (h.nonces k id).mp hk
    exact (h.events id).mpr ⟨i, hi⟩
  key k id hk := by
    obtain ⟨i, -, rfl⟩ := (h.nonces k id).mp hk
    refine ⟨((calls i).orderId, (calls i).nonce), rfl, ?_⟩
    rintro ⟨o, n⟩ hp
    obtain ⟨rfl, rfl⟩ := nonceKey_inj hp
    rfl

/-- The invariant of every run. -/
theorem ledgerOk {c : Cfg ι Ledger Unit Await (fun a => Except Json a.Value) Thrown Admission}
    (h : (calling calls).Reaches (fun _ _ => True) (.start emptyLedger ()) c) :
    LedgerOk calls c.mem c.answers := by
  refine (calling_atomic calls).invariant ?_ ?_ h
  · have never : ∀ i id, ¬ Accepted (fun _ : ι => none) i id := by
      rintro i id ⟨a, h, -⟩
      cases h
    constructor
    · exact fun i id hi => absurd hi (never i id)
    · exact fun id => ⟨nofun, fun ⟨i, hi⟩ => absurd hi (never i id)⟩
    · exact fun k id => ⟨nofun, fun ⟨i, hi, _⟩ => absurd hi (never i id)⟩
    · exact fun i j id hi => absurd hi (never i id)
    · exact fun i j id id' hi => absurd hi (never i id)
  · exact fun i l l' a r hl hn hr => hl.answer hn hr

/-- A step of a call that is not accepted leaves the ledger alone. -/
theorem unchanged {c d d' : Cfg ι Ledger Unit Await (fun a => Except Json a.Value) Thrown Admission}
    {lab : Label ι ((a : Await) → Except Json a.Value)}
    (h : (calling calls).Reaches (fun _ _ => True) (.start emptyLedger ()) d)
    (hs : (calling calls).step d lab = some d')
    (hc : (calling calls).Reaches (fun _ _ => True) d' c) (hi : lab.request = some i)
    {r : Except Thrown Admission} (hr : c.answers i = some r)
    (hna : ∀ a, r = .ok a → a.status ≠ .accepted) : d'.mem = d.mem := by
  have hM := calling_atomic calls
  obtain ⟨hprep, ⟨hmem, -⟩ | ⟨j, r', hj, -, hans, hd'⟩⟩ := hM.step_cases (hM.preparing h) hs
  · exact hmem
  obtain rfl : j = i := Option.some.inj (hj.symm.trans hi)
  -- the answer given in this step is the one seen at the end
  have hlast := hM.answers_mono hprep hc (i := j) (r := r') (by rw [hd', update_self])
  obtain rfl : r' = r := Option.some.inj (hlast.symm.trans hr)
  rcases hans with ⟨hmem, -⟩ | ⟨checked, -, ht⟩
  · exact hmem
  rcases admit_answer ht with ⟨hmem, -⟩ | ⟨-, -, -, rfl⟩
  · exact hmem
  · exact absurd rfl (hna _ rfl)

/-- **The replay ledger**: in every state that any calls on one ledger can reach, its maps
are in bijection and hold the accepted events, each accepted once and under its own order id
and nonce; no order id and nonce is accepted twice; a call that throws or answers
`duplicate` has left the maps as they were at each of its steps; and the key of an order id
and a nonce determines both. -/
theorem admitReceipt_ledger (calls : ι → Call)
    {c : Cfg ι Ledger Unit Await (fun a => Except Json a.Value) Thrown Admission}
    (h : (calling calls).Reaches (fun _ _ => True) (.start emptyLedger ()) c) :
    InBijection c.mem ∧
    (∀ id, c.mem.events.has id = true ↔ ∃ i, Accepted c.answers i id) ∧
    (∀ i id, Accepted c.answers i id → id = (calls i).eventId ∧
      c.mem.nonces.get (nonceKey (calls i).orderId (calls i).nonce) = some id) ∧
    (∀ i j id, Accepted c.answers i id → Accepted c.answers j id → i = j) ∧
    (∀ i j id id', Accepted c.answers i id → Accepted c.answers j id' → id ≠ id' →
      ((calls i).orderId, (calls i).nonce) ≠ ((calls j).orderId, (calls j).nonce)) ∧
    (∀ d d' lab i r, (calling calls).Reaches (fun _ _ => True) (.start emptyLedger ()) d →
      (calling calls).step d lab = some d' → (calling calls).Reaches (fun _ _ => True) d' c →
      lab.request = some i → c.answers i = some r → (∀ a, r = .ok a → a.status ≠ .accepted) →
      d'.mem = d.mem) ∧
    (∀ o n o' n', nonceKey o n = nonceKey o' n' → o = o' ∧ n = n') := by
  have hl := ledgerOk h
  refine ⟨hl.inBijection, hl.events, fun i id hi => ?_, hl.event_once, ?_, ?_, fun o n o' n' =>
    nonceKey_inj⟩
  · exact ⟨(hl.eventId i id hi).symm, (hl.nonces _ _).mpr ⟨i, hi, rfl⟩⟩
  · rintro i j id id' hi hj hne hp
    have hkey : (calls i).nonceKey = (calls j).nonceKey := by
      rw [Call.nonceKey, Call.nonceKey, (Prod.mk.inj hp).1, (Prod.mk.inj hp).2]
    obtain rfl := hl.nonce_once i j id id' hi hj hkey
    exact hne ((hl.eventId i id hi).symm.trans (hl.eventId i id' hj))
  · exact fun d d' lab i r hd hs hc hi hr hna => unchanged hd hs hc hi hr hna

end Calls

namespace Sample

/-- Two calls with the same receipt. -/
def twice (_ : Bool) : Call := ⟨receipt, fun _ => true⟩

/-- Every verifier answers; `canonicalize` with a text. -/
def yes : (a : Await) → Except Json a.Value
  | .one (.canonicalize _) => .ok (.str (js "body"))
  | .one _ => .ok (.bool true)
  | .all qs => .ok ⟨qs.map fun _ => .bool true, List.length_map ..⟩

/-- Both calls ask the five verifiers in turn; the second is resumed last. -/
def labels : List (Label Bool ((a : Await) → Except Json a.Value)) :=
  [.arrive true, .arrive false] ++
    (List.replicate 5 [.serve true yes, .turn true, .serve false yes, .turn false]).flatten

theorem labels_run : ((calling twice).run (.start emptyLedger ()) labels).map (fun c =>
    ((c.phase true, c.phase false) matches (.done (.ok ⟨.accepted, _, _⟩),
      .done (.ok ⟨.duplicate, _, _⟩)))) = some true := by
  decide +kernel

end Sample

/-- Of two calls with the same receipt one is accepted, and the maps are in bijection. -/
theorem admitReceipt_ledger_sample :
    ∃ c, (calling Sample.twice).run (.start emptyLedger ()) Sample.labels = some c ∧
      InBijection c.mem := by
  obtain ⟨c, hc, -⟩ := Option.map_eq_some_iff.mp Sample.labels_run
  exact ⟨c, hc, (admitReceipt_ledger Sample.twice (Loop.reaches_of_run hc)).1⟩

end Economy
