import Yataverse.GraphHead.VerifyHead
import Yataverse.Js.Unique

/-!
# Canonical JSON determines the document

Graph-head documents and agent actions (`p6_drill.cljk`) are named and signed by their
canonical bytes, so the bytes must say which value they are of.

- `Plain`: a value canonical JSON is for, with its well-formedness.
- `verifyAction`: `verify-action`, which needs nothing but the block itself.
- `canonicalStr_injective`, `mirrorDoc_injective`: distinct values have distinct texts.
- `existsUnique_block`: an action has one block.
- **`canonical_determines`**: all of it.
-/

namespace GraphHead

open Js Fallible

/-- A value built from null, booleans, integers of at most `2 ^ 53`, strings, arrays and
string-keyed objects. -/
structure Plain where
  val : Json
  wf : val.WF
  safe : val.Safe

theorem Plain.ext {v w : Plain} (h : v.val = w.val) : v = w := by
  cases v
  cases w
  cases h
  rfl

/-! ## Agent actions -/

/-- `action-schema`. -/
def actionSchema : JsString := js "yataverse-agent-action/v1"

/-- `action-domain`. -/
def actionDomain : Bytes := utf8 (js "yataverse/agent-action/v1\n")

/-- `signing-bytes`. -/
def signingBytes (action : Json) : Except Err Bytes := do
  return actionDomain ++ (← canonical (action.dissoc [js "signature"]))

/-- The action of a block, when the block is its canonical JSON. -/
def readAction (block : Bytes) : Except Err Json := do
  match parseJson block with
  | none => throw (.other (js "not JSON"))
  | some action =>
    let buf ← canonical action
    check (buf = block) (.refused (js "action block is not canonical JSON"))
    return action

/-- `(ed25519-pub-of-did (get action "author"))`. -/
def authorKey (action : Json) : Except Err Bytes :=
  match action.get (js "author") with
  | .str did => ed25519PubOfDid did
  | _ => .error (.refused (js "public_key_multibase is not a did:key"))

/-- `(b58-decode (subs (get action "signature") 1))`: `subs` of no string throws. -/
def signatureBytes (action : Json) : Except Err (Option Bytes) :=
  match action.get (js "signature") with
  | .str s => .ok (b58Decode (s.drop 1))
  | _ => .error (.other (js "not a string"))

/-- `verify-action`. -/
def verifyAction (nc : NodeCrypto) (block : Bytes) : Except Err Json := do
  let action ← readAction block
  check (action.get (js "schema") = .str actionSchema)
    (.refused (js "schema " ++ strOf (action.get (js "schema"))))
  let pub ← authorKey action
  match ← signatureBytes action with
  | none => throw (.refused (js "action signature does not verify"))
  | some sig =>
    let msg ← signingBytes action
    check (nc.verify pub msg sig) (.refused (js "action signature does not verify"))
    return action

/-! ## Texts -/

mutual

/-- `canonicalStr` refuses nothing but numbers that are no integers. -/
theorem canonicalStr_safe : ∀ {v : Json}, v.Safe → canonicalStr v = .ok (Json.print jsonStr v)
  | .null, _ => rfl
  | .bool _, _ => rfl
  | .num x, h => by
    obtain ⟨n, rfl, -⟩ := h
    rfl
  | .str _, _ => rfl
  | .arr xs, h => by
    rw [canonicalStr, canonicalStrs_safe h]
    rfl
  | .obj kvs, h => by
    rw [canonicalStr, canonicalEntries_safe h]
    rfl

theorem canonicalStrs_safe : ∀ {xs : List Json}, Json.SafeList xs →
    canonicalStrs xs = .ok (Json.printList jsonStr xs)
  | [], _ => rfl
  | [x], h => canonicalStr_safe h.1
  | x :: y :: xs, h => by
    rw [canonicalStrs, canonicalStr_safe h.1, canonicalStrs_safe h.2]
    rfl

theorem canonicalEntries_safe : ∀ {kvs : List (JsString × Json)}, Json.SafeEntries kvs →
    canonicalEntries kvs = .ok (Json.printEntries jsonStr kvs)
  | [], _ => rfl
  | [e], h => by
    rw [canonicalEntries, canonicalStr_safe h.1]
    rfl
  | e :: f :: kvs, h => by
    rw [canonicalEntries, canonicalStr_safe h.1, canonicalEntries_safe h.2]
    rfl

end

theorem canonicalStr_injective {v w : Json} (hv : v.Safe) (hw : w.Safe)
    (h : canonicalStr v = canonicalStr w) : v = w := by
  rw [canonicalStr_safe hv, canonicalStr_safe hw] at h
  exact Json.print_injective readsBack_jsonStr hv hw (Except.ok.inj h)

theorem canonical_safe {v : Json} (h : v.Safe) :
    canonical v = .ok (utf8 (Json.print jsonStr v)) := by
  rw [canonical, canonicalStr_safe h]
  rfl

theorem canonical_injective {v w : Json} (hv : v.Safe) (hw : w.Safe)
    (h : canonical v = canonical w) : v = w := by
  rw [canonical_safe hv, canonical_safe hw] at h
  have ht : Json.print jsonStr v = Json.print jsonStr w := by
    rw [← ofUtf8_utf8 (print_ascii hv), Except.ok.inj h, ofUtf8_utf8 (print_ascii hw)]
  exact Json.print_injective readsBack_jsonStr hv hw ht

/-- A mirror document says which head it carries, and where. -/
theorem mirrorDoc_injective {graph graph' : JsString} {seq seq' : Int} {prev prev' head head' : Json}
    (hv : (mirrorValue graph (.int seq) prev head).Safe)
    (hw : (mirrorValue graph' (.int seq') prev' head').Safe)
    (h : mirrorDoc graph (.int seq) prev head = mirrorDoc graph' (.int seq') prev' head') :
    graph = graph' ∧ seq = seq' ∧ prev = prev' ∧ head = head' := by
  have := canonical_injective hv hw h
  simp only [mirrorValue, Json.obj.injEq, List.cons.injEq, Prod.mk.injEq, true_and, and_true,
    Json.str.injEq, Json.num.injEq, Number.int.injEq] at this
  obtain ⟨hg, hh, hp, hs⟩ := this
  exact ⟨hg, hs, hp, hh⟩

/-! ## Blocks -/

theorem readAction_eq_ok {block : Bytes} {action : Json} : readAction block = .ok action ↔
    parseJson block = some action ∧ canonical action = .ok block := by
  unfold readAction
  cases hp : parseJson block with
  | none => exact ⟨nofun, nofun⟩
  | some v =>
    constructor
    · intro h
      obtain ⟨buf, hbuf, hc⟩ := bind_eq_ok.mp h
      obtain ⟨rfl, hr⟩ := check_bind_eq_ok.mp hc
      obtain rfl := Except.ok.inj hr
      exact ⟨rfl, hbuf⟩
    · rintro ⟨h, hc⟩
      obtain rfl := Option.some.inj h
      exact bind_eq_ok.mpr ⟨block, hc, check_bind_eq_ok.mpr ⟨rfl, rfl⟩⟩

/-- An action has one block. -/
theorem existsUnique_block (v : Plain) : ∃! block, readAction block = .ok v.val := by
  refine ⟨utf8 (Json.print jsonStr v.val), ?_, fun block h => ?_⟩
  · have hc := canonical_safe v.safe
    exact readAction_eq_ok.mpr ⟨parseJson_canonical v.wf v.safe hc, hc⟩
  · have := (readAction_eq_ok.mp h).2
    rw [canonical_safe v.safe] at this
    exact (Except.ok.inj this).symm

theorem readAction_of_verifyAction {nc : NodeCrypto} {block : Bytes} {action : Json}
    (h : verifyAction nc block = .ok action) : readAction block = .ok action := by
  obtain ⟨v, hv, h⟩ := bind_eq_ok.mp h
  obtain ⟨-, h⟩ := check_bind_eq_ok.mp h
  obtain ⟨pub, -, h⟩ := bind_eq_ok.mp h
  obtain ⟨sig?, -, h⟩ := bind_eq_ok.mp h
  cases sig? with
  | none => exact nomatch h
  | some sig =>
    obtain ⟨msg, -, h⟩ := bind_eq_ok.mp h
    obtain ⟨-, h⟩ := check_bind_eq_ok.mp h
    rw [hv, Except.ok.inj h]

/-- **Canonical JSON determines the document**: a canonical text is the text of one
value, and parses as it; so a mirror document is of one (graph, seq, prev, head), the
canonical check of `verify-action` passes on one block for each action, and no two
blocks verify as the same action. -/
theorem canonical_determines :
    (∀ v w : Plain, canonicalStr v.val = canonicalStr w.val → v = w) ∧
    (∀ v : Plain, ∃ t, canonicalStr v.val = .ok t ∧ Json.parse t = some v.val) ∧
    (∀ (graph graph' : JsString) (seq seq' : Int) (prev prev' head head' : Plain),
      seq.natAbs ≤ 2 ^ 53 → seq'.natAbs ≤ 2 ^ 53 →
      mirrorDoc graph (.int seq) prev.val head.val =
        mirrorDoc graph' (.int seq') prev'.val head'.val →
      graph = graph' ∧ seq = seq' ∧ prev = prev' ∧ head = head') ∧
    (∀ v : Plain, ∃! block, readAction block = .ok v.val) ∧
    (∀ (nc : NodeCrypto) (block block' : Bytes) (action : Json),
      verifyAction nc block = .ok action → verifyAction nc block' = .ok action →
      block = block') := by
  refine ⟨fun v w h => ?_, fun v => ?_, ?_, existsUnique_block, fun nc b b' action h h' => ?_⟩
  · exact Plain.ext (canonicalStr_injective v.safe w.safe h)
  · exact ⟨_, canonicalStr_safe v.safe, Json.parse_print readsBack_jsonStr v.wf v.safe⟩
  · intro graph graph' seq seq' prev prev' head head' hs hs' h
    have safe : ∀ {g : JsString} {n : Int} {p q : Plain}, n.natAbs ≤ 2 ^ 53 →
        (mirrorValue g (.int n) p.val q.val).Safe := fun hn =>
      ⟨trivial, Plain.safe _, Plain.safe _, trivial, ⟨_, rfl, hn⟩, trivial⟩
    obtain ⟨hg, hn, hp, hh⟩ := mirrorDoc_injective (safe hs) (safe hs') h
    exact ⟨hg, hn, Plain.ext hp, Plain.ext hh⟩
  · have hc := (readAction_eq_ok.mp (readAction_of_verifyAction h)).2
    have hc' := (readAction_eq_ok.mp (readAction_of_verifyAction h')).2
    exact Except.ok.inj (hc.symm.trans hc')

end GraphHead
