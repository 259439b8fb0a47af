import Yataverse.Js.Stringify
import Yataverse.LakeHead.Agreement
import Yataverse.LakeHead.Bundle

/-!
# What a bundle has of a head

- `checkOne`: what `check-one` makes of the answer of a witness.
- `bundle`: `bundle!`, with the file that it writes.
- `carried`: what a bundle has of a head.
- **`Submitted.read`**: how the head of a bundle is read back.
- **`refusal_carried_eq`**: what becomes of its signature.
-/

namespace ProofBundle

open Js Grouping
open HeadAgreement (Answer Verdict verdict)

/-! ## Making a bundle -/

/-- `name`. -/
def WriterRefusal.name : WriterRefusal → JsString
  | malformed => js "malformed"
  | unexpectedField => js "unexpected-field"
  | unsigned => js "unsigned"
  | writerNotAllowed => js "writer-not-allowed"
  | badSignature => js "bad-signature"

/-- `(select-keys v ks)`. -/
def selectKeys (v : Json) (ks : List JsString) : List (JsString × Json) :=
  ks.filterMap fun k => if v.contains k then some (k, v.get k) else none

/-- What `check-one` keeps of a head. -/
def fields : List JsString := [js "ref", js "seq", js "cid", js "writer", js "sig"]

/-- What `check-one` answers. -/
inductive Check where
  | proved (id : JsString) (seq cid head proofText : Json)
  | refused (id : JsString) (why : HeadAgreement.Refused)

namespace Check

/-- `:id` -/
def id : Check → JsString
  | proved id .. | refused id _ => id

/-- `:seq` -/
def seq : Check → Json
  | proved _ seq .. => seq
  | refused .. => .null

/-- `:cid` -/
def cid : Check → Json
  | proved _ _ cid .. => cid
  | refused .. => .null

/-- `:head` -/
def head : Check → Json
  | proved _ _ _ head _ => head
  | refused .. => .null

/-- `:proof-text` -/
def proofText : Check → Json
  | proved _ _ _ _ proofText => proofText
  | refused .. => .null

/-- What `verdict` looks at. -/
def answer : Check → Answer Json Json
  | proved id seq cid .. => .proved id seq cid
  | refused id why => .refused id why

end Check

variable {β κ : Type} (r : Reader β κ) (l : Ledger)

/-- The policy's answer to a record. -/
def refusal (record : Json) : Option WriterRefusal :=
  (policyOf r l).bind fun policy => writerRefusal r.prStr r.verifies policy l.chainId record

/-- What `check-one` makes of a head and its proof. -/
def checkHead (id : JsString) (head proof : Json) : Check :=
  match if proof = .null then none else r.readProof proof with
  | none => .refused id .noProof
  | some (block, qc) =>
    match (r.verifyCommitment l (record head) block qc).or ((refusal r l head).map WriterRefusal.name) with
    | some why => .refused id (.other why)
    | none =>
      .proved id (head.get (js "seq")) (head.get (js "cid"))
        (.obj (selectKeys head fields)) proof

/-- `check-one`: `none` where it throws, which `edn/read-string` does on some texts. -/
def checkOne (throws : Json → Bool) (e : JsString × Option JsString) : Option Check :=
  let body := (e.2.bind Json.parse).getD .null
  let head := body.get (js "head")
  let proof := body.get (js "proof")
  if body = .null then some (.refused e.1 .unreachable)
  else if proof ≠ .null ∧ throws proof then none
  else if head = .null then some (.refused e.1 .noHead)
  else some (checkHead r l e.1 head proof)

/-- The bundle of the checks that have the verified head. -/
def bundleOf (seq cid : Json) (members : List Check) : Json :=
  .obj [(js "schema", .str (js "yataverse-lake-proof-bundle/v1")), (js "ref", .str r.refName),
    (js "chain-id", l.chainId),
    (js "head", .obj ([(js "ref", .str r.refName), (js "seq", seq), (js "cid", cid)] ++
      selectKeys ((members.head?.map Check.head).getD .null) [js "writer", js "sig"])),
    (js "proofs", .arr (members.map fun m => .obj [(js "witness", .str m.id), (js "proof", m.proofText)]))]

/-- How `bundle!` exits. -/
inductive Bundling where
  | refused (verdict : Verdict Json Json)
  | bundled (file : Bytes) (seq cid : Json) (proofs : Nat)

/-- `bundle!`: `none` where it throws. -/
def bundle (throws : Json → Bool) (keys : Listing (Json × Json)) (minAgree : Nat)
    (responses : List (JsString × Option JsString)) : Option Bundling := do
  let checks ← responses.mapM (checkOne r l throws)
  match verdict keys (checks.map Check.answer) minAgree with
  | .verified seq cid _ =>
    let members := checks.filter fun m => seq = m.seq ∧ cid = m.cid
    return .bundled (utf8 (bundleOf r l seq cid members).stringifyValue) seq cid members.length
  | v => return .refused v

/-! ## What the bundle has -/

/-- The entries of some keys. -/
def restrict (ks : List JsString) : Json → Json
  | .obj kvs => .obj (kvs.filter fun e => ks.contains e.1)
  | _ => .obj []

/-- What a bundle has of a head: `prev`, `v` and `height` are signed, but not carried. -/
def carried : Json → Json := restrict fields

/-- A head with the fields that `submit!` gives it; it may have others. -/
structure Submitted (refName : JsString) (head : Json) : Prop where
  ref : head.get (js "ref") = .str refName
  seq : ∃ n, head.get (js "seq") = .num (.int n)
  cid : ∃ s, head.get (js "cid") = .str s
  signed : ∀ k ∈ [js "writer", js "sig"], head.contains k = true → ∃ s, head.get k = .str s

variable {r l} {throws : Json → Bool} {responses : List (JsString × Option JsString)} {checks members : List Check}
  {keys : Listing (Json × Json)} {minAgree n : Nat} {seq cid head : Json} {file : Bytes} {k : JsString} {ks : List JsString}

theorem keys_selectKeys : (selectKeys head ks).map Prod.fst = ks.filter head.contains := by
  rw [selectKeys, List.map_filterMap, ← List.filterMap_eq_filter]
  refine List.filterMap_congr fun k _ => ?_
  rw [Option.guard]
  split_ifs <;> rfl

theorem get_of_not_contains (h : head.contains k = false) : head.get k = .null := by
  cases head with
  | obj kvs => exact Json.lookup_of_not_mem fun hk => by simp [Json.contains, Json.keys, hk] at h
  | _ => rfl

theorem contains_of_get (h : head.get k ≠ .null) : head.contains k = true := by
  by_contra hc
  exact h (get_of_not_contains (Bool.eq_false_iff.mpr hc))

theorem lookup_selectKeys : Json.lookup k (selectKeys head ks) = if k ∈ ks then head.get k else .null := by
  induction ks with
  | nil => rfl
  | cons k' ks ih =>
    rw [selectKeys, List.filterMap_cons]
    by_cases hc : head.contains k' = true
    · rw [if_pos hc]
      by_cases hk : k = k'
      · subst hk
        rw [if_pos List.mem_cons_self]
        exact if_pos rfl
      · rw [if_congr (by rw [List.mem_cons, or_iff_right hk]) rfl rfl, ← ih]
        exact if_neg hk
    · rw [if_neg hc]
      refine ih.trans ?_
      by_cases hk : k = k'
      · subst hk
        rw [if_pos List.mem_cons_self, get_of_not_contains (Bool.eq_false_iff.mpr hc), ite_self]
      · exact if_congr (List.mem_cons.trans (or_iff_right hk)).symm rfl rfl

/-! ## The head of a bundle -/

theorem get_restrict : (restrict ks head).get k = if k ∈ ks then head.get k else .null := by
  cases head with
  | obj kvs =>
    rw [restrict, Json.get, Json.get]
    induction kvs with
    | nil => exact (ite_self _).symm
    | cons e kvs ih =>
      rw [List.filter_cons]
      by_cases he : ks.contains e.1 = true
      · rw [if_pos he, Json.lookup, Json.lookup, ih]
        by_cases hk : k = e.1
        · rw [if_pos hk, if_pos hk, if_pos (hk ▸ List.contains_iff_mem.mp he)]
        · rw [if_neg hk, if_neg hk]
      · rw [if_neg he, ih, Json.lookup]
        by_cases hk : k = e.1
        · rw [if_neg fun hmem => he (List.contains_iff_mem.mpr (hk ▸ hmem)),
            if_neg fun hmem => he (List.contains_iff_mem.mpr (hk ▸ hmem))]
        · rw [if_neg hk]
  | _ => exact (ite_self _).symm

theorem contains_restrict : (restrict ks head).contains k = true ↔ k ∈ ks ∧ head.contains k = true := by
  cases head with
  | obj kvs =>
    simp only [restrict, Json.contains, Json.keys, List.contains_iff_mem, List.mem_map, List.mem_filter]
    constructor
    · rintro ⟨e, ⟨he, hfield⟩, rfl⟩
      exact ⟨hfield, e, he, rfl⟩
    · rintro ⟨hfield, e, he, rfl⟩
      exact ⟨e, ⟨he, hfield⟩, rfl⟩
  | _ => simp [restrict, Json.contains, Json.keys]

theorem record_eq_restrict : record head = restrict [js "ref", js "seq", js "cid"] head := by
  cases head <;> rfl

/-- Of the record, all is carried. -/
theorem record_carried : record (carried head) = record head := by
  rw [record_eq_restrict, record_eq_restrict]
  cases head with
  | obj kvs =>
    rw [carried, restrict, restrict, restrict, List.filter_filter]
    refine congrArg Json.obj (List.filter_congr fun e _ => ?_)
    rw [Bool.and_eq_left_iff_imp]
    intro h
    rw [List.contains_iff_mem] at h ⊢
    exact (by decide : ∀ k ∈ [js "ref", js "seq", js "cid"], k ∈ fields) e.1 h
  | _ => rfl

/-- What a well-formed value has for some keys is what it has for each of them. -/
theorem restrict_eq {head' : Json} (hwf : head.WF) (hwf' : head'.WF)
    (hcontains : ∀ k ∈ ks, head.contains k = true ↔ head'.contains k = true)
    (hget : ∀ k ∈ ks, head.get k = head'.get k) : restrict ks head = restrict ks head' := by
  have hobj : ∀ {head : Json}, head.WF → ∃ kvs, restrict ks head = .obj kvs ∧ Json.KeysSorted kvs := by
    intro head hwf
    cases head with
    | obj kvs => exact ⟨_, rfl, List.Pairwise.sublist (List.filter_sublist.map Prod.fst) hwf.1⟩
    | _ => exact ⟨_, rfl, List.Pairwise.nil⟩
  obtain ⟨kvs, hkvs, hsorted⟩ := hobj hwf
  obtain ⟨kvs', hkvs', hsorted'⟩ := hobj hwf'
  have hmem : ∀ {k kvs} {head : Json}, restrict ks head = .obj kvs →
      (k ∈ kvs.map Prod.fst ↔ k ∈ ks ∧ head.contains k = true) := by
    intro k kvs head h
    rw [← contains_restrict, h]
    exact List.contains_iff_mem.symm
  have hlookup : ∀ {k kvs} {head : Json}, restrict ks head = .obj kvs →
      Json.lookup k kvs = if k ∈ ks then head.get k else .null := by
    intro k kvs head h
    rw [← get_restrict, h]
    rfl
  rw [hkvs, hkvs', hsorted.eq_of_lookup hsorted' (fun k => ?_) fun k => ?_]
  · rw [hmem hkvs, hmem hkvs']
    exact and_congr_right (hcontains k)
  · rw [hlookup hkvs, hlookup hkvs']
    split_ifs with hk
    · exact hget k hk
    · rfl

/-- The fields of a head that was submitted are written as they are. -/
theorem Submitted.scalar {refName : JsString} (h : Submitted refName head) (hk : k ∈ fields) :
    (head.get k).finite.sort = head.get k := by
  obtain ⟨⟨n, hseq⟩, ⟨s, hcid⟩⟩ := And.intro h.seq h.cid
  have hsigned : ∀ k ∈ [js "writer", js "sig"], (head.get k).finite.sort = head.get k := by
    intro k hk
    by_cases hc : head.contains k = true
    · obtain ⟨s, hs⟩ := h.signed k hk hc
      rw [hs]
      rfl
    · rw [get_of_not_contains (Bool.eq_false_iff.mpr hc)]
      rfl
  simp only [fields, List.mem_cons, List.not_mem_nil, or_false] at hk
  rcases hk with rfl | rfl | rfl | hk
  · rw [h.ref]
    rfl
  · rw [hseq]
    rfl
  · rw [hcid]
    rfl
  · exact hsigned k (by simpa using hk)

theorem Submitted.contains {refName : JsString} (h : Submitted refName head) (hk : k ∈ [js "ref", js "seq", js "cid"]) :
    head.contains k = true := by
  obtain ⟨⟨n, hseq⟩, ⟨s, hcid⟩⟩ := And.intro h.seq h.cid
  apply contains_of_get
  simp only [List.mem_cons, List.not_mem_nil, or_false] at hk
  rcases hk with rfl | rfl | rfl
  · rw [h.ref]
    exact Json.noConfusion
  · rw [hseq]
    exact Json.noConfusion
  · rw [hcid]
    exact Json.noConfusion

/-- The record of a head is its sequence number and its CID. -/
theorem Submitted.record_eq {refName : JsString} {head' : Json} (h : Submitted refName head)
    (h' : Submitted refName head') (hwf : head.WF) (hwf' : head'.WF) (hseq : head.get (js "seq") = head'.get (js "seq"))
    (hcid : head.get (js "cid") = head'.get (js "cid")) : record head = record head' := by
  rw [record_eq_restrict, record_eq_restrict]
  refine restrict_eq hwf hwf' (fun k hk => iff_of_true (h.contains hk) (h'.contains hk)) fun k hk => ?_
  simp only [List.mem_cons, List.not_mem_nil, or_false] at hk
  rcases hk with rfl | rfl | rfl
  · rw [h.ref, h'.ref]
  · exact hseq
  · exact hcid

/-- The entries of the head of a bundle. -/
def headEntries (refName : JsString) (head : Json) : List (JsString × Json) :=
  [(js "ref", .str refName), (js "seq", head.get (js "seq")), (js "cid", head.get (js "cid"))] ++
    selectKeys (.obj (selectKeys head fields)) [js "writer", js "sig"]

theorem contains_selectKeys : (Json.obj (selectKeys head ks)).contains k = true ↔ k ∈ ks ∧ head.contains k = true := by
  rw [Json.contains, Json.keys, List.contains_iff_mem, keys_selectKeys, List.mem_filter]

theorem keys_headEntries {refName : JsString} : (headEntries refName head).map Prod.fst =
    [js "ref", js "seq", js "cid"] ++ [js "writer", js "sig"].filter (Json.obj (selectKeys head fields)).contains := by
  rw [headEntries, List.map_append, keys_selectKeys]
  rfl

theorem nodup_headEntries {refName : JsString} : ((headEntries refName head).map Prod.fst).Nodup := by
  rw [keys_headEntries]
  exact (by decide : fields.Nodup).sublist (List.filter_sublist.append_left [js "ref", js "seq", js "cid"])

theorem Submitted.mem_headEntries {refName : JsString} (h : Submitted refName head) :
    k ∈ (headEntries refName head).map Prod.fst ↔ k ∈ fields ∧ head.contains k = true := by
  rw [keys_headEntries, List.mem_append, List.mem_filter, contains_selectKeys]
  constructor
  · rintro (hk | ⟨-, hk⟩)
    · exact ⟨(by decide : ∀ k ∈ [js "ref", js "seq", js "cid"], k ∈ fields) k hk, h.contains hk⟩
    · exact hk
  · rintro ⟨hk, hc⟩
    by_cases hrec : k ∈ [js "ref", js "seq", js "cid"]
    · exact .inl hrec
    · refine .inr ⟨?_, hk, hc⟩
      exact (by decide : ∀ k ∈ fields, k ∉ [js "ref", js "seq", js "cid"] → k ∈ [js "writer", js "sig"]) k hk hrec

theorem Submitted.lookup_headEntries {refName : JsString} (h : Submitted refName head) (hk : k ∈ fields) :
    Json.lookup k (headEntries refName head) = head.get k := by
  simp only [fields, List.mem_cons, List.not_mem_nil, or_false] at hk
  have hsigned : ∀ k ∈ [js "writer", js "sig"], Json.lookup k (headEntries refName head) =
      Json.lookup k (selectKeys (.obj (selectKeys head fields)) [js "writer", js "sig"]) := by
    intro k hk
    have hne : k ≠ js "ref" ∧ k ≠ js "seq" ∧ k ≠ js "cid" :=
      (by decide : ∀ k ∈ [js "writer", js "sig"], k ≠ js "ref" ∧ k ≠ js "seq" ∧ k ≠ js "cid") k hk
    exact (if_neg hne.1).trans ((if_neg hne.2.1).trans (if_neg hne.2.2))
  rcases hk with rfl | rfl | rfl | hk
  · exact h.ref.symm
  · rfl
  · rfl
  · have hk' : k ∈ [js "writer", js "sig"] := by simpa using hk
    have hfield : k ∈ fields := (by decide : ∀ k ∈ [js "writer", js "sig"], k ∈ fields) k hk'
    rw [hsigned k hk', lookup_selectKeys, if_pos hk', Json.get, lookup_selectKeys, if_pos hfield]

/-- **The head of a bundle** is read back as what it carries. -/
theorem Submitted.read {refName : JsString} (h : Submitted refName head) (hwf : head.WF) :
    (Json.obj (headEntries refName head)).finite.sort = carried head := by
  have hlookup : ∀ k, (Json.lookup k (headEntries refName head)).finite.sort = (carried head).get k := by
    intro k
    rw [carried, get_restrict]
    by_cases hk : k ∈ fields
    · rw [if_pos hk, h.lookup_headEntries hk, h.scalar hk]
    · rw [if_neg hk, Json.lookup_of_not_mem fun hmem => hk (h.mem_headEntries.mp hmem).1]
      rfl
  have hkeys : ∀ k, k ∈ (headEntries refName head).map Prod.fst ↔ (carried head).contains k = true :=
    fun k => h.mem_headEntries.trans contains_restrict.symm
  cases head with
  | obj kvs =>
    have hsorted : Json.KeysSorted (kvs.filter fun e => fields.contains e.1) :=
      List.Pairwise.sublist (List.filter_sublist.map Prod.fst) hwf.1
    exact Json.read_eq nodup_headEntries hsorted (fun k => (hkeys k).trans List.contains_iff_mem) hlookup
  | _ => exact absurd h.ref Json.noConfusion

/-! ## Its signature -/

/-- The policy asks for a signature of a head. -/
def Asks (r : Reader β κ) (l : Ledger) (head : Json) : Prop :=
  ∃ policy e n, policyOf r l = some policy ∧ policy.of r.refName = some e ∧ head.get (js "seq") = .num (.int n) ∧
    (Number.int n).lt e.fromSeq = false

/-- Nothing was signed that is not carried. -/
def NothingElse (r : Reader β κ) (head : Json) : Prop :=
  ∀ k ∈ [js "prev", js "v", js "height"], textOf r.prStr (head.get k) = []

/-- The text that is signed, without the fields that are not carried. -/
theorem signingText_carried {prStr : Json → JsString} {chainId : Json} :
    writerSigningText prStr chainId (carried head) = writerSigningText prStr chainId head ↔
      ∀ k ∈ [js "prev", js "v", js "height"], textOf prStr (head.get k) = [] := by
  have hget : ∀ k, (carried head).get k = if k ∈ fields then head.get k else .null := fun _ => get_restrict
  have hnull : ∀ k ∈ [js "prev", js "v", js "height"], textOf prStr ((carried head).get k) = [] := by
    intro k hk
    rw [hget, if_neg ((by decide : ∀ k ∈ [js "prev", js "v", js "height"], k ∉ fields) k hk)]
    rfl
  have hsame : ∀ k ∈ [js "ref", js "seq", js "cid"], (carried head).get k = head.get k := by
    intro k hk
    rw [hget, if_pos ((by decide : ∀ k ∈ [js "ref", js "seq", js "cid"], k ∈ fields) k hk)]
  have hsplit : ∀ v : Json, writerSigningText prStr chainId v =
      (js "inga/ref-record/v2\n" ++ js "chain=" ++ textOf prStr chainId ++ js "\n" ++
        [js "ref", js "seq", js "cid"].flatMap fun f => f ++ js "=" ++ textOf prStr (v.get f) ++ js "\n") ++
      [js "prev", js "v", js "height"].flatMap fun f => f ++ js "=" ++ textOf prStr (v.get f) ++ js "\n" := by
    intro v
    rw [List.append_assoc, ← List.flatMap_append]
    rfl
  have hfirst : ([js "ref", js "seq", js "cid"].flatMap fun f => f ++ js "=" ++ textOf prStr ((carried head).get f) ++
      js "\n") = [js "ref", js "seq", js "cid"].flatMap fun f => f ++ js "=" ++ textOf prStr (head.get f) ++ js "\n" :=
    List.flatMap_congr fun k hk => by rw [hsame k hk]
  rw [hsplit, hsplit, hfirst, List.append_cancel_left_eq]
  constructor
  · intro h k hk
    have hlen := congrArg List.length h
    simp only [List.flatMap_cons, List.flatMap_nil, List.length_append, List.length_nil, hnull (js "prev") (by decide),
      hnull (js "v") (by decide), hnull (js "height") (by decide)] at hlen
    apply List.length_eq_zero_iff.mp
    simp only [List.mem_cons, List.not_mem_nil, or_false] at hk
    rcases hk with rfl | rfl | rfl
    all_goals omega
  · intro h
    exact List.flatMap_congr fun k hk => by rw [hnull k hk, h k hk]

/-- A record that the policy has writers for is allowed if one of them has signed it. -/
theorem writerRefusal_eq_none {prStr : Json → JsString} {verifies : JsString → JsString → JsString → Bool} {policy : Policy}
    {chainId v : Json} {ref : JsString} {e : Allowed} {i : Int} (href : v.get (js "ref") = .str ref)
    (hpolicy : policy.of ref = some e) (hseq : v.get (js "seq") = .num (.int i)) (hfrom : (Number.int i).lt e.fromSeq = false)
    (h : writerRefusal prStr verifies policy chainId v = none) :
    ∃ w sig, v.get (js "writer") = .str w ∧ v.get (js "sig") = .str sig ∧ w ∈ e.writers ∧
      verifies w (writerSigningText prStr chainId v) sig = true := by
  unfold writerRefusal at h
  rw [href] at h
  dsimp only at h
  rw [hpolicy, hseq] at h
  dsimp only at h
  rw [hfrom, if_neg Bool.false_ne_true] at h
  split_ifs at h
  split at h
  · rename_i w sig hw hsig
    split_ifs at h with hmem hverifies
    exact ⟨w, sig, hw, hsig, hmem, hverifies⟩
  · cases h

/-- The answer to a record with known fields, whose writer is allowed. -/
theorem writerRefusal_signed {prStr : Json → JsString} {verifies : JsString → JsString → JsString → Bool} {policy : Policy}
    {chainId v : Json} {ref w sig : JsString} {e : Allowed} {i : Int} (href : v.get (js "ref") = .str ref)
    (hpolicy : policy.of ref = some e) (hseq : v.get (js "seq") = .num (.int i)) (hfrom : (Number.int i).lt e.fromSeq = false)
    (hkeys : ∀ k ∈ v.keys, k ∈ writerSignedFields ++ [js "writer", js "sig"]) (hw : v.get (js "writer") = .str w)
    (hsig : v.get (js "sig") = .str sig) (hmem : w ∈ e.writers) :
    writerRefusal prStr verifies policy chainId v =
      if verifies w (writerSigningText prStr chainId v) sig then none else some .badSignature := by
  unfold writerRefusal
  rw [href]
  dsimp only
  rw [hpolicy, hseq]
  dsimp only
  rw [hfrom, if_neg Bool.false_ne_true, if_neg (not_not.mpr hkeys), hw, hsig]
  dsimp only
  rw [if_neg (not_not.mpr hmem)]

theorem refusal_of_not_asks (hsub : Submitted r.refName head) (h : ¬ Asks r l head) : refusal r l head = none := by
  obtain ⟨n, hseq⟩ := hsub.seq
  cases hpolicy : policyOf r l with
  | none => rw [refusal, hpolicy, Option.bind_none]
  | some policy =>
    rw [refusal, hpolicy, Option.bind_some, writerRefusal, hsub.ref]
    dsimp only
    cases he : policy.of r.refName with
    | none => rfl
    | some e =>
      have hfrom : (Number.int n).lt e.fromSeq = true := by
        by_contra hfrom
        exact h ⟨policy, e, n, hpolicy, he, hseq, Bool.eq_false_iff.mpr hfrom⟩
      dsimp only
      rw [hseq]
      dsimp only
      rw [if_pos hfrom]

/-- What the policy answers to what is carried of a head. -/
theorem refusal_carried (hsub : Submitted r.refName head) (h : refusal r l head = none) (hasks : Asks r l head) :
    ∃ w sig, r.verifies w (writerSigningText r.prStr l.chainId head) sig = true ∧
      refusal r l (carried head) =
        if r.verifies w (writerSigningText r.prStr l.chainId (carried head)) sig then none else some .badSignature := by
  have hget : ∀ k ∈ fields, (carried head).get k = head.get k := fun k hk => get_restrict.trans (if_pos hk)
  have hkeys : ∀ k ∈ (carried head).keys, k ∈ writerSignedFields ++ [js "writer", js "sig"] := by
    intro k hk
    have hfield := (contains_restrict.mp (List.contains_iff_mem.mpr hk)).1
    exact (by decide : ∀ k ∈ fields, k ∈ writerSignedFields ++ [js "writer", js "sig"]) k hfield
  obtain ⟨policy, e, n, hpolicy, he, hseq, hfrom⟩ := hasks
  rw [refusal, hpolicy, Option.bind_some] at h
  obtain ⟨w, sig, hw, hsig, hmem, hverifies⟩ := writerRefusal_eq_none hsub.ref he hseq hfrom h
  refine ⟨w, sig, hverifies, ?_⟩
  rw [refusal, hpolicy, Option.bind_some]
  refine writerRefusal_signed ?_ he ?_ hfrom hkeys ?_ ?_ hmem
  · rw [hget _ (by decide), hsub.ref]
  · rw [hget _ (by decide), hseq]
  · rw [hget _ (by decide), hw]
  · rw [hget _ (by decide), hsig]

/-- A signature is one of one text. -/
def Binding (r : Reader β κ) : Prop :=
  ∀ w t t' sig, r.verifies w t sig = true → r.verifies w t' sig = true → t = t'

theorem Submitted.carried {refName : JsString} (h : Submitted refName head) : Submitted refName (carried head) := by
  have hget : ∀ k ∈ fields, (ProofBundle.carried head).get k = head.get k := fun k hk => get_restrict.trans (if_pos hk)
  refine ⟨?_, ?_, ?_, fun k hk hc => ?_⟩
  · rw [hget _ (by decide)]
    exact h.ref
  · rw [hget _ (by decide)]
    exact h.seq
  · rw [hget _ (by decide)]
    exact h.cid
  · obtain ⟨hfield, hc⟩ := contains_restrict.mp hc
    rw [hget k hfield]
    exact h.signed k hk hc

theorem asks_carried : Asks r l (carried head) ↔ Asks r l head := by
  have hget : (carried head).get (js "seq") = head.get (js "seq") := get_restrict.trans (if_pos (by decide))
  rw [Asks, Asks, hget]

/-- The policy's answer to what is carried of a head that it allows. -/
theorem refusal_carried_eq (hbinding : Binding r) (hsub : Submitted r.refName head) (h : refusal r l head = none) :
    (¬ Asks r l head ∨ NothingElse r head → refusal r l (carried head) = none) ∧
    (Asks r l head → ¬ NothingElse r head → refusal r l (carried head) = some .badSignature) := by
  constructor
  · intro hor
    by_cases hasks : Asks r l head
    · obtain ⟨w, sig, hverifies, hrefusal⟩ := refusal_carried hsub h hasks
      rw [hrefusal, signingText_carried.mpr (hor.resolve_left (not_not.mpr hasks)), if_pos hverifies]
    · exact refusal_of_not_asks hsub.carried fun h => hasks (asks_carried.mp h)
  · intro hasks helse
    obtain ⟨w, sig, hverifies, hrefusal⟩ := refusal_carried hsub h hasks
    rw [hrefusal, if_neg]
    intro hverifies'
    exact helse (signingText_carried.mp (hbinding w _ _ sig hverifies' hverifies))

end ProofBundle
