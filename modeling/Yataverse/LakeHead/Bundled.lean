import Yataverse.LakeHead.Bundling
import Yataverse.LakeLog.Readable

/-!
# A bundle is read as it was made

- `Behind`: what is behind a check that counts.
- `AllSubmitted`: the heads that witnesses answer with were submitted.
- **`bundle_reads`**: `verify-bundle!` on the file that `bundle!` wrote.
-/

namespace ProofBundle

open Js Grouping
open HeadAgreement (Answer Verdict verdict)

variable {β κ : Type} {r : Reader β κ} {l : Ledger} {throws : Json → Bool} {checks members : List Check}
  {responses : List (JsString × Option JsString)} {keys : Listing (Json × Json)} {minAgree n : Nat} {seq cid head : Json}
  {file : Bytes} {k : JsString}

/-! ## What a check says -/

/-- What is behind a check that counts. -/
structure Behind (r : Reader β κ) (l : Ledger) (head proof : Json) (m : Check) : Prop where
  seq : head.get (js "seq") = m.seq
  cid : head.get (js "cid") = m.cid
  shown : .obj (selectKeys head fields) = m.head
  proofText : proof = m.proofText
  proved : ∃ p, r.readProof proof = some p ∧ r.verifyCommitment l (record head) p.1 p.2 = none
  allowed : refusal r l head = none

theorem checkHead_id {id : JsString} {proof : Json} : (checkHead r l id head proof).id = id := by
  unfold checkHead
  split
  · rfl
  · split <;> rfl

theorem checkHead_behind {id : JsString} {proof : Json} (hok : (checkHead r l id head proof).answer.ok? ≠ none) :
    Behind r l head proof (checkHead r l id head proof) := by
  unfold checkHead at hok ⊢
  cases hproof : if proof = .null then none else r.readProof proof with
  | none =>
    rw [hproof] at hok
    exact absurd rfl hok
  | some p =>
    rw [hproof] at hok
    dsimp only at hok ⊢
    cases hwhy : (r.verifyCommitment l (record head) p.1 p.2).or ((refusal r l head).map WriterRefusal.name) with
    | some why =>
      rw [hwhy] at hok
      exact absurd rfl hok
    | none =>
      obtain ⟨hcommitted, hallowed⟩ := Option.or_eq_none_iff.mp hwhy
      have hread : r.readProof proof = some p := by
        split_ifs at hproof
        exact hproof
      exact ⟨rfl, rfl, rfl, rfl, ⟨p, hread, hcommitted⟩, Option.map_eq_none_iff.mp hallowed⟩

theorem checkOne_id {e : JsString × Option JsString} {m : Check} (h : checkOne r l throws e = some m) : m.id = e.1 := by
  unfold checkOne at h
  dsimp only at h
  split_ifs at h
  · obtain rfl := Option.some.inj h
    rfl
  · obtain rfl := Option.some.inj h
    rfl
  · obtain rfl := Option.some.inj h
    exact checkHead_id

theorem checkOne_behind {e : JsString × Option JsString} {m : Check} (h : checkOne r l throws e = some m)
    (hok : m.answer.ok? ≠ none) : ∃ text body, e.2 = some text ∧ Json.parse text = some body ∧
      body.get (js "head") ≠ .null ∧ Behind r l (body.get (js "head")) (body.get (js "proof")) m := by
  unfold checkOne at h
  dsimp only at h
  split_ifs at h with hbody hthrows hhead
  · obtain rfl := Option.some.inj h
    exact absurd rfl hok
  · obtain rfl := Option.some.inj h
    exact absurd rfl hok
  · obtain rfl := Option.some.inj h
    have hsome : e.2.bind Json.parse ≠ none := by
      intro hnone
      exact hbody (by rw [hnone]; rfl)
    obtain ⟨body, hparsed⟩ := Option.ne_none_iff_exists'.mp hsome
    obtain ⟨text, htext, hparse⟩ := Option.bind_eq_some_iff.mp hparsed
    rw [hparsed, Option.getD_some] at hhead hok ⊢
    exact ⟨text, body, htext, hparse, hhead, checkHead_behind hok⟩

/-! ## The bundle -/

/-- What is known of the checks with the head. -/
structure Counted (r : Reader β κ) (l : Ledger) (head : Json) (m : Check) : Prop where
  proofText : ∃ s, m.proofText = .str s
  proved : ∃ p, r.readProof m.proofText = some p ∧ r.verifyCommitment l (record head) p.1 p.2 = none

/-- The proofs of a bundle, as they are read. -/
theorem results_read {b : Json} (hhead : b.get (js "head") = carried head)
    (hproofs : b.get (js "proofs") =
      (Json.arr (members.map fun m => .obj [(js "witness", .str m.id), (js "proof", m.proofText)])).finite.sort)
    (hcounted : ∀ m ∈ members, Counted r l head m) :
    results r l b = some (members.map fun m => (.str m.id, .ok)) := by
  rw [results, hproofs, hhead, Json.finite, Json.sort, Json.sortList_eq_map, Json.finiteList_eq_map, elements,
    Option.map_some, List.map_map, List.map_map, List.map_map]
  refine congrArg some (List.map_congr_left fun m hm => ?_)
  obtain ⟨⟨s, hs⟩, ⟨p, hread, hverify⟩⟩ := And.intro (hcounted m hm).proofText (hcounted m hm).proved
  have hget : ∀ k, (Json.obj [(js "witness", .str m.id), (js "proof", m.proofText)]).finite.sort.get k =
      (Json.lookup k [(js "witness", .str m.id), (js "proof", m.proofText)]).finite.sort :=
    fun k => Json.get_read (show [js "witness", js "proof"].Nodup by decide)
  have hwitness : (Json.lookup (js "witness") [(js "witness", Json.str m.id), (js "proof", m.proofText)]).finite.sort =
      .str m.id := rfl
  have hproof : (Json.lookup (js "proof") [(js "witness", Json.str m.id), (js "proof", m.proofText)]).finite.sort =
      m.proofText := by
    rw [hs]
    rfl
  dsimp only [Function.comp_apply]
  rw [result, hget, hget, hwitness, hproof, hread, record_carried]
  dsimp only
  rw [hverify]

/-- What `verify-bundle!` says of a bundle whose proofs all verify. -/
theorem verifyBundle_read {b : Json} (hhead : b.get (js "head") = carried head)
    (hresults : results r l b = some (members.map fun m => (.str m.id, .ok)))
    (href : head.get (js "ref") = .str r.refName) (hchain : b.get (js "chain-id") = l.chainId)
    (hseq : head.get (js "seq") = seq) (hcid : head.get (js "cid") = cid) (hm : minAgree ≤ members.length) :
    verifyBundle r l minAgree b = some ((refusal r l (carried head)).elim
      (.verified seq cid members.length ((js ",").intercalate (members.map fun m => m.id ++ js "=ok"))) .writer) := by
  have hget : ∀ k ∈ fields, (carried head).get k = head.get k := fun k hk => get_restrict.trans (if_pos hk)
  have hfor : isFor r l b = true := by
    rw [isFor, hhead, hget _ (by decide), href, hchain]
    exact decide_eq_true ⟨rfl, rfl⟩
  have hcount : (members.map fun m => (Json.str m.id, Checked.ok)).countP (fun e => e.2 = .ok) = members.length := by
    rw [List.countP_map]
    exact List.countP_eq_length.mpr fun _ _ => rfl
  have hrefusal : headRefusal r l b = refusal r l (carried head) := by
    rw [headRefusal, hhead, refusal]
  have hdetail : ((fun e : Json × Checked => textOf r.prStr e.1 ++ js "=" ++ e.2.name) ∘
      fun m : Check => (Json.str m.id, Checked.ok)) = fun m => m.id ++ js "=ok" :=
    funext fun m => List.append_assoc m.id (js "=") (js "ok")
  unfold verifyBundle
  rw [hresults, Option.bind_eq_bind, Option.bind_some, if_pos hfor, hrefusal, hcount, hhead,
    hget _ (by decide), hget _ (by decide), hseq, hcid, List.map_map, hdetail]
  cases refusal r l (carried head) with
  | some why => rfl
  | none =>
    dsimp only
    rw [if_pos (Int.ofNat_le.mpr hm)]
    rfl

theorem ok_of_seq {m : Check} (h : m.seq ≠ .null) : m.answer.ok? ≠ none := by
  cases m with
  | proved => exact Option.some_ne_none _
  | refused => exact absurd rfl h

/-- A verified head is one that enough checks have. -/
theorem named_of_verified {results : List (Answer Json Json)} {ws : List JsString}
    (h : verdict keys results minAgree = .verified seq cid ws) :
    minAgree ≤ HeadAgreement.named results (seq, cid) ∧ (seq, cid) ∈ results.filterMap Answer.head? := by
  unfold verdict at h
  dsimp only at h
  cases hlast : ((groupBy keys Prod.fst (results.filterMap Answer.ok?)).mergeSort
      fun g g' => g.2.length ≤ g'.2.length).getLast? with
  | none =>
    rw [hlast, Option.filter_none] at h
    dsimp only at h
    split_ifs at h
  | some g =>
    obtain ⟨⟨k, ms⟩, rfl⟩ : ∃ g', g = g' := ⟨g, rfl⟩
    rw [hlast, Option.filter_some] at h
    by_cases hsize : minAgree ≤ ms.length
    · rw [if_pos (decide_eq_true hsize)] at h
      cases h
      obtain ⟨hk, hmembers⟩ := mem_groupBy.mp (@last_sorted _ _ _ (fun g : (Json × Json) × List ((Json × Json) × JsString) =>
        g.2.length) hlast).1
      dsimp only at hk hmembers
      rw [hmembers, group_length, ← HeadAgreement.filterMap_head] at hsize
      rw [← HeadAgreement.filterMap_head] at hk
      exact ⟨hsize, hk⟩
    · rw [if_neg (by rw [decide_eq_true_iff]; exact hsize)] at h
      dsimp only at h
      split_ifs at h

theorem occurrences_filterMap_le {α σ : Type} [DecidableEq σ] {f : α → Option σ} {p : α → Bool} {xs : List α} {x : σ}
    (h : ∀ a ∈ xs, f a = some x → p a = true) : occurrences (xs.filterMap f) x ≤ (xs.filter p).length := by
  rw [occurrences, List.count_eq_countP, List.countP_filterMap, ← List.countP_eq_length_filter]
  refine List.countP_mono_left fun a ha hx => h a ha ?_
  cases hfa : f a with
  | none =>
    rw [hfa] at hx
    cases hx
  | some y =>
    rw [hfa, Option.map_some, Option.getD_some, beq_iff_eq] at hx
    rw [hx]

theorem named_le : HeadAgreement.named (checks.map Check.answer) (seq, cid) ≤
    (checks.filter fun m => seq = m.seq ∧ cid = m.cid).length := by
  rw [HeadAgreement.named, List.filterMap_map]
  refine occurrences_filterMap_le fun m _ h => ?_
  cases m with
  | proved =>
    obtain ⟨hseq, hcid⟩ := Prod.mk.inj (Option.some.inj h)
    exact decide_eq_true ⟨hseq.symm, hcid.symm⟩
  | refused => cases h

theorem exists_of_verified (h : (seq, cid) ∈ (checks.map Check.answer).filterMap Answer.head?) :
    ∃ m ∈ checks, m.answer.ok? ≠ none ∧ m.seq = seq ∧ m.cid = cid := by
  obtain ⟨a, ha, hhead⟩ := List.mem_filterMap.mp h
  obtain ⟨m, hm, rfl⟩ := List.mem_map.mp ha
  cases m with
  | proved =>
    obtain ⟨hseq, hcid⟩ := Prod.mk.inj (Option.some.inj hhead)
    exact ⟨_, hm, Option.some_ne_none _, hseq, hcid⟩
  | refused => cases hhead

theorem numbers_bundle {c : JsString} (hchain : l.chainId = .str c) (hheld : head.Numbers Number.Held)
    (hproofs : ∀ m ∈ members, ∃ s, m.proofText = .str s)
    (hfirst : (members.head?.map Check.head).getD .null = .obj (selectKeys head fields)) :
    (bundleOf r l (head.get (js "seq")) (head.get (js "cid")) members).Numbers Number.Held := by
  have hselect : ∀ {v : Json} {ks}, v.Numbers Number.Held → Json.NumbersEntries Number.Held (selectKeys v ks) := by
    intro v ks hv
    refine Json.numbersEntries_iff.mpr fun e he => ?_
    obtain ⟨k, -, hk⟩ := List.mem_filterMap.mp he
    split_ifs at hk
    obtain rfl := Option.some.inj hk
    exact hv.get k
  have hproof : ∀ {ms : List Check}, (∀ m ∈ ms, ∃ s, m.proofText = .str s) → Json.NumbersList Number.Held
      (ms.map fun m => .obj [(js "witness", .str m.id), (js "proof", m.proofText)]) := by
    intro ms
    induction ms with
    | nil => exact fun _ => trivial
    | cons m ms ih =>
      intro h
      obtain ⟨s, hs⟩ := h m List.mem_cons_self
      refine ⟨⟨trivial, ?_, trivial⟩, ih fun m hm => h m (List.mem_cons_of_mem _ hm)⟩
      rw [hs]
      trivial
  rw [bundleOf, hfirst, hchain]
  exact ⟨trivial, trivial, trivial, ⟨trivial, hheld.get _, hheld.get _, hselect (hselect hheld)⟩, hproof hproofs, trivial⟩

/-- Proofs that verify are as many as the witnesses that they name, if these are all different. -/
theorem le_provers {b : Json} (hresults : results r l b = some (members.map fun m => (.str m.id, .ok)))
    (hnodup : (members.map Check.id).Nodup) (hids : ∀ m ∈ members, m.id ∈ l.ids) :
    members.length ≤ (provers r l b).length := by
  have hnamed : named r l b = (members.map Check.id).map Json.str := by
    rw [named, hresults, Option.getD_some, List.filter_eq_self.mpr, List.map_map, List.map_map]
    · rfl
    · intro e he
      obtain ⟨m, -, rfl⟩ := List.mem_map.mp he
      rfl
  have hone : OnePerWitness r l b := by
    refine ⟨?_, fun w hw => ?_⟩
    · rw [hnamed]
      exact hnodup.map fun _ _ h => Json.str.inj h
    · rw [hnamed, List.map_map] at hw
      obtain ⟨m, hm, rfl⟩ := List.mem_map.mp hw
      exact ⟨m.id, hids m hm, rfl⟩
  have hlen := length_le_iff.mpr hone
  rwa [hnamed, List.length_map, List.length_map] at hlen

theorem get_bundleOf :
    (bundleOf r l seq cid members).finite.sort.get k = ((bundleOf r l seq cid members).get k).finite.sort :=
  Json.get_read (show [js "schema", js "ref", js "chain-id", js "head", js "proofs"].Nodup by decide)

/-- **The file of a bundle** is read back. -/
theorem read_bundleOf {c : JsString} (hchain : l.chainId = .str c) (hwf : head.WF) (hheld : head.Numbers Number.Held)
    (hsub : Submitted r.refName head) (hproofs : ∀ m ∈ members, ∃ s, m.proofText = .str s)
    (hfirst : (members.head?.map Check.head).getD .null = .obj (selectKeys head fields)) :
    ∃ b, Json.parse (ofUtf8 (utf8 (bundleOf r l (head.get (js "seq")) (head.get (js "cid")) members).stringifyValue)) =
        some b ∧ b.get (js "head") = carried head ∧ b.get (js "chain-id") = l.chainId ∧
      b.get (js "proofs") =
        (Json.arr (members.map fun m => .obj [(js "witness", .str m.id), (js "proof", m.proofText)])).finite.sort := by
  refine ⟨_, Json.parse_stringifyValue (numbers_bundle hchain hheld hproofs hfirst), ?_, ?_, get_bundleOf⟩
  · rw [get_bundleOf, bundleOf, hfirst]
    exact hsub.read hwf
  · rw [get_bundleOf, bundleOf, hchain]
    rfl

/-! ## Reading it -/

/-- Every head that a witness answers with was submitted, under the reader's ref. -/
def AllSubmitted (refName : JsString) (responses : List (JsString × Option JsString)) : Prop :=
  ∀ e ∈ responses, ∀ text body, e.2 = some text → Json.parse text = some body →
    body.get (js "head") ≠ .null → Submitted refName (body.get (js "head"))

/-- A witness answered with the head. -/
def Answered (responses : List (JsString × Option JsString)) (head : Json) : Prop :=
  ∃ e ∈ responses, ∃ text body, e.2 = some text ∧ Json.parse text = some body ∧ body.get (js "head") = head

/-- A check that counts, with the head that it looked at. -/
structure Counts (r : Reader β κ) (l : Ledger) (responses : List (JsString × Option JsString)) (m : Check)
    (head proof : Json) : Prop where
  behind : Behind r l head proof m
  wf : head.WF
  held : head.Numbers Number.Held
  submitted : Submitted r.refName head
  answered : Answered responses head

theorem counts_of_ok (hheads : AllSubmitted r.refName responses) {m : Check}
    (hm : some m ∈ responses.map (checkOne r l throws)) (hok : m.answer.ok? ≠ none) :
    ∃ head proof, Counts r l responses m head proof := by
  obtain ⟨e, he, hone⟩ := List.mem_map.mp hm
  obtain ⟨text, body, htext, hparse, hne, hbehind⟩ := checkOne_behind hone hok
  exact ⟨_, _, hbehind, (Json.wf_of_parse hparse).get _, (Json.numbers_of_parse hparse).get _,
    hheads e he text body htext hparse hne, e, he, text, body, htext, hparse, rfl⟩

/-- Checks with one head: the proof of each of them is one of the first one's record. -/
theorem Counts.counted (hreads : ∀ p pair, r.readProof p = some pair → ∃ s, p = .str s) {m m' : Check}
    {head' proof proof' : Json} (h : Counts r l responses m head proof) (h' : Counts r l responses m' head' proof')
    (hseq : m.seq = m'.seq) (hcid : m.cid = m'.cid) : Counted r l head m' := by
  obtain ⟨p, hread, hverify⟩ := h'.behind.proved
  rw [h'.behind.proofText] at hread
  refine ⟨hreads _ _ hread, p, hread, ?_⟩
  rw [h.submitted.record_eq h'.submitted h.wf h'.wf (by rw [h.behind.seq, h'.behind.seq, hseq])
    (by rw [h.behind.cid, h'.behind.cid, hcid])]
  exact hverify

theorem ids_of_checks (hchecks : responses.map (checkOne r l throws) = checks.map some) :
    checks.map Check.id = responses.map Prod.fst := by
  have hids : (responses.map (checkOne r l throws)).map (Option.map Check.id) = (responses.map Prod.fst).map some := by
    rw [List.map_map, List.map_map]
    refine List.map_congr_left fun e he => ?_
    have hmem : checkOne r l throws e ∈ checks.map some := hchecks ▸ List.mem_map_of_mem he
    obtain ⟨m, -, hm⟩ := List.mem_map.mp hmem
    rw [Function.comp_apply, Function.comp_apply, ← hm, Option.map_some, checkOne_id hm.symm]
  rw [hchecks, List.map_map] at hids
  refine List.map_injective_iff.mpr (Option.some_injective JsString) ?_
  rw [List.map_map]
  exact hids

/-- What is known of the checks that a bundle is made of. -/
structure Members (r : Reader β κ) (l : Ledger) (responses : List (JsString × Option JsString)) (members : List Check)
    (head : Json) : Prop where
  first : ∃ m ∈ members.head?, ∃ proof, Counts r l responses m head proof
  counted : ∀ m ∈ members, Counted r l head m
  ids : (members.map Check.id).Sublist (responses.map Prod.fst)

theorem members_of_verified (hreads : ∀ p pair, r.readProof p = some pair → ∃ s, p = .str s)
    (hheads : AllSubmitted r.refName responses) (hchecks : responses.map (checkOne r l throws) = checks.map some)
    {ws : List JsString} (h : verdict keys (checks.map Check.answer) minAgree = .verified seq cid ws) :
    ∃ head, Members r l responses (checks.filter fun m => seq = m.seq ∧ cid = m.cid) head ∧
      head.get (js "seq") = seq ∧ head.get (js "cid") = cid ∧
      minAgree ≤ (checks.filter fun m => seq = m.seq ∧ cid = m.cid).length := by
  obtain ⟨hnamed, hmem⟩ := named_of_verified h
  have hcounts : ∀ m ∈ checks, m.answer.ok? ≠ none → ∃ head proof, Counts r l responses m head proof := fun m hm =>
    counts_of_ok hheads (hchecks ▸ List.mem_map_of_mem hm)
  have hmember : ∀ m ∈ checks.filter (fun m => seq = m.seq ∧ cid = m.cid),
      m.seq = seq ∧ m.cid = cid ∧ ∃ head proof, Counts r l responses m head proof := by
    intro m hm
    obtain ⟨hin, heq⟩ := List.mem_filter.mp hm
    obtain ⟨hseq, hcid⟩ := of_decide_eq_true heq
    refine ⟨hseq.symm, hcid.symm, hcounts m hin (ok_of_seq ?_)⟩
    obtain ⟨m', hm', hok', hseq', -⟩ := exists_of_verified hmem
    obtain ⟨head', _, h'⟩ := hcounts m' hm' hok'
    obtain ⟨k, hk⟩ := h'.submitted.seq
    rw [← hseq, ← hseq', ← h'.behind.seq, hk]
    exact Json.noConfusion
  have hids : ((checks.filter fun m => seq = m.seq ∧ cid = m.cid).map Check.id).Sublist (responses.map Prod.fst) := by
    rw [← ids_of_checks hchecks]
    exact List.filter_sublist.map Check.id
  have hlength := hnamed.trans named_le
  cases hm : checks.filter fun m => seq = m.seq ∧ cid = m.cid with
  | nil =>
    obtain ⟨m, hin, -, hseq, hcid⟩ := exists_of_verified hmem
    rw [List.filter_eq_nil_iff] at hm
    exact absurd (decide_eq_true ⟨hseq.symm, hcid.symm⟩) (hm m hin)
  | cons m ms =>
    rw [hm] at hmember hids hlength
    obtain ⟨hseq, hcid, head, proof, hhead⟩ := hmember m List.mem_cons_self
    refine ⟨head, ⟨⟨m, rfl, proof, hhead⟩, fun m' hm' => ?_, hids⟩, hhead.behind.seq.trans hseq,
      hhead.behind.cid.trans hcid, hlength⟩
    obtain ⟨hseq', hcid', head', proof', hhead'⟩ := hmember m' hm'
    exact hhead.counted hreads hhead' (hseq.trans hseq'.symm) (hcid.trans hcid'.symm)

theorem bundle_of_verified {ws : List JsString} (hchecks : responses.mapM (checkOne r l throws) = some checks)
    (h : verdict keys (checks.map Check.answer) minAgree = .verified seq cid ws) :
    bundle r l throws keys minAgree responses = some (.bundled
      (utf8 (bundleOf r l seq cid (checks.filter fun m => seq = m.seq ∧ cid = m.cid)).stringifyValue) seq cid
      (checks.filter fun m => seq = m.seq ∧ cid = m.cid).length) := by
  rw [bundle, hchecks, Option.bind_eq_bind, Option.bind_some, h]
  rfl

/-- **A bundle is read** as it was made: all its proofs verify, and its head is verified, unless the policy asks for a
signature and fields were signed that a bundle does not carry. -/
theorem bundle_reads {c : JsString} (hids : responses.map Prod.fst = l.ids) (hchain : l.chainId = .str c)
    (hreads : ∀ p pair, r.readProof p = some pair → ∃ s, p = .str s) (hbinding : Binding r)
    (hheads : AllSubmitted r.refName responses)
    (h : bundle r l throws keys minAgree responses = some (.bundled file seq cid n)) :
    ∃ b head detail, Json.parse (ofUtf8 file) = some b ∧ Answered responses head ∧
      head.get (js "seq") = seq ∧ head.get (js "cid") = cid ∧ minAgree ≤ n ∧
      (¬ Asks r l head ∨ NothingElse r head → verifyBundle r l minAgree b = some (.verified seq cid n detail)) ∧
      (Asks r l head → ¬ NothingElse r head → verifyBundle r l minAgree b = some (.writer .badSignature)) ∧
      (l.ids.Nodup → minAgree ≤ (provers r l b).length) := by
  obtain ⟨checks, hchecks, h⟩ := Option.bind_eq_some_iff.mp h
  cases hverdict : verdict keys (checks.map Check.answer) minAgree with
  | verified seq' cid' ws =>
    rw [hverdict] at h
    cases h
    obtain ⟨head, hm, hseq, hcid, hlength⟩ := members_of_verified hreads hheads (LakeLog.mapM_eq_some_iff.mp hchecks) hverdict
    obtain ⟨m, hfirst, proof, hcounts⟩ := hm.first
    have hshown : ((checks.filter fun m => seq = m.seq ∧ cid = m.cid).head?.map Check.head).getD .null =
        .obj (selectKeys head fields) := by
      rw [hfirst]
      exact hcounts.behind.shown.symm
    obtain ⟨b, hparse, hhead, hchainId, hproofs⟩ := read_bundleOf hchain hcounts.wf hcounts.held hcounts.submitted
      (fun m hm' => (hm.counted m hm').proofText) hshown
    rw [hseq, hcid] at hparse
    have hresults := results_read hhead hproofs hm.counted
    obtain ⟨detail, hread⟩ : ∃ detail, verifyBundle r l minAgree b = some ((refusal r l (carried head)).elim
        (.verified seq cid (checks.filter fun m => seq = m.seq ∧ cid = m.cid).length detail) .writer) :=
      ⟨_, verifyBundle_read hhead hresults hcounts.submitted.ref hchainId hseq hcid hlength⟩
    obtain ⟨hnone, hbad⟩ := refusal_carried_eq hbinding hcounts.submitted hcounts.behind.allowed
    refine ⟨b, head, detail, hparse, hcounts.answered, hseq, hcid, hlength, fun hor => ?_, fun hasks helse => ?_,
      fun hnodup => hlength.trans (le_provers hresults ?_ fun m hm' => ?_)⟩
    · rw [hread, hnone hor]
      rfl
    · rw [hread, hbad hasks helse]
      rfl
    · exact (hids ▸ hnodup).sublist hm.ids
    · rw [← hids]
      exact hm.ids.subset (List.mem_map_of_mem hm')
  | _ =>
    rw [hverdict] at h
    cases h

namespace Sample

/-- A head that the writer has signed. -/
def signed : Json :=
  .obj [(js "cid", .str (js "b")), (js "ref", .str (js "yataverse/lake")), (js "seq", .num (.int 0)),
    (js "sig", .str (js "s")), (js "writer", .str (js "w"))]

def answer : Json := .obj [(js "head", signed), (js "proof", .str (js "p"))]

/-- Four of the witnesses answer. -/
def answers : List (JsString × Option JsString) :=
  ids.zipIdx.map fun (id, n) => (id, if n < 4 then some (Json.print stringify answer) else none)

/-- What the writer has signed. -/
def signedText : JsString := writerSigningText (fun _ => []) (.str (js "c")) signed

/-- Any text is a proof, and there is one signature. -/
def policyReader : Reader Unit Unit where
  refName := js "yataverse/lake"
  policy := some [(js "yataverse/lake", ⟨[js "w"], .int 0⟩)]
  readProof p := p.str?.map fun _ => ((), ())
  verifyCommitment _ _ _ _ := none
  verifies w text sig := w = js "w" ∧ sig = js "s" ∧ text = signedText
  prStr _ := []

theorem parse_answer : Json.parse (Json.print stringify answer) = some answer := by
  refine Json.parse_print Json.readsBack_stringify ?_ ?_
  · exact ⟨by unfold Json.KeysSorted; decide, ⟨by unfold Json.KeysSorted; decide, by simp [Json.WFEntries, Json.WF]⟩, trivial,
      trivial⟩
  · simp [answer, signed, Json.Safe, Json.SafeEntries]

theorem checkOne_answer (id : JsString) : checkOne policyReader ledger (fun _ => false)
    (id, some (Json.print stringify answer)) =
      some (.proved id (.num (.int 0)) (.str (js "b")) (.obj (selectKeys signed fields)) (.str (js "p"))) := by
  rw [checkOne, Option.bind_some, parse_answer]
  rfl

/-- What the checks of the answers are. -/
def judged : List Check :=
  ids.zipIdx.map fun (id, n) =>
    if n < 4 then .proved id (.num (.int 0)) (.str (js "b")) (.obj (selectKeys signed fields)) (.str (js "p"))
    else .refused id .unreachable

theorem checked : answers.mapM (checkOne policyReader ledger fun _ => false) = some judged := by
  rw [LakeLog.mapM_eq_some_iff, answers, judged, List.map_map, List.map_map]
  refine List.map_congr_left fun e _ => ?_
  by_cases hn : e.2 < 4
  · simp only [Function.comp_apply, if_pos hn]
    exact checkOne_answer e.1
  · simp only [Function.comp_apply, if_neg hn]
    rfl

theorem bundled : ∃ file n, ProofBundle.bundle policyReader ledger (fun _ => false) Listing.plain 4 answers =
    some (.bundled file (.num (.int 0)) (.str (js "b")) n) := by
  have hverdict := @HeadAgreement.verdict_of_named _ _ _ _ Listing.plain (judged.map Check.answer) 4
    (.num (.int 0), .str (js "b")) (by decide) (by decide)
  exact ⟨_, _, bundle_of_verified checked hverdict⟩

theorem submitted : AllSubmitted policyReader.refName answers := by
  rintro e he text body htext hparse -
  obtain ⟨⟨id, n⟩, -, rfl⟩ := List.mem_map.mp he
  dsimp only at htext
  split_ifs at htext
  obtain rfl := Option.some.inj htext
  rw [parse_answer] at hparse
  obtain rfl := Option.some.inj hparse
  refine ⟨rfl, ⟨0, rfl⟩, ⟨js "b", rfl⟩, fun k hk _ => ?_⟩
  simp only [List.mem_cons, List.not_mem_nil, or_false] at hk
  rcases hk with rfl | rfl
  · exact ⟨js "w", rfl⟩
  · exact ⟨js "s", rfl⟩

theorem reads (p : Json) (pair : Unit × Unit) (h : policyReader.readProof p = some pair) : ∃ s, p = .str s := by
  cases p with
  | str s => exact ⟨s, rfl⟩
  | _ => cases h

theorem binding : Binding policyReader := by
  intro w t t' sig h h'
  rw [(of_decide_eq_true h).2.2, (of_decide_eq_true h').2.2]

/-- Nothing but what is carried has a value. -/
theorem nothingElse {responses : List (JsString × Option JsString)} (h : responses = answers) {head : Json}
    (hanswered : Answered responses head) : NothingElse policyReader head := by
  subst h
  obtain ⟨e, he, text, body, htext, hparse, rfl⟩ := hanswered
  obtain ⟨⟨id, n⟩, -, rfl⟩ := List.mem_map.mp he
  dsimp only at htext
  split_ifs at htext
  obtain rfl := Option.some.inj htext
  rw [parse_answer] at hparse
  obtain rfl := Option.some.inj hparse
  show NothingElse policyReader signed
  unfold NothingElse
  decide

end Sample

theorem bundle_reads_sample : ∃ file, (∃ n, bundle Sample.policyReader Sample.ledger (fun _ => false) Listing.plain 4
    Sample.answers = some (.bundled file (.num (.int 0)) (.str (js "b")) n)) ∧
    ∃ b, Json.parse (ofUtf8 file) = some b ∧ 4 ≤ (provers Sample.policyReader Sample.ledger b).length ∧
      ∃ outcome, verifyBundle Sample.policyReader Sample.ledger 4 b = some outcome ∧ outcome.isVerified := by
  obtain ⟨file, n, h⟩ := Sample.bundled
  obtain ⟨b, head, detail, hparse, hanswered, -, -, -, hread, -, hprovers⟩ :=
    @bundle_reads _ _ Sample.policyReader Sample.ledger (fun _ => false) Sample.answers Listing.plain 4 n _ _ file (js "c")
      rfl rfl Sample.reads Sample.binding Sample.submitted h
  exact ⟨file, ⟨n, h⟩, b, hparse, hprovers (by decide), _, hread (.inr (Sample.nothingElse rfl hanswered)), rfl⟩

end ProofBundle
