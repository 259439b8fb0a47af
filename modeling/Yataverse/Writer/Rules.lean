import Yataverse.EventLoop.RelyGuarantee
import Yataverse.Writer.Serve

/-!
# What a write relies on and what it keeps

The writers are reasoned about one request at a time. A request relies on committed
documents staying where they are, and on nobody else sending in its name.

- `Chain`: the documents of a log form a chain.
- `Proposal`: the grounds on which a submission was made.
- `Inv`: every log is a chain, every submission has its grounds, and every cached
  document is committed.
- `Held`, `Beaten`: what a request learns from the witnesses, and what has become of
  its own submissions.
-/

namespace Writer

open Js GraphHead EventLoop LakeHead Function FirstWins

/-! ## Documents and their chain -/

/-- The document a submission names by its CID. -/
def IsDoc {ι : Type} (nc : NodeCrypto) (m : Message ι) (doc : Json) : Prop :=
  ∃ data, rawCid nc data = m.cid ∧ parseJson data = some doc

/-- The head of the second document has the larger sequence number. -/
def Advances (doc doc' : Json) : Prop :=
  ∃ k l, sequence? (doc.get (js "head")) = some k ∧ sequence? (doc'.get (js "head")) = some l ∧ k < l

/-- The documents `docs` of a graph's log form a chain: numbered from 0, each naming the
one before it, with growing head sequence numbers. -/
structure Chain {ι : Type} (nc : NodeCrypto) (signers : List JsString) (graph : JsString)
    (log : List (Message ι)) (docs : List Json) : Prop where
  documents : List.Forall₂ (IsDoc nc) log docs
  mirror : ∀ (n : Nat) doc, docs[n]? = some doc → ∃ prev head, doc = mirrorValue graph (.int n) prev head ∧
    IsHead nc head graph signers
  first : ∀ doc, docs[0]? = some doc → doc.get (js "prev") = .null
  prev : ∀ n m doc, log[n]? = some m → docs[n + 1]? = some doc → doc.get (js "prev") = .str m.cid
  increasing : docs.Pairwise Advances

/-- The grounds of a submission of `head` with `seq` behind `prev`: the log is empty and
none is expected, or `prev` is committed, carries the expected head, and the new head
advances it. -/
def Grounds {ι : Type} (nc : NodeCrypto) (e : Lake ι) (graph : JsString) (seq : Number)
    (prev expected head : Json) : Prop :=
  (seq = .int 0 ∧ prev = .null ∧ expected = .null) ∨
  ∃ (n : Nat) (p : Message ι) (doc : Json), (e.log graph)[n]? = some p ∧ IsDoc nc p doc ∧
    seq = Number.ofInt (n + 1) ∧ prev = .str p.cid ∧ expected ≠ .null ∧
    Names expected (doc.get (js "head")) ∧
    ∃ k l, sequence? (doc.get (js "head")) = some k ∧ sequence? head = some l ∧ k < l

/-- A submission carries the document made for its request, with its grounds. -/
def Proposal {ι ω : Type} (nc : NodeCrypto) (opts : Opts) (reqs : ι → ω × Request) (e : Lake ι)
    (m : Message ι) : Prop :=
  ∃ expected head prev data, posted (reqs m.request).2 = some (m.graph, expected, head) ∧
    IsHead nc head m.graph opts.signer ∧ mirrorDoc m.graph m.seq prev head = .ok data ∧
    rawCid nc data = m.cid ∧ Grounds nc e m.graph m.seq prev expected head

/-- A document that is committed at its sequence number. -/
def Held {ι : Type} (nc : NodeCrypto) (e : Lake ι) (graph : JsString) (c : Cur) : Prop :=
  ∃ (n : Nat) (m : Message ι), c.seq = .int n ∧ (e.log graph)[n]? = some m ∧ m.cid = c.cid ∧
    IsDoc nc m c.doc

/-- Every submission of request `i` has lost its slot to another one. -/
def Beaten {ι : Type} (i : ι) (e : Lake ι) : Prop :=
  ∀ m ∈ e.sent, m.request = i → Lost Message.graph Message.slot e m

section Grow

variable {ι ω : Type} {nc : NodeCrypto} {opts : Opts} {reqs : ι → ω × Request} {e e' : Lake ι}
  {graph : JsString}

theorem Held.grows {c : Cur} (h : Held nc e graph c) (hg : Grows e e') : Held nc e' graph c := by
  obtain ⟨n, m, h₁, h₂, h₃⟩ := h
  exact ⟨n, m, h₁, hg.get h₂, h₃⟩

theorem Grounds.grows {seq : Number} {prev expected head : Json}
    (h : Grounds nc e graph seq prev expected head) (hg : Grows e e') :
    Grounds nc e' graph seq prev expected head := by
  rcases h with h | ⟨n, p, doc, hp, h⟩
  · exact .inl h
  · exact .inr ⟨n, p, doc, hg.get hp, h⟩

theorem Proposal.grows {m : Message ι} (h : Proposal nc opts reqs e m) (hg : Grows e e') :
    Proposal nc opts reqs e' m := by
  obtain ⟨expected, head, prev, data, h₁, h₂, h₃, h₄, h₅⟩ := h
  exact ⟨expected, head, prev, data, h₁, h₂, h₃, h₄, h₅.grows hg⟩

end Grow

/-- The slot of an integral sequence number. -/
theorem slot_eq_some {ι : Type} {m : Message ι} {n : Nat} :
    m.slot = some n ↔ m.seq = .int n := by
  unfold Message.slot
  cases hs : m.seq with
  | int k =>
    simp only
    split
    · rename_i hk
      simp only [Option.some.injEq, Number.int.injEq]
      omega
    · rename_i hk
      simp only [reduceCtorEq, Number.int.injEq, false_iff]
      omega
  | frac q => simp
  | inf b => simp

/-- The largest integer behind which the next one is a double. -/
theorem ofInt_limit : Number.ofInt (2 ^ 53 + 1) = .int (2 ^ 53) := by decide +kernel

/-! ## Chains grow -/

section Chains

variable {ι : Type} {nc : NodeCrypto} {signers : List JsString} {graph : JsString}
  {log : List (Message ι)} {docs : List Json} {m : Message ι} {doc doc' doc'' : Json}

theorem IsDoc.unique (hsha : Injective nc.sha256) (h : IsDoc nc m doc) (h' : IsDoc nc m doc') :
    doc = doc' := by
  obtain ⟨data, hc, hp⟩ := h
  obtain ⟨data', hc', hp'⟩ := h'
  obtain rfl := rawCid_injective hsha (hc.trans hc'.symm)
  exact Option.some.inj (hp.symm.trans hp')

theorem Advances.trans (h : Advances doc doc') (h' : Advances doc' doc'') : Advances doc doc'' := by
  obtain ⟨k, l, hk, hl, hlt⟩ := h
  obtain ⟨k', l', hk', hl', hlt'⟩ := h'
  obtain rfl : l = k' := Option.some.inj (hl.symm.trans hk')
  exact ⟨k, l', hk, hl', hlt.trans hlt'⟩

theorem Chain.length (h : Chain nc signers graph log docs) : docs.length = log.length :=
  h.documents.length_eq.symm

/-- The document of a committed submission. -/
theorem Chain.get (h : Chain nc signers graph log docs) {n : Nat} (hm : log[n]? = some m) :
    ∃ doc, docs[n]? = some doc ∧ IsDoc nc m doc := by
  obtain ⟨hlt, rfl⟩ := List.getElem?_eq_some_iff.mp hm
  have hlt' : n < docs.length := by rwa [h.length]
  exact ⟨docs[n], List.getElem?_eq_getElem hlt', h.documents.get hlt hlt'⟩

/-- The chain goes on with a document behind its last one. -/
theorem Chain.concat (h : Chain nc signers graph log docs) {prev head : Json}
    (hdoc : IsDoc nc m (mirrorValue graph (.int log.length) prev head))
    (hhead : IsHead nc head graph signers) (hfirst : log = [] → prev = .null)
    (hprev : ∀ p, log.getLast? = some p → prev = .str p.cid)
    (hadv : ∀ d, docs.getLast? = some d →
      Advances d (mirrorValue graph (.int log.length) prev head)) :
    Chain nc signers graph (log ++ [m])
      (docs ++ [mirrorValue graph (.int log.length) prev head]) := by
  have hlen := h.length
  -- a document of the longer list is an old one, or the new one at the end
  have key : ∀ n d, (docs ++ [mirrorValue graph (.int log.length) prev head])[n]? = some d →
      docs[n]? = some d ∨ n = log.length ∧ d = mirrorValue graph (.int log.length) prev head := by
    intro n d hd
    rcases lt_trichotomy n docs.length with hlt | rfl | hgt
    · rw [List.getElem?_append_left hlt] at hd
      exact .inl hd
    · exact .inr ⟨hlen, by simpa using hd.symm⟩
    · rw [List.getElem?_eq_none (by simpa using Nat.succ_le_of_lt hgt)] at hd
      cases hd
  refine ⟨List.rel_append h.documents (.cons hdoc .nil), fun n d hd => ?_, fun d hd => ?_,
    fun n p d hp hd => ?_, ?_⟩
  · rcases key n d hd with hd | ⟨rfl, rfl⟩
    · exact h.mirror n d hd
    · exact ⟨prev, head, rfl, hhead⟩
  · rcases key 0 d hd with hd | ⟨h0, rfl⟩
    · exact h.first d hd
    · exact hfirst (List.length_eq_zero_iff.mp h0.symm)
  · rcases key (n + 1) d hd with hd | ⟨hn, rfl⟩
    · have hlt : n < log.length := by
        have := (List.getElem?_eq_some_iff.mp hd).1
        omega
      rw [List.getElem?_append_left hlt] at hp
      exact h.prev n p d hp hd
    · rw [List.getElem?_append_left (by omega)] at hp
      refine hprev p ?_
      rw [List.getLast?_eq_getElem?, ← hp]
      congr 1
      omega
  · refine List.pairwise_append.mpr ⟨h.increasing, List.pairwise_singleton _ _, ?_⟩
    intro d hd d' hd'
    obtain rfl := List.mem_singleton.mp hd'
    rcases List.eq_nil_or_concat' docs with rfl | ⟨init, last, rfl⟩
    · cases hd
    · have hlast := hadv last (by simp)
      rcases List.mem_append.mp hd with hd | hd
      · have := (List.pairwise_append.mp h.increasing).2.2 d hd last (by simp)
        exact this.trans hlast
      · obtain rfl := List.mem_singleton.mp hd
        exact hlast

end Chains

/-! ## The invariant -/

section Invariant

variable {ι ω : Type} (nc : NodeCrypto) (opts : Opts) (reqs : ι → ω × Request)

/-- The invariant of the writers and inga. -/
structure Inv (w : (ω → Memory ι) × Lake ι) : Prop where
  ordered : Ordered Message.graph Message.slot w.2
  chain : ∀ graph, ∃ docs, Chain nc opts.signer graph (w.2.log graph) docs
  proposals : ∀ m ∈ w.2.sent, Proposal nc opts reqs w.2 m
  short : ∀ graph, (w.2.log graph).length ≤ 2 ^ 53 + 1
  cache : ∀ v graph c, (w.1 v).cache graph = some c → Held nc w.2 graph c

/-- Relies and guarantees: documents stay committed, and a request sends only in its own
name. -/
def discipline [DecidableEq ω] : Discipline ι (ω → Memory ι) (Lake ι) where
  Inv := Inv nc opts reqs
  Rely i w w' := Grows w.2 w'.2 ∧ ∀ m ∈ w'.2.sent, m.request = i → m ∈ w.2.sent
  Guar i w w' := w'.2.log = w.2.log ∧ ∀ m ∈ w'.2.sent, m.request = i ∨ m ∈ w.2.sent
  rely_refl _ w := ⟨.refl _, fun _ h _ => h⟩
  rely_trans _ w w' w'' h h' :=
    ⟨h.1.trans h'.1, fun m hm hi => h.2 m (h'.2 m hm hi) hi⟩
  guar_rely i j w w' hij h := by
    refine ⟨.of_log_eq h.1, fun m hm hj => ?_⟩
    rcases h.2 m hm with hi | hm
    · exact absurd (hi.symm.trans hj) hij
    · exact hm

variable {nc opts reqs}

theorem inv_empty : Inv nc opts reqs (fun _ => .empty, (Arbiter.empty : Lake ι)) where
  ordered _ _ _ h := by simp [Arbiter.empty] at h
  chain _ := ⟨[], .nil, by simp, by simp, by simp, .nil⟩
  proposals _ h := by cases h
  short _ := by simp [Arbiter.empty]
  cache _ _ _ h := by simp [Memory.empty] at h

/-- What a request posts is well formed. -/
theorem posted_wf {req : Request} {graph : JsString} {expected head : Json}
    (h : posted req = some (graph, expected, head)) : head.WF := by
  unfold posted at h
  split at h
  case isFalse => cases h
  case isTrue =>
  have hp : parsed req.body = .ok (graph, expected, head) := by
    cases hb : parsed req.body with
    | error msg => simp [hb, Except.toOption] at h
    | ok v => simpa [hb, Except.toOption] using h
  unfold parsed at hp
  split at hp
  case isTrue => cases hp
  split at hp
  case h_1 => cases hp
  case h_2 r hr =>
  split at hp
  case isTrue => cases hp
  split at hp
  case h_2 => cases hp
  split_ifs at hp
  cases hp
  exact (Json.wf_of_parse hr).get _

/-- A mirror document reads back. -/
theorem parseJson_mirrorDoc {graph : JsString} {n : Nat} {prev head : Json} {signers : List JsString}
    {data : Bytes} (hn : n ≤ 2 ^ 53) (hw : head.WF) (hh : IsHead nc head graph signers)
    (hp : prev = .null ∨ ∃ s, prev = .str s) (h : mirrorDoc graph (.int n) prev head = .ok data) :
    parseJson data = some (mirrorValue graph (.int n) prev head) := by
  have hpw : prev.WF ∧ prev.Safe := by
    rcases hp with rfl | ⟨s, rfl⟩
    · exact ⟨trivial, trivial⟩
    · exact ⟨trivial, trivial⟩
  exact parseJson_canonical (mirrorValue_wf hpw.1 hw) (mirrorValue_safe hn hpw.2 (hh.safe hw)) h

theorem Grounds.prev {e : Lake ι} {graph : JsString} {seq : Number} {prev expected head : Json}
    (h : Grounds nc e graph seq prev expected head) : prev = .null ∨ ∃ s, prev = .str s := by
  rcases h with ⟨-, h, -⟩ | ⟨n, p, doc, -, -, -, h, -⟩
  · exact .inl h
  · exact .inr ⟨_, h⟩

/-- The index that a submission behind slot `n` is for, when it is one that can be
committed. -/
theorem next_of_ofInt {n k : Nat} (hn : n ≤ 2 ^ 53) (hk : n < k)
    (h : Number.ofInt (n + 1) = .int k) : k = n + 1 ∧ n + 1 ≤ 2 ^ 53 := by
  by_cases hlt : n + 1 ≤ 2 ^ 53
  · rw [Number.ofInt_exact (by omega)] at h
    have := Number.int.inj h
    omega
  · obtain rfl : n = 2 ^ 53 := by omega
    have : Number.ofInt (((2 ^ 53 : Nat) : Int) + 1) = .int (2 ^ 53) := ofInt_limit
    rw [this] at h
    have := Number.int.inj h
    omega

variable [DecidableEq ι]

/-- **A commit continues the chain**: the grounds of a submission are those of its slot. -/
theorem Inv.commit (hsha : Injective nc.sha256) {s : ω → Memory ι} {e e' : Lake ι} {m : Message ι}
    (h : Inv nc opts reqs (s, e)) (hc : e.commit Message.graph Message.slot m = some e') :
    Inv nc opts reqs (s, e') := by
  obtain ⟨hm, hslot, hsent, hlog⟩ := commit_eq_some hc
  have hg := commit_grows hc
  have hseq := slot_eq_some.mp hslot
  obtain ⟨expected, head, prev, data, hpost, hhead, hdata, hcid, hgr⟩ := h.proposals m hm
  obtain ⟨docs, hch⟩ := h.chain m.graph
  have hshort := h.short m.graph
  -- the predecessor named in the grounds is the last entry, and the log has room
  have hback : ((e.log m.graph) = [] ∧ prev = .null) ∨
      ∃ n p doc, (e.log m.graph).length = n + 1 ∧ n + 1 ≤ 2 ^ 53 ∧ (e.log m.graph)[n]? = some p ∧
        IsDoc nc p doc ∧ prev = .str p.cid ∧
        ∃ k l, sequence? (doc.get (js "head")) = some k ∧ sequence? head = some l ∧ k < l := by
    rcases hgr with ⟨h0, hprev, -⟩ | ⟨n, p, doc, hp, hdoc, hs, hprev, -, -, hadv⟩
    · have : (e.log m.graph).length = 0 := by
        have := Number.int.inj (hseq.symm.trans h0)
        omega
      exact .inl ⟨List.length_eq_zero_iff.mp this, hprev⟩
    · have hlt := (List.getElem?_eq_some_iff.mp hp).1
      obtain ⟨hnext, hle⟩ := next_of_ofInt (by omega) hlt (hs.symm.trans hseq)
      exact .inr ⟨n, p, doc, hnext, hle, hp, hdoc, hprev, hadv⟩
  have hlen : (e.log m.graph).length ≤ 2 ^ 53 := by
    rcases hback with ⟨h0, -⟩ | ⟨n, p, doc, hn, hle, -⟩
    · simp [h0]
    · omega
  have hdoc : IsDoc nc m (mirrorValue m.graph (.int (e.log m.graph).length) prev head) := by
    refine ⟨data, hcid, parseJson_mirrorDoc hlen (posted_wf hpost) hhead hgr.prev ?_⟩
    rw [← hseq]
    exact hdata
  refine ⟨h.ordered.commit hc, fun graph => ?_, fun m' hm' => ?_, fun graph => ?_,
    fun v graph c hcache => (h.cache v graph c hcache).grows hg⟩
  · simp only [hlog]
    by_cases hk : graph = m.graph
    · subst hk
      rw [update_self]
      refine ⟨_, hch.concat hdoc hhead (fun h0 => ?_) (fun p hp => ?_) fun d hd => ?_⟩
      · have h0 : e.log m.graph = [] := h0
        rcases hback with ⟨-, hprev⟩ | ⟨n, p, doc, hn, -⟩
        · exact hprev
        · rw [h0] at hn
          cases hn
      · have hp : (e.log m.graph).getLast? = some p := hp
        rcases hback with ⟨h0, -⟩ | ⟨n, p', doc, hn, -, hp', -, hprev, -⟩
        · rw [h0] at hp
          cases hp
        · rw [List.getLast?_eq_getElem?, hn, Nat.add_sub_cancel, hp'] at hp
          rw [hprev, Option.some.inj hp]
      · rcases hback with ⟨h0, -⟩ | ⟨n, p', doc, hn, -, hp', hisdoc, -, hadv⟩
        · have := hch.length
          rw [h0, List.length_nil, List.length_eq_zero_iff] at this
          simp [this] at hd
        · obtain ⟨d', hd', hdoc'⟩ := hch.get hp'
          rw [List.getLast?_eq_getElem?, hch.length, hn, Nat.add_sub_cancel, hd'] at hd
          obtain rfl := Option.some.inj hd
          obtain rfl := hisdoc.unique hsha hdoc'
          exact hadv
    · rw [update_of_ne hk]
      exact h.chain graph
  · rw [hsent] at hm'
    exact (h.proposals m' hm').grows hg
  · simp only [hlog]
    by_cases hk : graph = m.graph
    · subst hk
      rw [update_self, List.length_append, List.length_singleton]
      omega
    · rw [update_of_ne hk]
      exact h.short graph

end Invariant

end Writer
