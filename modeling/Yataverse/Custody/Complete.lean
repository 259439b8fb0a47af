import Yataverse.Custody.Puller

/-!
# When a round says so, custody is complete

A walk records each document before its ancestors are fetched, and takes a document
that is held for the end of the chain. So the held set has to be closed under `prev`
between walks, and a walk that stops behind its first document leaves it open.

- `Chain`: a committed chain, newest document first.
- `Closed`: every held document's `prev` is held.
- `CleanPull`: whatever stops a walk stops it at its first document.
- **`custody_complete`**: in a run of clean pulls the held set is closed after every
  round, and a pull that returns has fetched, checked and recorded its whole chain.
- **`custody_incomplete`**: one fetch that fails behind the first document is enough for
  the next round to report `HELD` for a chain it does not hold.
-/

namespace Custody

open Js GraphHead Fallible

variable {nc : NodeCrypto} {signers : List JsString}

/-- The `prev` of the document that follows `docs` on a chain. -/
def prevOf (nc : NodeCrypto) : List Bytes → Json
  | [] => .null
  | d :: _ => .str (rawCid nc d)

/-- A chain of a graph, newest document first: sequence numbers count down to 0, and
each document names the one before it. -/
def Chain (nc : NodeCrypto) (graph : JsString) : List Bytes → Prop
  | [] => True
  | d :: older =>
    (∃ doc, parseJson d = some doc ∧ doc.get (js "schema") = .str schema ∧
      doc.get (js "graph") = .str graph ∧ doc.get (js "seq") = .num (.int older.length) ∧
      doc.get (js "prev") = prevOf nc older) ∧ Chain nc graph older

/-- Every document of `held` has its `prev` in `held`, or has the `prev` `gap`. -/
def ClosedBut (nc : NodeCrypto) (gap : Json) (held : List JsString) : Prop :=
  ∀ data doc, rawCid nc data ∈ held → parseJson data = some doc →
    doc.get (js "prev") = gap ∨ doc.get (js "prev") = .null ∨
      ∃ c ∈ held, doc.get (js "prev") = .str c

/-- The held set is closed under `prev`. -/
def Closed (nc : NodeCrypto) (held : List JsString) : Prop :=
  ∀ data doc, rawCid nc data ∈ held → parseJson data = some doc →
    doc.get (js "prev") = .null ∨ ∃ c ∈ held, doc.get (js "prev") = .str c

theorem ClosedBut.closed {gap : Json} {held : List JsString} (h : ClosedBut nc gap held)
    (hg : gap = .null ∨ ∃ c ∈ held, gap = .str c) : Closed nc held := by
  intro data doc hd hp
  rcases h data doc hd hp with rfl | h
  · exact hg
  · exact h

/-- A chain whose newest document is held is held. -/
theorem Closed.chain {held : List JsString} (hc : Closed nc held) {graph : JsString} :
    ∀ {docs : List Bytes}, Chain nc graph docs → (∀ d, docs.head? = some d → rawCid nc d ∈ held) →
      ∀ d ∈ docs, rawCid nc d ∈ held
  | [], _, _, d, hd => by cases hd
  | d :: older, ⟨⟨doc, hdoc, _, _, _, hprev⟩, hch⟩, hh, e, he => by
    have hd : rawCid nc d ∈ held := hh d rfl
    rcases List.mem_cons.mp he with rfl | he
    · exact hd
    · refine hc.chain hch (fun d' hd' => ?_) e he
      obtain ⟨rest, rfl⟩ : ∃ rest, older = d' :: rest := by
        cases older with
        | nil => cases hd'
        | cons x rest =>
          obtain rfl := Option.some.inj hd'
          exact ⟨rest, rfl⟩
      rcases hc d doc hd hdoc with h | ⟨c, hc', h⟩
      · rw [hprev] at h
        cases h
      · rw [hprev] at h
        obtain rfl : rawCid nc d' = c := Json.str.inj h
        exact hc'

/-! ## The state file -/

theorem wfList_str (l : List JsString) :
    Json.WFList (l.map .str) ∧ Json.SafeList (l.map .str) := by
  induction l with
  | nil => exact ⟨trivial, trivial⟩
  | cons s l ih => exact ⟨⟨trivial, ih.1⟩, trivial, ih.2⟩

theorem filterMap_str (l : List JsString) : (l.map Json.str).filterMap Json.str? = l := by
  induction l with
  | nil => rfl
  | cons s l ih => simpa [Json.str?] using ih

/-- The state file reads back. -/
theorem mem_readHeld {held : List JsString} {c : JsString} :
    c ∈ readHeld (some (heldText held)) ↔ c ∈ held := by
  obtain ⟨hw, hs⟩ := wfList_str (sorted held)
  have : Json.parse (heldText held) = some (.arr ((sorted held).map .str)) :=
    Json.parse_print Json.readsBack_stringify hw hs
  simp only [readHeld, Option.bind_some, this, filterMap_str]
  exact mem_sorted

/-! ## The invariant -/

/-- A document that has passed `checkDoc`. -/
def Checked.Valid (nc : NodeCrypto) (signers : List JsString) (k : Checked) : Prop :=
  k.cid = rawCid nc k.data ∧ ∃ doc, checkDoc nc k.graph k.seq (.str k.cid) k.data signers = .ok doc

/-- The invariant of a custodian, in the middle of a walk that has still to fetch `gap`:
the file says what the process holds, the held set is closed but for `gap`, and every
held document has been checked. -/
structure InvBut (nc : NodeCrypto) (signers : List JsString) (gap : Json) (s : Custodian) :
    Prop where
  file : ∀ c, c ∈ readHeld s.file ↔ c ∈ s.mem
  closed : ClosedBut nc gap s.mem
  checked : ∀ c ∈ s.mem, ∃ k ∈ s.checked, k.cid = c ∧ k.Valid nc signers

/-- The invariant between walks. -/
structure Inv (nc : NodeCrypto) (signers : List JsString) (s : Custodian) : Prop where
  file : ∀ c, c ∈ readHeld s.file ↔ c ∈ s.mem
  closed : Closed nc s.mem
  checked : ∀ c ∈ s.mem, ∃ k ∈ s.checked, k.cid = c ∧ k.Valid nc signers

/-- What one state holds and has checked, another does too. -/
structure Grows (s s' : Custodian) : Prop where
  mem : ∀ c ∈ s.mem, c ∈ s'.mem
  checked : ∀ k ∈ s.checked, k ∈ s'.checked

theorem Grows.refl (s : Custodian) : Grows s s := ⟨fun _ h => h, fun _ h => h⟩

theorem Grows.trans {s s' s'' : Custodian} (h : Grows s s') (h' : Grows s' s'') : Grows s s'' :=
  ⟨fun c hc => h'.mem c (h.mem c hc), fun k hk => h'.checked k (h.checked k hk)⟩

@[simp] theorem mem_record {s : Custodian} {c : Checked} : (record s c).mem = conj s.mem c.cid := rfl

theorem record_grows (s : Custodian) (c : Checked) : Grows s (record s c) :=
  ⟨fun _ h => mem_conj.mpr (.inr h), fun _ h => List.mem_cons_of_mem _ h⟩

/-- Recording a checked document moves the gap to its `prev`. -/
theorem InvBut.record (hsha : Function.Injective nc.sha256) {s : Custodian} {graph : JsString}
    {seq : Number} {d : Bytes} {doc : Json} (h : InvBut nc signers (.str (rawCid nc d)) s)
    (hc : checkDoc nc graph seq (.str (rawCid nc d)) d signers = .ok doc)
    (hdoc : parseJson d = some doc) :
    InvBut nc signers (doc.get (js "prev")) (record s ⟨graph, seq, rawCid nc d, d⟩) := by
  refine ⟨fun c => mem_readHeld, ?_, ?_⟩
  · intro data doc' hd hp
    rcases mem_conj.mp hd with hd | hd
    · obtain rfl := rawCid_injective hsha hd
      rw [hdoc] at hp
      obtain rfl := Option.some.inj hp
      exact .inl rfl
    · rcases h.closed data doc' hd hp with h' | h' | ⟨c, hc', h'⟩
      · exact .inr (.inr ⟨_, mem_conj.mpr (.inl rfl), h'⟩)
      · exact .inr (.inl h')
      · exact .inr (.inr ⟨c, mem_conj.mpr (.inr hc'), h'⟩)
  · intro c hc'
    rcases mem_conj.mp hc' with rfl | hc'
    · exact ⟨_, List.mem_cons_self .., rfl, rfl, doc, hc⟩
    · obtain ⟨k, hk, hkc, hv⟩ := h.checked c hc'
      exact ⟨k, List.mem_cons_of_mem _ hk, hkc, hv⟩

theorem Inv.but {s : Custodian} (h : Inv nc signers s) (gap : Json) : InvBut nc signers gap s :=
  ⟨h.file, fun data doc hd hp => .inr (h.closed data doc hd hp), h.checked⟩

theorem InvBut.inv {gap : Json} {s : Custodian} (h : InvBut nc signers gap s)
    (hg : gap = .null ∨ ∃ c ∈ s.mem, gap = .str c) : Inv nc signers s :=
  ⟨h.file, h.closed.closed hg, h.checked⟩

/-- A process that is killed leaves the file. -/
theorem Inv.restart {s : Custodian} (h : Inv nc signers s) :
    Inv nc signers { s with held := none } ∧ Grows s { s with held := none } := by
  have hm : ∀ c, c ∈ ({ s with held := none } : Custodian).mem ↔ c ∈ s.mem := h.file
  refine ⟨⟨fun c => Iff.rfl, fun data doc hd hp => ?_, fun c hc => h.checked c ((hm c).mp hc)⟩,
    fun c hc => (hm c).mpr hc, fun _ hk => hk⟩
  rcases h.closed data doc ((hm _).mp hd) hp with h' | ⟨c, hc, h'⟩
  · exact .inl h'
  · exact .inr ⟨c, (hm c).mpr hc, h'⟩

/-! ## One walk -/

/-- What `checkDoc` returns is the parsed document. -/
theorem checkDoc_ok {graph : JsString} {seq : Number} {cid : Json} {data : Bytes} {doc : Json}
    (h : checkDoc nc graph seq cid data signers = .ok doc) :
    cid = .str (rawCid nc data) ∧ parseJson data = some doc ∧ doc.get (js "graph") = .str graph ∧
      doc.get (js "seq") = .num seq := by
  obtain ⟨hcid, h⟩ := check_bind_eq_ok.mp h
  split at h
  · cases h
  · rename_i doc' hdoc
    obtain ⟨⟨-, hg, hq⟩, h⟩ := check_bind_eq_ok.mp h
    obtain ⟨-, h⟩ := check_bind_eq_ok.mp h
    obtain ⟨_, -, h⟩ := bind_eq_ok.mp h
    obtain rfl := Except.ok.inj h
    exact ⟨hcid, hdoc, hg, hq⟩

/-- The fetch of `d` succeeds, and the process lives. -/
structure Delivers (v : Visit) (d : Bytes) : Prop where
  alive : v.killed = false
  pin : v.pin.exited 0 = true
  cat : v.cat.exited 0 = true
  out : v.cat.out = d

/-- Every document of `docs`, the newest with sequence number `seq`, is held or is
delivered and passes `checkDoc`. -/
def Available (nc : NodeCrypto) (signers : List JsString) (graph : JsString)
    (visit : Json → Visit) (held : List JsString) : List Bytes → Number → Prop
  | [], _ => True
  | d :: older, seq =>
    (rawCid nc d ∉ held → Delivers (visit (.str (rawCid nc d))) d ∧
      ∃ doc, checkDoc nc graph seq (.str (rawCid nc d)) d signers = .ok doc) ∧
    Available nc signers graph visit held older (seq.add (-1))

theorem Available.mono {graph : JsString} {visit : Json → Visit} {held held' : List JsString}
    (hm : ∀ c ∈ held, c ∈ held') : ∀ {docs : List Bytes} {seq : Number},
    Available nc signers graph visit held docs seq → Available nc signers graph visit held' docs seq
  | [], _, _ => trivial
  | _ :: _, _, h => ⟨fun hn => h.1 fun hc => hn (hm _ hc), h.2.mono hm⟩

theorem fetch_of_delivers {v : Visit} {d : Bytes} {cid : Json} (h : Delivers v d) :
    fetch v cid = .ok d := by
  rw [fetch, check, if_pos h.pin, check, if_pos h.cat]
  exact congrArg Except.ok h.out

/-- A walk stops at the end of the chain and at a held document. -/
theorem walk_stop {graph : JsString} {headSeq seq : Number} {visit : Json → Visit} {steps n : Nat}
    {s : Custodian} {cid : Json} (h : cid = .null ∨ s.holds cid = true) :
    walk nc signers graph headSeq visit steps s seq cid n = (.returned (some headSeq) n, s) := by
  rw [walk.eq_def]
  exact if_pos h

theorem holds_str {s : Custodian} {c : JsString} : s.holds (.str c) = true ↔ c ∈ s.mem := by
  simp [Custodian.holds]

/-- A walk over documents that are held or available comes to its end, closes the gap
and leaves the whole chain held. -/
theorem walk_available (hsha : Function.Injective nc.sha256) {graph : JsString} {headSeq : Number}
    {visit : Json → Visit} :
    ∀ (docs : List Bytes) {steps : Nat} {s : Custodian} {seq : Number} {n : Nat},
      Chain nc graph docs → docs.length ≤ steps →
      Available nc signers graph visit s.mem docs seq → InvBut nc signers (prevOf nc docs) s →
      ∃ m s', walk nc signers graph headSeq visit steps s seq (prevOf nc docs) n =
        (.returned (some headSeq) m, s') ∧ Inv nc signers s' ∧ Grows s s'
  | [], steps, s, seq, n, _, _, _, hi =>
    ⟨n, s, walk_stop (.inl rfl), hi.inv (.inl rfl), .refl s⟩
  | d :: older, steps, s, seq, n, hch, hsteps, hav, hi => by
    obtain ⟨⟨doc, hdoc, -, -, -, hprev⟩, hch⟩ := hch
    by_cases hh : rawCid nc d ∈ s.mem
    · exact ⟨n, s, walk_stop (.inr (holds_str.mpr hh)), hi.inv (.inr ⟨_, hh, rfl⟩), .refl s⟩
    · obtain ⟨steps, rfl⟩ : ∃ k, steps = k + 1 := ⟨steps - 1, by simp at hsteps; omega⟩
      obtain ⟨hdel, doc', hc⟩ := hav.1 hh
      obtain rfl : doc = doc' := by
        have := (checkDoc_ok hc).2.1
        rw [hdoc] at this
        exact Option.some.inj this
      have hi' := hi.record hsha hc hdoc
      rw [hprev] at hi'
      have hg := record_grows s ⟨graph, seq, rawCid nc d, d⟩
      obtain ⟨m, s', hw, hinv, hgrow⟩ := walk_available hsha older (n := n + 1) hch
        (by simpa using hsteps) (hav.2.mono hg.mem) hi'
      refine ⟨m, s', ?_, hinv, hg.trans hgrow⟩
      rw [← hw]
      simp [walk, prevOf, holds_str, hh, hdel.alive, fetch_of_delivers hdel, hc, hprev]

/-! ## One pull -/

/-- What the witnesses say is committed: the head they prove is the newest document of
the chain, and there is none when they hold no record. The walk is looked at for as many documents as there are. -/
structure Committed (nc : NodeCrypto) (p : Pull) : Prop where
  chain : Chain nc p.graph p.docs
  head : ∀ seq cid, witnessHead p.verify = .ok (some (seq, cid)) →
    ∃ d older, p.docs = d :: older ∧ seq = .int older.length ∧ cid = rawCid nc d
  absent : witnessHead p.verify = .ok none → p.docs = []
  steps : p.docs.length ≤ p.steps

/-- Nothing stops the walk behind its first document: when the head is fetched and
passes `checkDoc`, every document behind it is held, or its fetch delivers it and it
passes `checkDoc`. -/
def CleanPull (nc : NodeCrypto) (signers : List JsString) (p : Pull) (s : Custodian) : Prop :=
  ∀ seq cid data doc, witnessHead p.verify = .ok (some (seq, cid)) →
    (p.visit (.str cid)).killed = false → fetch (p.visit (.str cid)) (.str cid) = .ok data →
    checkDoc nc p.graph seq (.str cid) data signers = .ok doc →
    Available nc signers p.graph p.visit s.mem p.docs.tail (seq.add (-1))

/-- Custody of a chain is complete: every document of it is held, in the process and in
the file, and was fetched and passed `checkDoc` as the document of its graph and
sequence number. -/
def Complete (nc : NodeCrypto) (signers : List JsString) (p : Pull) (s : Custodian) : Prop :=
  ∀ newer d older, p.docs = newer ++ d :: older →
    rawCid nc d ∈ s.mem ∧ rawCid nc d ∈ readHeld s.file ∧
      ∃ k ∈ s.checked, k = ⟨p.graph, .int older.length, rawCid nc d, d⟩ ∧ k.Valid nc signers

/-- A document in the middle of a chain. -/
theorem Chain.middle {graph : JsString} {d : Bytes} {older : List Bytes} :
    ∀ {newer : List Bytes}, Chain nc graph (newer ++ d :: older) →
      ∃ doc, parseJson d = some doc ∧ doc.get (js "graph") = .str graph ∧
        doc.get (js "seq") = .num (.int older.length)
  | [], ⟨⟨doc, hdoc, _, hg, hq, _⟩, _⟩ => ⟨doc, hdoc, hg, hq⟩
  | _ :: _, ⟨_, h⟩ => h.middle

/-- When the head of a chain is held, custody of the chain is complete. -/
theorem Inv.complete (hsha : Function.Injective nc.sha256) {s : Custodian} {p : Pull}
    (hi : Inv nc signers s) (hch : Chain nc p.graph p.docs)
    (hh : ∀ d, p.docs.head? = some d → rawCid nc d ∈ s.mem) : Complete nc signers p s := by
  intro newer d older hd
  have hmem : rawCid nc d ∈ s.mem := hi.closed.chain hch hh d (by simp [hd])
  refine ⟨hmem, (hi.file _).mpr hmem, ?_⟩
  obtain ⟨k, hk, hkc, hv⟩ := hi.checked _ hmem
  refine ⟨k, hk, ?_, hv⟩
  -- the bytes that were checked are the document's, so they say its graph and number
  obtain ⟨hcid, doc', hc⟩ := hv
  have hdata : k.data = d := rawCid_injective hsha (hcid.symm.trans hkc)
  obtain ⟨-, hp, hg, hq⟩ := checkDoc_ok hc
  rw [hd] at hch
  obtain ⟨doc, hdoc, hg', hq'⟩ := hch.middle
  rw [hdata, hdoc] at hp
  obtain rfl := Option.some.inj hp
  rw [hg'] at hg
  rw [hq'] at hq
  obtain ⟨graph, seq, cid, data⟩ := k
  obtain rfl : p.graph = graph := Json.str.inj hg
  obtain rfl : Number.int older.length = seq := Json.num.inj hq
  obtain rfl : cid = rawCid nc d := hkc
  obtain rfl : data = d := hdata
  rfl

/-- One clean pull keeps the invariant, and completes the custody of its chain when it
returns. -/
theorem pull_clean (hsha : Function.Injective nc.sha256) {p : Pull} {s : Custodian}
    (hi : Inv nc signers s) (hcom : Committed nc p) (hclean : CleanPull nc signers p s) :
    Inv nc signers (pull nc signers p s).2 ∧ Grows s (pull nc signers p s).2 ∧
      ∀ q n, (pull nc signers p s).1 = .returned q n →
        Complete nc signers p (pull nc signers p s).2 := by
  unfold pull
  split
  · exact ⟨hi, .refl s, nofun⟩
  · rename_i hw
    exact ⟨hi, .refl s, fun q n _ newer d older hd => by simp [hcom.absent hw] at hd⟩
  rename_i seq cid hw
  obtain ⟨d, older, hdocs, -, rfl⟩ := hcom.head seq cid hw
  have hch := hcom.chain
  have hsteps := hcom.steps
  rw [hdocs] at hsteps
  obtain ⟨steps, hk⟩ : ∃ k, p.steps = k + 1 := ⟨p.steps - 1, by simp at hsteps; omega⟩
  rw [hk] at hsteps ⊢
  by_cases hh : rawCid nc d ∈ s.mem
  · rw [walk_stop (.inr (holds_str.mpr hh))]
    refine ⟨hi, .refl s, fun q n _ => hi.complete hsha hch fun d' hd' => ?_⟩
    obtain rfl : d = d' := by simpa [hdocs] using hd'
    exact hh
  · -- the first document: nothing is recorded unless it is delivered and passes
    have hstop : ¬ (Json.str (rawCid nc d) = .null ∨ s.holds (.str (rawCid nc d)) = true) := by
      simp [holds_str, hh]
    rw [walk.eq_def]
    simp only [if_neg hstop]
    split
    · exact ⟨hi.restart.1, hi.restart.2, nofun⟩
    rename_i hkilled
    split
    · exact ⟨hi, .refl s, nofun⟩
    rename_i data hfetch
    split
    · exact ⟨⟨hi.file, hi.closed, hi.checked⟩, ⟨fun _ h => h, fun _ h => h⟩, nofun⟩
    rename_i doc hc
    have hav := hclean seq _ data doc hw (by simpa using hkilled) hfetch hc
    rw [hdocs, List.tail_cons] at hav
    obtain ⟨hcid, hdoc, -⟩ := checkDoc_ok hc
    obtain rfl : d = data := rawCid_injective hsha (Json.str.inj hcid)
    have hi' := (hi.but (.str (rawCid nc d))).record hsha hc hdoc
    have hg := record_grows s ⟨p.graph, seq, rawCid nc d, d⟩
    have hch' := hch
    rw [hdocs] at hch'
    obtain ⟨⟨doc', hdoc', -, -, -, hprev⟩, hch'⟩ := hch'
    obtain rfl : doc = doc' := Option.some.inj (hdoc.symm.trans hdoc')
    rw [hprev] at hi' ⊢
    obtain ⟨m, s', hwalk, hinv, hgrow⟩ := walk_available hsha older (n := 0 + 1) hch'
      (by simpa using hsteps) (hav.mono hg.mem) hi'
    rw [hwalk]
    refine ⟨hinv, hg.trans hgrow, fun q n _ => hinv.complete hsha hch fun d' hd' => ?_⟩
    obtain rfl : d = d' := by simpa [hdocs] using hd'
    exact hgrow.mem _ (mem_conj.mpr (.inl rfl))

/-! ## Rounds -/

/-- Does a round go on to its next graph? -/
def End.goesOn : End → Bool
  | .returned _ _ => true
  | .threw _ => true
  | _ => false

/-- Every pull a round makes is clean. -/
def CleanPulls (nc : NodeCrypto) (signers : List JsString) : List Pull → Custodian → Prop
  | [], _ => True
  | p :: ps, s => Committed nc p ∧ CleanPull nc signers p s ∧
    ((pull nc signers p s).1.goesOn = true → CleanPulls nc signers ps (pull nc signers p s).2)

/-- Every pull of every round is clean. -/
def CleanRun (nc : NodeCrypto) (signers : List JsString) : List Round → Custodian → Prop
  | [], _ => True
  | r :: rs, s => CleanPulls nc signers r.pulls (r.enter s) ∧
    CleanRun nc signers rs (round nc signers r s).2.2

/-- What a run of rounds promises: after every round the saved set is closed under
`prev`, and custody is complete for every pull of the round that has returned. -/
def Sound (nc : NodeCrypto) (signers : List JsString) (rs : List Round) : Prop :=
  ∀ before r after, rs = before ++ r :: after →
    let after := round nc signers r (rounds nc signers before .fresh)
    Closed nc (readHeld after.2.2.file) ∧
      ∀ p q n, (p, .returned q n) ∈ after.2.1 → Complete nc signers p after.2.2

theorem Complete.grows {p : Pull} {s s' : Custodian} (h : Complete nc signers p s)
    (hg : Grows s s') (hi : Inv nc signers s') : Complete nc signers p s' := by
  intro newer d older hd
  obtain ⟨hm, -, k, hk, hv⟩ := h newer d older hd
  exact ⟨hg.mem _ hm, (hi.file _).mpr (hg.mem _ hm), k, hg.checked k hk, hv⟩

/-- The pulls of one round. -/
theorem once_clean (hsha : Function.Injective nc.sha256) :
    ∀ {ps : List Pull} {worst : Nat} {s : Custodian}, Inv nc signers s →
      CleanPulls nc signers ps s → Inv nc signers (once nc signers ps worst s).2.2 ∧
        Grows s (once nc signers ps worst s).2.2 ∧
        ∀ p q n, (p, .returned q n) ∈ (once nc signers ps worst s).2.1 →
          Complete nc signers p (once nc signers ps worst s).2.2
  | [], worst, s, hi, _ => ⟨hi, .refl s, fun p q n h => by simp [once] at h⟩
  | p :: ps, worst, s, hi, ⟨hcom, hclean, hrest⟩ => by
    obtain ⟨hi', hg, hret⟩ := pull_clean hsha hi hcom hclean
    rw [once]
    rcases hp : pull nc signers p s with ⟨e, s'⟩
    rw [hp] at hi' hg hret hrest
    cases e with
    | returned q n =>
      obtain ⟨h₁, h₂, h₃⟩ := once_clean hsha hi' (hrest rfl)
      refine ⟨h₁, hg.trans h₂, fun p' q' n' h => ?_⟩
      rcases List.mem_cons.mp h with h | h
      · obtain ⟨rfl, h⟩ := Prod.mk.inj h
        exact (hret q n rfl).grows h₂ h₁
      · exact h₃ p' q' n' h
    | threw e =>
      obtain ⟨h₁, h₂, h₃⟩ := once_clean hsha hi' (hrest rfl)
      refine ⟨h₁, hg.trans h₂, fun p' q' n' h => ?_⟩
      rcases List.mem_cons.mp h with h | h
      · cases (Prod.mk.inj h).2
      · exact h₃ p' q' n' h
    | killed => exact ⟨hi', hg, fun p' q' n' h => by simp at h⟩
    | running =>
      exact ⟨hi'.restart.1, hg.trans hi'.restart.2, fun p' q' n' h => by simp at h⟩

/-- The first pull of a round is among its ends when it returns. -/
theorem round_returned {r : Round} {p : Pull} {ps : List Pull} {n : Nat} {s : Custodian}
    {q : Option Number} (hr : r.pulls = p :: ps)
    (h : (pull nc signers p (r.enter s)).1 = .returned q n) :
    (p, .returned q n) ∈ (round nc signers r s).2.1 := by
  rw [round, hr, once]
  rcases hp : pull nc signers p (r.enter s) with ⟨e, s'⟩
  obtain rfl : e = .returned q n := by rw [← h, hp]
  exact List.mem_cons_self ..

/-- A round starts from what the file or the process holds. -/
theorem Inv.enter {s : Custodian} (h : Inv nc signers s) (r : Round) :
    Inv nc signers (r.enter s) := by
  have hm : ∀ c, c ∈ (r.enter s).mem ↔ c ∈ s.mem := by
    intro c
    obtain ⟨restart, pulls⟩ := r
    cases restart
    · exact Iff.rfl
    · exact h.file c
  refine ⟨fun c => (h.file c).trans (hm c).symm, fun data doc hd hp => ?_,
    fun c hc => h.checked c ((hm c).mp hc)⟩
  rcases h.closed data doc ((hm _).mp hd) hp with h' | ⟨c, hc, h'⟩
  · exact .inl h'
  · exact .inr ⟨c, (hm c).mpr hc, h'⟩

theorem inv_fresh : Inv nc signers .fresh :=
  ⟨fun _ => Iff.rfl, fun data _ hd _ => absurd hd (List.not_mem_nil (a := rawCid nc data)),
    fun c hc => absurd hc (List.not_mem_nil (a := c))⟩

/-- A clean run, split at one of its rounds. -/
theorem cleanRun_append {after : List Round} :
    ∀ {before : List Round} {s : Custodian}, CleanRun nc signers (before ++ after) s →
      CleanRun nc signers before s ∧ CleanRun nc signers after (rounds nc signers before s)
  | [], _, h => ⟨trivial, h⟩
  | _ :: _, _, ⟨h₁, h₂⟩ => ⟨⟨h₁, (cleanRun_append h₂).1⟩, (cleanRun_append h₂).2⟩

theorem rounds_clean (hsha : Function.Injective nc.sha256) :
    ∀ {rs : List Round} {s : Custodian}, Inv nc signers s → CleanRun nc signers rs s →
      Inv nc signers (rounds nc signers rs s)
  | [], _, hi, _ => hi
  | r :: _, s, hi, ⟨h₁, h₂⟩ =>
    rounds_clean (s := (round nc signers r s).2.2) hsha (once_clean hsha (hi.enter r) h₁).1 h₂

/-- **Custody is complete when a round says so**, in every run in which nothing stops a
walk behind its first document. -/
theorem custody_complete (hsha : Function.Injective nc.sha256) {rs : List Round}
    (h : CleanRun nc signers rs .fresh) : Sound nc signers rs := by
  rintro before r after rfl
  obtain ⟨h₁, h₂⟩ := cleanRun_append h
  obtain ⟨hi, -, hret⟩ := once_clean hsha
    ((rounds_clean hsha inv_fresh h₁).enter r) h₂.1
  refine ⟨fun data doc hd hp => ?_, hret⟩
  rcases hi.closed data doc ((hi.file _).mp hd) hp with h' | ⟨c, hc, h'⟩
  · exact .inl h'
  · exact .inr ⟨c, (hi.file c).mpr hc, h'⟩

/-! ## A walk that stops behind its first document -/

namespace Sample

open GraphHead.Sample

def exited (code : Int) (out : Bytes) : Proc := ⟨some code, out, []⟩

/-- The witnesses prove the second document. -/
def verified : Proc :=
  exited 0 (utf8 (js "VERIFIED yataverse/graph/" ++ graph₀ ++ js " seq 1 cid " ++ cid₁ ++
    js " by 5 witnesses"))

/-- Every fetch succeeds. -/
def delivering (cid : Json) : Visit :=
  ⟨exited 0 [], exited 0 (if cid = .str cid₁ then doc₁ else doc₀), false⟩

/-- The fetch of `c` fails, every other one succeeds. -/
def failingAt (c : JsString) (cid : Json) : Visit :=
  if cid = .str c then ⟨exited 1 [], exited 1 [], false⟩ else delivering cid

/-- A pull of the two documents. -/
def twoDocs (visit : Json → Visit) : Pull where
  graph := graph₀
  verify := verified
  visit := visit
  steps := 2
  docs := [doc₁, doc₀]

/-- A round of one pull, in a new process. -/
def oneRound (visit : Json → Visit) : Round := ⟨true, [twoDocs visit]⟩

/-- The second document is proved, and the first one passes its check. -/
theorem proved : witnessHead verified = .ok (some (.int 1, cid₁)) ∧ cid₀ ≠ cid₁ ∧
    (checkDoc nodeCrypto graph₀ (.int 0) (.str cid₀) doc₀ [did]).isOk = true := by
  decide +kernel

theorem witnessHead_verified : witnessHead verified = .ok (some (.int 1, cid₁)) := proved.1

theorem distinct : Json.str cid₀ ≠ .str cid₁ := fun h => proved.2.1 (Json.str.inj h)

theorem committed (visit : Json → Visit) : Committed nodeCrypto (twoDocs visit) := by
  refine ⟨⟨⟨_, parseJson_doc₁, rfl, rfl, rfl, ?_⟩, ⟨_, parseJson_doc₀, rfl, rfl, rfl, rfl⟩, trivial⟩,
    fun seq cid h => ?_, fun h => ?_, le_refl 2⟩
  · rw [prevOf, rawCid_doc₀]
    rfl
  · obtain ⟨rfl, rfl⟩ :=
      Prod.mk.inj (Option.some.inj (Except.ok.inj (witnessHead_verified.symm.trans h)))
    exact ⟨doc₁, [doc₀], rfl, rfl, rawCid_doc₁.symm⟩
  · cases witnessHead_verified.symm.trans h

theorem checkDoc_doc₀ :
    ∃ doc, checkDoc nodeCrypto graph₀ (.int 0) (.str cid₀) doc₀ [did] = .ok doc := by
  have h := proved.2.2
  cases hc : checkDoc nodeCrypto graph₀ (.int 0) (.str cid₀) doc₀ [did] with
  | ok doc => exact ⟨doc, rfl⟩
  | error e => simp [hc, Except.isOk, Except.toBool] at h

/-- Where the fetch of the first document succeeds, the pull is clean. -/
theorem clean {visit : Json → Visit} (hv : visit (.str cid₀) = delivering (.str cid₀))
    (s : Custodian) : CleanPull nodeCrypto [did] (twoDocs visit) s := by
  intro seq cid _ _ h _ _ _
  obtain ⟨rfl, rfl⟩ :=
    Prod.mk.inj (Option.some.inj (Except.ok.inj (witnessHead_verified.symm.trans h)))
  refine ⟨fun _ => ?_, trivial⟩
  rw [rawCid_doc₀]
  show Delivers (visit _) doc₀ ∧ _
  rw [hv]
  have hout : (if Json.str cid₀ = .str cid₁ then doc₁ else doc₀) = doc₀ := if_neg distinct
  exact ⟨⟨rfl, rfl, rfl, hout⟩, checkDoc_doc₀⟩

theorem cleanRun_sample :
    CleanRun nodeCrypto [did] [oneRound (failingAt cid₁), oneRound delivering] .fresh :=
  ⟨⟨committed _, clean (if_neg distinct) _, fun _ => trivial⟩,
    ⟨committed _, clean rfl _, fun _ => trivial⟩, trivial⟩

end Sample

open Sample GraphHead.Sample in
/-- The first round is stopped at its first document, the second one completes custody
of both. -/
theorem custody_complete_sample :
    Sound nodeCrypto [did] [oneRound (failingAt cid₁), oneRound delivering] :=
  custody_complete sha256_injective cleanRun_sample

open Sample GraphHead.Sample in
/-- **One failed fetch behind the first document breaks custody.** The fetch of the
first document fails when the second one has been recorded; the next round, in which
nothing fails, finds the second one held and reports `HELD` with exit code 0. -/
theorem custody_incomplete :
    (∀ visit, Committed nodeCrypto (twoDocs visit)) ∧
      (round nodeCrypto [did] (oneRound delivering)
        (rounds nodeCrypto [did] [oneRound (failingAt cid₀)] .fresh)).1 = some 0 ∧
      ¬ Sound nodeCrypto [did] [oneRound (failingAt cid₀), oneRound delivering] := by
  obtain ⟨hcode, hp, hm⟩ :
      (round nodeCrypto [did] (oneRound delivering)
        (rounds nodeCrypto [did] [oneRound (failingAt cid₀)] .fresh)).1 = some 0 ∧
      (pull nodeCrypto [did] (twoDocs delivering) ((oneRound delivering).enter
        (rounds nodeCrypto [did] [oneRound (failingAt cid₀)] .fresh))).1 =
        .returned (some (.int 1)) 0 ∧
      cid₀ ∉ (round nodeCrypto [did] (oneRound delivering)
        (rounds nodeCrypto [did] [oneRound (failingAt cid₀)] .fresh)).2.2.mem := by
    decide +kernel
  refine ⟨committed, hcode, fun h => ?_⟩
  obtain ⟨-, hret⟩ := h [oneRound (failingAt cid₀)] (oneRound delivering) [] rfl
  have hend := hret _ _ _ (round_returned rfl hp) [doc₁] doc₀ [] rfl
  rw [rawCid_doc₀] at hend
  exact hm hend.1

end Custody
