import Yataverse.Custody.Complete

/-!
# What a pull adds

A walk follows the links of documents that anybody may have written. It ends because every document has to have the
sequence number that is next, and the one with 0 has no link.

- `IsDocument`: what `check-doc` has seen of a document.
- `Linked`: documents one before the other.
- `walk_linked`: what a walk adds, within as many fetches as there are sequence numbers.
- **`pull_linked`**: the same of a pull, where the sequence numbers can be counted down.
- `not_linked`: where they cannot.
-/

namespace Custody

open Js GraphHead Fallible

variable {nc : NodeCrypto} {signers : List JsString} {graph : JsString} {visit : Json → Visit} {s : Custodian}
  {cid : Json} {data : Bytes} {doc : Json} {n : Nat}

/-- The document of a sequence number, with the bytes that hash to its CID and with a head that is accepted. -/
structure IsDocument (nc : NodeCrypto) (signers : List JsString) (graph : JsString) (seq : Nat) (c : Checked)
    (doc : Json) : Prop where
  recorded : c.graph = graph ∧ c.seq = .int seq
  hash : c.cid = rawCid nc c.data
  parsed : parseJson c.data = some doc
  schemaIs : doc.get (js "schema") = .str schema
  graphIs : doc.get (js "graph") = .str graph
  seqIs : doc.get (js "seq") = .num (.int seq)
  prevIs : seq = 0 ↔ doc.get (js "prev") = .null
  headIs : ∃ record, verifyHead nc (doc.get (js "head")) graph signers = .ok record

/-- Documents from the sequence number `seq` on down, the first one with the CID `cid` and each of the others with
the one that the document before it links. -/
def Linked (nc : NodeCrypto) (signers : List JsString) (graph : JsString) : Nat → Json → List Checked → Prop
  | _, _, [] => True
  | seq, cid, c :: added =>
    cid = .str c.cid ∧ ∃ doc, IsDocument nc signers graph seq c doc ∧
      (added = [] ∨ 0 < seq ∧ Linked nc signers graph (seq - 1) (doc.get (js "prev")) added)

/-- What a walk leaves that has added the documents. -/
structure Added (added : List Checked) (s : Custodian) (r : End × Custodian) : Prop where
  ended : r.1 ≠ .running
  checked : r.2.checked = added.reverse ++ s.checked
  held : r.1 = .killed ∨ ∀ c, c ∈ r.2.mem ↔ c ∈ s.mem ∨ c ∈ added.map Checked.cid

/-- A document that `check-doc` returns. -/
theorem isDocument_of_checkDoc (h : checkDoc nc graph (.int n) cid data signers = .ok doc) :
    cid = .str (rawCid nc data) ∧ IsDocument nc signers graph n ⟨graph, .int n, rawCid nc data, data⟩ doc := by
  obtain ⟨hcid, h⟩ := check_bind_eq_ok.mp h
  split at h
  · cases h
  · rename_i doc' hdoc
    obtain ⟨⟨hschema, hgraph, hseq⟩, h⟩ := check_bind_eq_ok.mp h
    obtain ⟨hprev, h⟩ := check_bind_eq_ok.mp h
    obtain ⟨record, hhead, h⟩ := bind_eq_ok.mp h
    obtain rfl := Except.ok.inj h
    have hzero : n = 0 ↔ Number.int n = .int 0 := by rw [Number.int.injEq, Int.natCast_eq_zero]
    exact ⟨hcid, ⟨⟨rfl, rfl⟩, rfl, hdoc, hschema, hgraph, hseq, hzero.trans hprev, record, hhead⟩⟩

/-- Nothing is added. -/
theorem Added.none {r : End × Custodian} (hend : r.1 ≠ .running) (hchecked : r.2.checked = s.checked)
    (hheld : r.1 = .killed ∨ r.2.mem = s.mem) : Added [] s r := by
  refine ⟨hend, hchecked, hheld.imp_right fun h c => ?_⟩
  rw [h]
  exact (or_iff_left List.not_mem_nil).symm

/-- One document, and those of the rest of the walk. -/
theorem Added.cons {c : Checked} {added : List Checked} {r : End × Custodian} (h : Added added (record s c) r) :
    Added (c :: added) s r := by
  refine ⟨h.ended, ?_, h.held.imp_right fun hheld d => ?_⟩
  · rw [h.checked, List.reverse_cons, List.append_assoc]
    rfl
  · rw [hheld, mem_record, mem_conj, List.map_cons, List.mem_cons, or_comm (a := d = c.cid), or_assoc]

/-- `(dec seq)` is exact. -/
theorem dec_exact (h : n + 1 ≤ 2 ^ 53) : Number.add (.int (n + 1 : Nat)) (-1) = .int n := by
  have hexact := Number.ofInt_exact (n := n) (by omega)
  rw [← hexact, Number.add]
  congr 1
  omega

/-- **A walk** ends within as many fetches as there are sequence numbers, and what it adds is linked. -/
theorem walk_linked (hn : n ≤ 2 ^ 53) {headSeq : Number} {steps m : Nat} (hsteps : n + 1 ≤ steps) :
    ∃ added, Linked nc signers graph n cid added ∧ added.length ≤ n + 1 ∧
      Added added s (walk nc signers graph headSeq visit steps s (.int n) cid m) := by
  induction steps generalizing n s cid m with
  | zero => omega
  | succ steps ih =>
    have hnothing : ∀ r : End × Custodian, r.1 ≠ .running → r.2.checked = s.checked → (r.1 = .killed ∨ r.2.mem = s.mem) →
        ∃ added, Linked nc signers graph n cid added ∧ added.length ≤ n + 1 ∧ Added added s r :=
      fun r hend hchecked hheld => ⟨[], trivial, Nat.zero_le _, .none hend hchecked hheld⟩
    rw [walk.eq_def]
    dsimp only
    split_ifs with hstop hkilled
    · exact hnothing _ (fun h => by cases h) rfl (.inr rfl)
    · exact hnothing _ (fun h => by cases h) rfl (.inl rfl)
    cases hfetch : fetch (visit cid) cid with
    | error e => exact hnothing _ (fun h => by cases h) rfl (.inr rfl)
    | ok data =>
      dsimp only
      cases hdoc : checkDoc nc graph (.int n) cid data signers with
      | error e => exact hnothing _ (fun h => by cases h) rfl (.inr rfl)
      | ok doc =>
        dsimp only
        obtain ⟨hcid, hdocument⟩ := isDocument_of_checkDoc hdoc
        cases n with
        | zero =>
          -- the first document has no link, so the walk stops behind it
          have hprev : doc.get (js "prev") = .null := hdocument.prevIs.mp rfl
          rw [walk_stop (.inl hprev)]
          refine ⟨[_], ⟨hcid, doc, hdocument, .inl rfl⟩, le_rfl, Added.cons (.none (fun h => by cases h) rfl (.inr rfl))⟩
        | succ n =>
          rw [dec_exact hn]
          obtain ⟨added, hlinked, hlength, hadded⟩ : ∃ added, Linked nc signers graph n (doc.get (js "prev")) added ∧
              added.length ≤ n + 1 ∧ Added added (record s ⟨graph, .int (n + 1 : Nat), rawCid nc data, data⟩)
                (walk nc signers graph headSeq visit steps (record s ⟨graph, .int (n + 1 : Nat), rawCid nc data, data⟩)
                  (.int n) (doc.get (js "prev")) (m + 1)) := ih (by omega) (by omega)
          exact ⟨_ :: added, ⟨hcid, doc, hdocument, .inr ⟨Nat.succ_pos n, hlinked⟩⟩, Nat.succ_le_succ hlength, hadded.cons⟩

/-- **A pull** of a head whose sequence number can be counted down makes no more fetches than there are sequence
numbers, and returns, throws or is killed. It has added documents of the graph from the committed one on down, each
linked by the one before it, and nothing else. -/
theorem pull_linked (nc : NodeCrypto) (signers : List JsString) (p : Pull) (s : Custodian) {headSeq : Nat}
    {headCid : JsString} (hhead : witnessHead p.verify = .ok (some (.int headSeq, headCid))) (hseq : headSeq ≤ 2 ^ 53)
    (hsteps : headSeq + 1 ≤ p.steps) :
    ∃ added, Linked nc signers p.graph headSeq (.str headCid) added ∧ added.length ≤ headSeq + 1 ∧
      Added added s (pull nc signers p s) := by
  rw [pull, hhead]
  exact walk_linked hseq hsteps

namespace Sample

open GraphHead.Sample

/-- A hash that depends on the length of a document only, and a key that signs everything. -/
def weak : NodeCrypto := ⟨fun data => [byte data.length], fun _ _ _ => true⟩

/-- A document with a sequence number that is written out. -/
def docOf (seq : JsString) (prev : Json) : Bytes :=
  utf8 (js "\x7b\"graph\":" ++ stringify graph₀ ++ js ",\"head\":" ++ Json.print stringify head₀ ++ js ",\"prev\":" ++
    Json.print stringify prev ++ js ",\"schema\":" ++ stringify schema ++ js ",\"seq\":" ++ seq ++ js "\x7d")

/-- `2 ^ 54` -/
def large : JsString := js "18014398509481984"

/-- The document that the committed one links has the same sequence number. -/
def below : Bytes := docOf large (.str (js "a"))

def above : Bytes := docOf large (.str (rawCid weak below))

/-- The committed document and the one that it links are delivered. -/
def largePull : Pull where
  graph := graph₀
  verify := exited 0 (utf8 (js "VERIFIED yataverse/graph/" ++ graph₀ ++ js " seq " ++ large ++ js " cid " ++
    rawCid weak above))
  visit cid := if cid = .str (js "a") then ⟨exited 1 [], exited 1 [], false⟩ else
    ⟨exited 0 [], exited 0 (if cid = .str (rawCid weak below) then below else above), false⟩
  steps := 3
  docs := []

end Sample

open Sample GraphHead.Sample in
theorem pull_linked_twoDocs : ∃ added, Linked nodeCrypto [did] graph₀ 1 (.str cid₁) added ∧ added.length ≤ 2 ∧
    Added added .fresh (pull nodeCrypto [did] (twoDocs delivering) .fresh) :=
  pull_linked nodeCrypto [did] (twoDocs delivering) .fresh witnessHead_verified (by decide) (by decide)

namespace Sample

open GraphHead.Sample

theorem witnessHead_large : witnessHead largePull.verify = .ok (some (.int (2 ^ 54), rawCid weak above)) := by
  decide +kernel

theorem seqs_large : (pull weak [did] largePull .fresh).2.checked.map Checked.seq = [.int (2 ^ 54), .int (2 ^ 54)] := by
  decide +kernel

end Sample

open Sample GraphHead.Sample in
/-- **A sequence number that does not count down**: one less than `2 ^ 54` is `2 ^ 54` again, and a document that has
the sequence number of the one that links it is added. -/
theorem not_linked : ¬ ∃ added, Linked weak [did] graph₀ (2 ^ 54) (.str (rawCid weak above)) added ∧
    Added added .fresh (pull weak [did] largePull .fresh) := by
  rintro ⟨added, hlinked, hadded⟩
  have hseqs : added.reverse.map Checked.seq = [.int (2 ^ 54), .int (2 ^ 54)] := by
    rw [← seqs_large, hadded.checked]
    exact congrArg (List.map Checked.seq) (List.append_nil _).symm
  rw [List.map_reverse, List.reverse_eq_iff] at hseqs
  rcases added with _ | ⟨c, _ | ⟨c', added⟩⟩
  · exact absurd (congrArg List.length hseqs) (by simp)
  · exact absurd (congrArg List.length hseqs) (by simp)
  · obtain ⟨-, _, -, hnext⟩ := hlinked
    obtain ⟨-, -, _, hdoc, -⟩ := hnext.resolve_left (List.cons_ne_nil _ _)
    have hseq : c'.seq = .int (2 ^ 54) := (List.cons.inj (List.cons.inj hseqs).2).1
    rw [hdoc.recorded.2] at hseq
    exact absurd (Number.int.inj hseq) (by decide)

end Custody
