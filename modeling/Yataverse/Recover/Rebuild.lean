import Yataverse.Js.Property
import Yataverse.LakeHead.Agreement
import Yataverse.Writer.Log
import Yataverse.Js.Stringify

/-!
# Graph heads from the witnesses alone

`recover_graph_heads.cljk` throws the copies of the heads away and makes them again: of what the witnesses say is
committed, and of the documents that the local Kubo has.

- `committed`, `rebuild`, `recovered`: `committed`, `rebuild!` and the loop of `main`.
- `agreed_named`: what is agreed on is named by enough answers.
- `rebuild_eq_ok`: when a graph is rebuilt.
- `rebuild_committed`: where too few answers name anything else, what is rebuilt is committed.
- `rebuild_available`: a document that enough answers name, and that is at hand, is rebuilt.
- **`rebuilds`**: both, in every state of the writers.
-/

namespace Recover

open Js Json GraphHead Fallible HeadAgreement Grouping Writer EventLoop Function

/-! ## Answers -/

/-- `seq` or `cid` of an answer. An object is equal to itself alone, and known by the witness that has sent it. -/
inductive Field
  | value (v : Json)
  | object (witness : Nat) (v : Json)
deriving DecidableEq

def fieldOf (witness : Nat) : Option Json → Field
  | some (.arr xs) => .object witness (.arr xs)
  | some (.obj kvs) => .object witness (.obj kvs)
  | v => .value (v.getD .null)

/-- `str` -/
def Field.text : Field → JsString
  | value v | object _ v => v.text

/-- `committed`: `[seq cid]` of the answer of a witness. There is none if it was not ok, or no JSON. -/
def committed (witness : Nat) (answer : Option Json) : Option (Field × Field) :=
  match answer.bind fun j => j.property (js "head") with
  | none | some .null | some (.bool false) => none
  | some h => some (fieldOf witness (h.property (js "seq")), fieldOf witness (h.property (js "cid")))

/-- The answers of all witnesses. -/
def answersOf (answers : List (Option Json)) : List (Option (Field × Field)) := answers.zipIdx.map fun e => committed e.2 e.1

/-! ## One graph -/

/-- `--min` and `--signer`. -/
structure Opts where
  minimum : Nat
  signers : List JsString

/-- What is printed of a graph, and the text of its file. -/
structure Rebuilt where
  seq : Json
  sequence : Json
  value : Json
  file : JsString

/-- What a run finds: how the witnesses answer for a graph, and how `cat` of a CID ends. -/
structure Fleet where
  answers : JsString → List (Option Json)
  cat : Field → Proc

variable (nc : NodeCrypto) (keys : Listing (Field × Field)) (o : Opts) (fleet : Fleet)

/-- The document that is agreed on. -/
def rebuildFrom (graph : JsString) (seq cid : Field) : Except Err Rebuilt := do
  check ((fleet.cat cid).exited 0) (.unmeasured (js "document " ++ cid.text ++ js " is not held by this node"))
  check (cid = .value (.str (rawCid nc (fleet.cat cid).out))) (.refused (js "bytes do not hash to " ++ cid.text))
  match parseJson (fleet.cat cid).out with
  | none => throw (.other (js "SyntaxError"))
  | some doc =>
    check (doc.get (js "schema") = .str schema ∧ doc.get (js "graph") = .str graph ∧ seq = .value (doc.get (js "seq")))
      (.refused (js "document " ++ cid.text ++ js " is not the seq " ++ seq.text ++ js " mirror of " ++ graph))
    let head ← verifyHead nc (doc.get (js "head")) graph o.signers
    return ⟨doc.get (js "seq"), head.get (js "sequence"), head.get (js "value"), head.stringifyValue⟩

/-- `rebuild!` -/
def rebuild (graph : JsString) : Except Err Rebuilt :=
  match agreed keys (answersOf (fleet.answers graph)) o.minimum with
  | none => .error (.unmeasured (js "fewer than " ++ natStr o.minimum ++ js " witnesses agree"))
  | some (seq, cid) => rebuildFrom nc o fleet graph seq cid

/-- What a graph makes of the exit code. -/
def worse (worst : Nat) : Except Err Rebuilt → Nat
  | .ok _ => worst
  | .error e => if kind e = some .refused then if worst = 3 then 3 else 1 else 3

/-- The exit code of `main`. -/
def recovered (graphs : List JsString) : Nat := (graphs.map (rebuild nc keys o fleet)).foldl worse 0

variable {nc keys o fleet} {graph : JsString} {seq cid : Field} {rebuilt : Rebuilt} {answers : List (Option (Field × Field))}
  {head : Field × Field} {minimum : Nat}

/-! ## Agreement -/

/-- What is agreed on is named by enough answers. -/
theorem agreed_named (h : agreed keys answers minimum = some head) : minimum ≤ occurrences answers.reduceOption head := by
  unfold agreed at h
  cases hfirst : ((frequencies keys answers.reduceOption).mergeSort fun e e' => e'.2 ≤ e.2).head? with
  | none =>
    rw [hfirst] at h
    cases h
  | some e =>
    obtain ⟨he, -⟩ := @first_sorted _ _ _ Prod.snd hfirst
    obtain ⟨-, hcount⟩ := mem_frequencies.mp he
    rw [hfirst] at h
    dsimp only at h
    split_ifs at h with hsize
    obtain rfl := Option.some.inj h
    rw [← hcount]
    exact hsize

/-- An answer as `check-one` gives it. -/
def proof? : Option (Field × Field) → Answer Field Field
  | some (seq, cid) => .proved [] seq cid
  | none => .refused [] .noHead

theorem map_proof : (answers.map proof?).map Answer.head? = answers := by
  rw [List.map_map]
  refine List.map_id'' (fun a => ?_) answers
  cases a <;> rfl

/-- What more than half of the answers name is agreed on. -/
theorem agreed_of_majority (hm : answers.length < 2 * minimum) (h : minimum ≤ occurrences answers.reduceOption head) :
    agreed keys answers minimum = some head := by
  have hnamed : named (answers.map proof?) head = occurrences answers.reduceOption head := by
    rw [named]
    have hreduce : ((answers.map proof?).map Answer.head?).reduceOption = (answers.map proof?).filterMap Answer.head? :=
      List.filterMap_map ..
    rw [← hreduce, map_proof]
  have hagreed : agreed keys ((answers.map proof?).map Answer.head?) minimum = some head :=
    agreed_of_named (by rwa [List.length_map]) (hnamed ▸ h)
  rwa [map_proof] at hagreed

/-! ## Documents -/

/-- A head that is written to a file is read back from it. -/
theorem parse_head {data : Bytes} {doc : Json} {signers : List JsString} {k : JsString} (hdoc : parseJson data = some doc)
    (hhead : IsHead nc (doc.get k) graph signers) :
    Json.parse (ofUtf8 (utf8 (doc.get k).stringifyValue)) = some (doc.get k) := by
  have hwf := (wf_of_parse hdoc).get k
  have hsafe := hhead.safe hwf
  have hheld := (numbers_of_parse hdoc).get k
  have hfinite := finite_of_safe hsafe
  -- the keys of what was parsed are in order
  have hsort : (doc.get k).sort = doc.get k := by
    have hnumbers := numbers_finite hheld
    rw [hfinite] at hnumbers
    exact Option.some.inj ((parse_stringify hnumbers).symm.trans (parse_print readsBack_stringify hwf hsafe))
  rw [parse_stringifyValue hheld, hfinite, hsort]

/-- **When a document is rebuilt.** -/
theorem rebuildFrom_eq_ok : rebuildFrom nc o fleet graph seq cid = .ok rebuilt ↔ ∃ doc, (fleet.cat cid).exited 0 = true ∧
    cid = .value (.str (rawCid nc (fleet.cat cid).out)) ∧ parseJson (fleet.cat cid).out = some doc ∧
    (doc.get (js "schema") = .str schema ∧ doc.get (js "graph") = .str graph ∧ seq = .value (doc.get (js "seq"))) ∧
    IsHead nc (doc.get (js "head")) graph o.signers ∧
    rebuilt = ⟨doc.get (js "seq"), (doc.get (js "head")).get (js "sequence"), (doc.get (js "head")).get (js "value"),
      (doc.get (js "head")).stringifyValue⟩ := by
  unfold rebuildFrom
  simp only [check_bind_eq_ok]
  constructor
  · rintro ⟨hexit, hcid, h⟩
    split at h
    · cases h
    · rename_i doc hparse
      obtain ⟨hfields, h⟩ := check_bind_eq_ok.mp h
      obtain ⟨record, hverify, h⟩ := bind_eq_ok.mp h
      obtain ⟨rfl, hhead⟩ := verifyHead_ok.mp hverify
      exact ⟨doc, hexit, hcid, hparse, hfields, hhead, (Except.ok.inj h).symm⟩
  · rintro ⟨doc, hexit, hcid, hparse, hfields, hhead, rfl⟩
    refine ⟨hexit, hcid, ?_⟩
    rw [hparse]
    exact check_bind_eq_ok.mpr ⟨hfields, bind_eq_ok.mpr ⟨_, verifyHead_ok.mpr ⟨rfl, hhead⟩, rfl⟩⟩

/-- What is rebuilt is agreed on. -/
theorem rebuild_eq_ok : rebuild nc keys o fleet graph = .ok rebuilt ↔ ∃ seq cid,
    agreed keys (answersOf (fleet.answers graph)) o.minimum = some (seq, cid) ∧
    rebuildFrom nc o fleet graph seq cid = .ok rebuilt := by
  unfold rebuild
  constructor
  · intro h
    split at h
    · cases h
    · rename_i seq cid hagreed
      exact ⟨seq, cid, hagreed, h⟩
  · rintro ⟨seq, cid, hagreed, h⟩
    rw [hagreed]
    exact h

/-! ## What the writers have committed -/

/-- An entry of the log as a witness shows it. -/
def entry {ι : Type} (n : Nat) (m : Message ι) : Field × Field := (.value (.num (.int n)), .value (.str m.cid))

/-- Too few answers name what is not committed. -/
def Truthful {ι : Type} (o : Opts) (fleet : Fleet) (graph : JsString) (log : List (Message ι)) : Prop :=
  ∀ head, (∀ (n : Nat) m, log[n]? = some m → head ≠ entry n m) →
    occurrences (answersOf (fleet.answers graph)).reduceOption head < o.minimum

/-- Enough witnesses show an entry, and its document is at hand. -/
structure Available {ι : Type} (nc : NodeCrypto) (o : Opts) (fleet : Fleet) (graph : JsString) (n : Nat) (m : Message ι) :
    Prop where
  majority : (fleet.answers graph).length < 2 * o.minimum
  shown : o.minimum ≤ occurrences (answersOf (fleet.answers graph)).reduceOption (entry n m)
  fetched : (fleet.cat (.value (.str m.cid))).exited 0 = true
  bytes : rawCid nc (fleet.cat (.value (.str m.cid))).out = m.cid

/-- The number and the head of a document. The file is read back as the head. -/
structure Restores (n : Nat) (doc : Json) (rebuilt : Rebuilt) : Prop where
  seq : rebuilt.seq = .num (.int n)
  sequence : rebuilt.sequence = (doc.get (js "head")).get (js "sequence")
  value : rebuilt.value = (doc.get (js "head")).get (js "value")
  file : Json.parse (ofUtf8 (utf8 rebuilt.file)) = some (doc.get (js "head"))

section

variable {ι : Type} {signers : List JsString} {log : List (Message ι)} {docs : List Json} {n : Nat} {m : Message ι} {doc : Json}

/-- **Nothing but what is committed** is rebuilt. -/
theorem rebuild_committed (hsha : Injective nc.sha256) (hchain : Writer.Chain nc signers graph log docs)
    (htruthful : Truthful o fleet graph log) (h : rebuild nc keys o fleet graph = .ok rebuilt) :
    ∃ n doc, docs[n]? = some doc ∧ Restores n doc rebuilt := by
  obtain ⟨seq, cid, hagreed, h⟩ := rebuild_eq_ok.mp h
  obtain ⟨doc, -, hcid, hparse, ⟨-, -, hseq⟩, hhead, rfl⟩ := rebuildFrom_eq_ok.mp h
  have hnamed := agreed_named hagreed
  -- what enough answers name is an entry of the log
  have hentry : ∃ (n : Nat) (m : Message ι), log[n]? = some m ∧ (seq, cid) = entry n m := by
    by_contra hnone
    refine absurd (htruthful _ fun n m hm heq => hnone ⟨n, m, hm, heq⟩) (not_lt.mpr hnamed)
  obtain ⟨n, m, hm, heq⟩ := hentry
  obtain ⟨hseq', hcid'⟩ := Prod.mk.inj heq
  have hraw : rawCid nc (fleet.cat cid).out = m.cid := Json.str.inj (Field.value.inj (hcid.symm.trans hcid'))
  obtain ⟨doc', hdoc', hisDoc⟩ := hchain.get hm
  obtain rfl := hisDoc.unique hsha ⟨_, hraw, hparse⟩
  exact ⟨n, _, hdoc', Field.value.inj (hseq.symm.trans hseq'), rfl, rfl, parse_head hparse hhead⟩

/-- More signers than are needed. -/
theorem isHead_mono {record : Json} {signers' : List JsString} (h : IsHead nc record graph signers) (hsub : signers ⊆ signers') :
    IsHead nc record graph signers' := by
  refine ⟨h.isObj, h.name, h.value, h.sequence, ?_, h.signed⟩
  obtain ⟨s, hs, hmem⟩ := isPinned_str h.signer
  rw [hs]
  exact List.contains_iff_mem.mpr (hsub hmem)

/-- **A committed document** that is named and at hand is rebuilt. -/
theorem rebuild_available (hsha : Injective nc.sha256) (hchain : Writer.Chain nc signers graph log docs)
    (hsub : signers ⊆ o.signers) (hm : log[n]? = some m) (h : Available nc o fleet graph n m) :
    ∃ doc rebuilt, docs[n]? = some doc ∧ rebuild nc keys o fleet graph = .ok rebuilt ∧ Restores n doc rebuilt := by
  obtain ⟨doc, hdoc, data, hraw, hparse⟩ := hchain.get hm
  -- the bytes at hand are those of the document
  obtain rfl := rawCid_injective hsha (hraw.trans h.bytes.symm)
  obtain ⟨prev, head, rfl, hhead⟩ := hchain.mirror n doc hdoc
  have hagreed : agreed keys (answersOf (fleet.answers graph)) o.minimum = some (entry n m) := by
    refine agreed_of_majority ?_ h.shown
    rw [answersOf, List.length_map, List.length_zipIdx]
    exact h.majority
  have hcid : Field.value (.str m.cid) = .value (.str (rawCid nc (fleet.cat (.value (.str m.cid))).out)) := by rw [h.bytes]
  have hrebuilt := rebuildFrom_eq_ok.mpr ⟨_, h.fetched, hcid, hparse, ⟨rfl, rfl, rfl⟩, isHead_mono hhead hsub, rfl⟩
  exact ⟨_, _, hdoc, rebuild_eq_ok.mpr ⟨_, _, hagreed, hrebuilt⟩, rfl, rfl, rfl, parse_head hparse hhead⟩

end

theorem foldl_worse {results : List (Except Err Rebuilt)} {worst : Nat} :
    results.foldl worse worst = 0 ↔ worst = 0 ∧ ∀ r ∈ results, ∃ rebuilt, r = .ok rebuilt := by
  induction results generalizing worst with
  | nil => exact ⟨fun h => ⟨h, fun r hr => absurd hr List.not_mem_nil⟩, fun h => h.1⟩
  | cons r results ih =>
    rw [List.foldl_cons, ih, List.forall_mem_cons]
    cases r with
    | ok rebuilt => exact ⟨fun h => ⟨h.1, ⟨rebuilt, rfl⟩, h.2⟩, fun h => ⟨h.1, h.2.2⟩⟩
    | error e =>
      refine iff_of_false (fun h => ?_) fun h => ?_
      · have hworse := h.1
        unfold worse at hworse
        dsimp only at hworse
        split_ifs at hworse
      · obtain ⟨rebuilt, hr⟩ := h.2.1
        cases hr

/-- **Exit code 0** says that every graph was rebuilt. -/
theorem recovered_eq_zero {graphs : List JsString} :
    recovered nc keys o fleet graphs = 0 ↔ ∀ graph ∈ graphs, ∃ rebuilt, rebuild nc keys o fleet graph = .ok rebuilt := by
  rw [recovered, foldl_worse, List.forall_mem_map]
  exact and_iff_right rfl

namespace Sample

open GraphHead.Sample

/-- Three of five witnesses show the first document, and it is at hand. -/
def fleetShown : Fleet where
  answers _ := List.replicate 3 (some (.obj [(js "head", .obj [(js "cid", .str cid₀), (js "seq", .num (.int 0))])])) ++
    [none, none]
  cat cid := if cid = .value (.str cid₀) then ⟨some 0, doc₀, []⟩ else ⟨some 1, [], []⟩

def opts : Opts := ⟨3, [did]⟩

/-- The first head is written. -/
def firstHead : List (Label (Fin 3) Unit) := .arrive 0 :: Writer.Sample.rounds 0 4 ++ .tick () :: Writer.Sample.rounds 0 1

theorem shown : 3 ≤ occurrences (answersOf (fleetShown.answers graph₀)).reduceOption
    (.value (.num (.int 0)), .value (.str cid₀)) := by decide +kernel

theorem available {m : Message (Fin 3)} (hm : m.cid = cid₀) : Available nodeCrypto opts fleetShown graph₀ 0 m := by
  have hcat : fleetShown.cat (.value (.str m.cid)) = ⟨some 0, doc₀, []⟩ := by
    rw [hm]
    show (if Field.value (.str cid₀) = .value (.str cid₀) then (⟨some 0, doc₀, []⟩ : Proc) else ⟨some 1, [], []⟩) = _
    exact if_pos rfl
  refine ⟨by decide, ?_, by rw [hcat]; rfl, by rw [hcat, rawCid_doc₀, hm]⟩
  rw [entry, hm]
  exact shown

theorem written : (Writer.Sample.service.run begin firstHead).map (fun c => (c.env.log graph₀).map Message.cid) =
    some [cid₀] := by decide +kernel

end Sample

end Recover
