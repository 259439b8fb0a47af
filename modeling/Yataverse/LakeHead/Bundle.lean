import Yataverse.Js.Parse
import Mathlib.Data.List.Dedup
import Mathlib.Data.List.Perm.Subperm

/-!
# A bundle of proofs

A bundle is a file with a head and proofs of it, each with the witness that it is from. Whoever holds the pinned
keys checks it without a witness.

- `writerRefusal`: why a record is not of a writer that the policy allows.
- `verifyBundle`: `verify-bundle!`.
- `provers`: the witnesses whose proofs verify.
- **`sound_iff`**: these are as many as were asked for where no two proofs that verify name one witness, and none
  of them names a stranger.
-/

namespace ProofBundle

open Js

/-! ## The writer -/

/-- A value of the writer policy: the set of writers, with `from_seq`, which is 0 where there is none. -/
structure Allowed where
  writers : List JsString
  fromSeq : Number

/-- The writer policy, by ref, or by the start of one. -/
abbrev Policy := List (JsString × Allowed)

/-- What `writer-refusal` answers. -/
inductive WriterRefusal where
  | malformed
  | unexpectedField
  | unsigned
  | writerNotAllowed
  | badSignature
deriving DecidableEq

/-- `writer-signed-fields`. -/
def writerSignedFields : List JsString := [js "ref", js "seq", js "cid", js "prev", js "v", js "height"]

/-- `str`; `prStr` is the text of a vector or a map. -/
def textOf (prStr : Json → JsString) : Json → JsString
  | .null => []
  | .bool b => js (if b then "true" else "false")
  | .num x => numStr x
  | .str s => s
  | v => prStr v

/-- `writer-signing-text`. -/
def writerSigningText (prStr : Json → JsString) (chainId r : Json) : JsString :=
  js "inga/ref-record/v2\n" ++ js "chain=" ++ textOf prStr chainId ++ js "\n" ++
    writerSignedFields.flatMap fun f => f ++ js "=" ++ textOf prStr (r.get f) ++ js "\n"

/-- What the policy has for a ref: its own value, or that of the longest path above it. -/
def Policy.of (policy : Policy) (ref : JsString) : Option Allowed :=
  let above := (policy.map Prod.fst).filter fun k => (js "/").isSuffixOf k && k.isPrefixOf ref
  (List.lookup ref policy).or
    ((above.mergeSort fun k k' => k'.length ≤ k.length).head?.bind fun k => List.lookup k policy)

/-- `writer-refusal`; `verifies` is the check of a signature with the key that the writer's name holds. -/
def writerRefusal (prStr : Json → JsString) (verifies : JsString → JsString → JsString → Bool) (policy : Policy)
    (chainId r : Json) : Option WriterRefusal :=
  match r.get (js "ref") with
  | .str ref =>
    match policy.of ref with
    | none => none
    | some e =>
      match r.get (js "seq"), r.get (js "writer"), r.get (js "sig") with
      | .num (.int seq), w, sig =>
        if (Number.int seq).lt e.fromSeq then none
        else if ¬ ∀ k ∈ r.keys, k ∈ writerSignedFields ++ [js "writer", js "sig"] then some .unexpectedField
        else
          match w, sig with
          | .str w, .str sig =>
            if w ∉ e.writers then some .writerNotAllowed
            else if verifies w (writerSigningText prStr chainId r) sig then none
            else some .badSignature
          | _, _ => some .unsigned
      | _, _, _ => some .malformed
  | _ => some .malformed

/-! ## The bundle -/

/-- What `ledger` returns: seven witnesses, whose keys are pinned. -/
structure Ledger where
  ids : List JsString
  pubkeys : List JsString
  chainId : Json
  writerPolicy : Option Policy
  seven : ids.length = 7
  pinned : ∀ id, id ∈ ids ↔ id ∈ pubkeys

/-- What a reader comes with: its flags, and what it calls. -/
structure Reader (β κ : Type) where
  /-- `--ref=` -/
  refName : JsString
  /-- `--writer-policy=` -/
  policy : Option Policy
  /-- `edn/read-string`, where the text is a map with a block and a certificate. -/
  readProof : Json → Option (β × κ)
  /-- `commitment/verify-commitment`, with the context of a ledger. -/
  verifyCommitment : Ledger → Json → β → κ → Option JsString
  verifies : JsString → JsString → JsString → Bool
  prStr : Json → JsString

/-- What becomes of a proof. -/
inductive Checked where
  | malformed
  | ok
  | refused (reason : JsString)
deriving DecidableEq

/-- `name`. -/
def Checked.name : Checked → JsString
  | malformed => js "malformed"
  | ok => js "ok"
  | refused reason => reason

/-- How `verify-bundle!` exits, with what it prints. -/
inductive Outcome where
  | otherRef (ref chainId : Json)
  | writer (why : WriterRefusal)
  | verified (seq cid : Json) (ok : Nat) (detail : JsString)
  | tooFew (ok : Nat) (detail : JsString)
deriving DecidableEq

namespace Outcome

/-- The exit code. -/
def code : Outcome → Nat
  | verified .. => 0
  | otherRef .. | writer _ | tooFew .. => 1

/-- `VERIFIED-BUNDLE` is printed. -/
def isVerified : Outcome → Bool
  | verified .. => true
  | otherRef .. | writer _ | tooFew .. => false

end Outcome

/-- The elements of `for`: `none` where it throws. -/
def elements : Json → Option (List Json)
  | .null => some []
  | .arr xs => some xs
  | .obj kvs => some (kvs.map fun (k, v) => .arr [.str k, v])
  | .str s => some (s.map fun c => .str [c])
  | .bool _ | .num _ => none

/-- `(select-keys head ["ref" "seq" "cid"])`. -/
def record : Json → Json
  | .obj kvs => .obj (kvs.filter fun e => [js "ref", js "seq", js "cid"].contains e.1)
  | _ => .obj []

variable {β κ : Type} (r : Reader β κ) (l : Ledger)

/-- `policy-of`. -/
def policyOf : Option Policy := r.policy.or l.writerPolicy

/-- One of the `results`. -/
def result (head p : Json) : Json × Checked :=
  (p.get (js "witness"),
    match r.readProof (p.get (js "proof")) with
    | none => .malformed
    | some (block, qc) =>
      match r.verifyCommitment l (record head) block qc with
      | some reason => .refused reason
      | none => .ok)

/-- `results`. -/
def results (b : Json) : Option (List (Json × Checked)) :=
  (elements (b.get (js "proofs"))).map fun ps => ps.map (result r l (b.get (js "head")))

/-- The bundle is for the ref and the chain. -/
def isFor (b : Json) : Bool :=
  .str r.refName = (b.get (js "head")).get (js "ref") ∧ l.chainId = b.get (js "chain-id")

/-- The policy's answer to the head. -/
def headRefusal (b : Json) : Option WriterRefusal :=
  (policyOf r l).bind fun policy => writerRefusal r.prStr r.verifies policy l.chainId (b.get (js "head"))

/-- `verify-bundle!`: `none` where it throws. -/
def verifyBundle (minAgree : Int) (b : Json) : Option Outcome := do
  let results ← results r l b
  let head := b.get (js "head")
  let ok := results.countP fun e => e.2 = .ok
  let detail := (js ",").intercalate (results.map fun e => textOf r.prStr e.1 ++ js "=" ++ e.2.name)
  if isFor r l b then
    match headRefusal r l b with
    | some why => return .writer why
    | none =>
      if minAgree ≤ ok then return .verified (head.get (js "seq")) (head.get (js "cid")) ok detail
      else return .tooFew ok detail
  else return .otherRef (head.get (js "ref")) (b.get (js "chain-id"))

/-! ## Whose proofs verify -/

/-- The witnesses that the proofs which verify are said to be from. -/
def named (b : Json) : List Json := (((results r l b).getD []).filter fun e => e.2 = .ok).map Prod.fst

/-- The witnesses of the ledger among them. -/
def provers (b : Json) : List JsString := l.ids.dedup.filter fun id => .str id ∈ named r l b

/-- A bundle that verifies has the proofs of as many witnesses as were asked for. -/
def Sound (b : Json) : Prop :=
  ∀ minAgree outcome, verifyBundle r l minAgree b = some outcome → outcome.isVerified → minAgree ≤ (provers r l b).length

/-- The bundle is refused whatever its proofs are. -/
def Refused (b : Json) : Prop := isFor r l b = false ∨ headRefusal r l b ≠ none

/-- Proofs that verify name witnesses of the ledger, each another one. -/
structure OnePerWitness (b : Json) : Prop where
  distinct : (named r l b).Nodup
  known : ∀ w ∈ named r l b, ∃ id ∈ l.ids, w = .str id

variable {r l} {b : Json}

theorem mem_provers {id : JsString} : id ∈ provers r l b ↔ id ∈ l.ids ∧ .str id ∈ named r l b := by
  rw [provers, List.mem_filter, List.mem_dedup, decide_eq_true_eq]

theorem provers_nodup : ((provers r l b).map Json.str).Nodup :=
  ((List.nodup_dedup _).filter _).map fun _ _ h => Json.str.inj h

theorem provers_subset : (provers r l b).map Json.str ⊆ named r l b := by
  intro w hw
  obtain ⟨id, hid, rfl⟩ := List.mem_map.mp hw
  exact (mem_provers.mp hid).2

/-- Proofs are counted by their number. -/
theorem verified_iff (hfor : isFor r l b = true) (hw : headRefusal r l b = none) {minAgree : Int} :
    (∃ outcome, verifyBundle r l minAgree b = some outcome ∧ outcome.isVerified) ↔
      results r l b ≠ none ∧ minAgree ≤ (named r l b).length := by
  unfold verifyBundle named
  cases results r l b with
  | none =>
    refine ⟨?_, fun h => absurd rfl h.1⟩
    rintro ⟨_, h, _⟩
    cases h
  | some rs =>
    rw [Option.bind_eq_bind, Option.bind_some, if_pos hfor, hw, Option.getD_some, List.length_map,
      ← List.countP_eq_length_filter]
    dsimp only
    split_ifs with hm
    · exact ⟨fun _ => ⟨Option.some_ne_none _, hm⟩, fun _ => ⟨_, rfl, rfl⟩⟩
    · refine ⟨?_, fun h => absurd h.2 hm⟩
      rintro ⟨outcome, ho, hv⟩
      obtain rfl := Option.some.inj ho
      cases hv

/-- The witnesses are as many as the proofs just where every proof has its own. -/
theorem length_le_iff : (named r l b).length ≤ (provers r l b).length ↔ OnePerWitness r l b := by
  have hsub : ((provers r l b).map Json.str).Subperm (named r l b) := provers_nodup.subperm provers_subset
  constructor
  · intro hlen
    have hperm : ((provers r l b).map Json.str).Perm (named r l b) := by
      refine hsub.perm_of_length_le ?_
      rw [List.length_map]
      exact hlen
    refine ⟨hperm.nodup_iff.mp provers_nodup, fun w hw => ?_⟩
    obtain ⟨id, hid, rfl⟩ := List.mem_map.mp (hperm.mem_iff.mpr hw)
    exact ⟨id, (mem_provers.mp hid).1, rfl⟩
  · intro h
    have hsub' : named r l b ⊆ (provers r l b).map Json.str := by
      intro w hw
      obtain ⟨id, hid, rfl⟩ := h.known w hw
      exact List.mem_map_of_mem (mem_provers.mpr ⟨hid, hw⟩)
    have hlen := (h.distinct.subperm hsub').length_le
    rw [List.length_map] at hlen
    exact hlen

/-- A bundle that is refused says nothing of its proofs. -/
theorem Refused.not_verified (h : Refused r l b) {minAgree : Int} {outcome : Outcome}
    (ho : verifyBundle r l minAgree b = some outcome) : outcome.isVerified = false := by
  unfold verifyBundle at ho
  cases hr : results r l b with
  | none =>
    rw [hr] at ho
    cases ho
  | some rs =>
    rw [hr, Option.bind_eq_bind, Option.bind_some] at ho
    rcases h with hfor | hw
    · rw [if_neg (Bool.eq_false_iff.mp hfor)] at ho
      obtain rfl := Option.some.inj ho
      rfl
    · obtain ⟨why, hwhy⟩ := Option.ne_none_iff_exists'.mp hw
      split at ho
      · rw [hwhy] at ho
        obtain rfl := Option.some.inj ho
        rfl
      · obtain rfl := Option.some.inj ho
        rfl

/-- A bundle that verifies has enough witnesses if it is refused anyway, or if the proofs that verify name pairwise
different witnesses of the ledger; else it is verified for more witnesses than have proved its head. -/
theorem sound_iff (r : Reader β κ) (l : Ledger) (b : Json) : Sound r l b ↔ Refused r l b ∨ OnePerWitness r l b := by
  constructor
  · intro hsound
    by_cases href : Refused r l b
    · exact .inl href
    · obtain ⟨hfor, hw⟩ := not_or.mp href
      rw [Bool.not_eq_false] at hfor
      rw [ne_eq, not_not] at hw
      refine .inr (length_le_iff.mp ?_)
      by_cases hr : results r l b = none
      · rw [named, hr]
        exact Nat.zero_le _
      · obtain ⟨outcome, ho, hv⟩ := (verified_iff hfor hw).mpr ⟨hr, le_rfl⟩
        exact Int.ofNat_le.mp (hsound _ outcome ho hv)
  · intro h minAgree outcome ho hv
    by_cases href : Refused r l b
    · rw [href.not_verified ho] at hv
      cases hv
    · have hone := h.resolve_left href
      obtain ⟨hfor, hw⟩ := not_or.mp href
      rw [Bool.not_eq_false] at hfor
      rw [ne_eq, not_not] at hw
      have hm := ((verified_iff hfor hw).mp ⟨outcome, ho, hv⟩).2
      exact hm.trans (Int.ofNat_le.mpr (length_le_iff.mpr hone))

namespace Sample

def ids : List JsString := [js "w1", js "w2", js "w3", js "w4", js "w5", js "w6", js "w7"]

def ledger : Ledger := ⟨ids, ids, .str (js "c"), none, rfl, fun _ => Iff.rfl⟩

/-- Every proof verifies. -/
def reader : Reader Unit Unit :=
  ⟨js "yataverse/lake", none, fun _ => some ((), ()), fun _ _ _ _ => none, fun _ _ _ => false, fun _ => []⟩

def proof : Json := .obj [(js "proof", .str (js "p")), (js "witness", .str (js "w1"))]

/-- One proof, twice. -/
def bundle : Json :=
  .obj [(js "chain-id", .str (js "c")),
    (js "head", .obj [(js "cid", .str (js "b")), (js "ref", .str (js "yataverse/lake")), (js "seq", .num (.int 0))]),
    (js "proofs", .arr [proof, proof])]

end Sample

/-- The proof of one witness counts as those of two. -/
theorem counted_twice : (∃ outcome, verifyBundle Sample.reader Sample.ledger 2 Sample.bundle = some outcome ∧
    outcome.isVerified) ∧ provers Sample.reader Sample.ledger Sample.bundle = [js "w1"] :=
  ⟨⟨_, rfl, rfl⟩, by decide +kernel⟩

end ProofBundle
