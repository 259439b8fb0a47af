import Yataverse.GraphHead.Identity
import Mathlib.Data.List.Sort

/-!
# Head records and the namespace signature

The second half of `graph_head.cljk`: a head record is accepted when it names the
graph, carries a CID and a sequence, and is signed by a pinned namespace signer. The
signature is over the dag-cbor of the record without its signature fields.

- `cbor`, `dagCbor`: canonical dag-cbor, which refuses what it cannot write.
- `verifyHead`: the record, or a refusal.
- **`safe_of_verifyHead`**: a verified head holds no number but integers below `2 ^ 32`.
  dag-cbor refuses every other one.
- `verifyHead_ok`: what acceptance says about the record.
-/

namespace GraphHead

open Js Fallible

/-! ## dag-cbor -/

/-- `cbor-head`. -/
def cborHead (major n : Nat) : Except Err Bytes :=
  if n < 24 then .ok [byte (major * 32 + n)]
  else if n < 0x100 then .ok [byte (major * 32 + 24), byte n]
  else if n < 0x10000 then .ok [byte (major * 32 + 25), byte (n / 256), byte (n % 256)]
  else if n < 0x100000000 then
    .ok (byte (major * 32 + 26) :: [3, 2, 1, 0].map fun i => byte (n / 2 ^ (8 * i) % 256))
  else .error (.refused (js "integer too large"))

/-- The cbor of a string. -/
def cborStr (s : JsString) : Except Err Bytes := do
  return (← cborHead 3 (utf8 s).length) ++ utf8 s

/-- The order of map keys: by byte length, then as strings. -/
def cborKeyLe (a b : JsString) : Prop :=
  (utf8 a).length < (utf8 b).length ∨ (utf8 a).length = (utf8 b).length ∧ a ≤ b

instance (a b : JsString) : Decidable (cborKeyLe a b) :=
  inferInstanceAs (Decidable (_ ∨ _))

mutual

/-- `cbor`. -/
def cbor : Json → Except Err Bytes
  | .null => .ok [0xf6]
  | .bool b => .ok [if b then 0xf5 else 0xf4]
  | .num (.int n) => if 0 ≤ n then cborHead 0 n.toNat else cborHead 1 (-1 - n).toNat
  | .num x => .error (.refused (js "head record holds an unsupported value: " ++ prStr (.num x)))
  | .str s => cborStr s
  | .obj kvs => do
    let hd ← cborHead 5 kvs.length
    -- each value is encoded in the order of the sorted keys; the first refusal wins
    let parts ← ((cborEntries kvs).insertionSort fun a b => cborKeyLe a.1 b.1).mapM fun e => do
      return (← cborStr e.1) ++ (← e.2)
    return hd ++ parts.flatten
  | .arr xs => do
    let hd ← cborHead 4 xs.length
    return hd ++ (← cborList xs)

def cborList : List Json → Except Err Bytes
  | [] => .ok []
  | x :: xs => do return (← cbor x) ++ (← cborList xs)

def cborEntries : List (JsString × Json) → List (JsString × Except Err Bytes)
  | [] => []
  | e :: kvs => (e.1, cbor e.2) :: cborEntries kvs

end

/-- `dag-cbor`. -/
def dagCbor (v : Json) : Except Err Bytes := cbor v

/-! ## Signatures -/

/-- `ed25519-pub-of-did`. -/
def ed25519PubOfDid (did : JsString) : Except Err Bytes :=
  if ¬ (js "did:key:z").isPrefixOf did then
    .error (.refused (js "public_key_multibase is not a did:key"))
  else
    match b58Decode (did.drop 9) with
    | some raw =>
      if raw.length = 34 ∧ raw[0]? = some 0xed ∧ raw[1]? = some 0x01 then .ok (raw.drop 2)
      else .error (.refused (js "did:key is not Ed25519"))
    | none => .error (.refused (js "did:key is not Ed25519"))

/-- `(contains? (set signers) signer)`. -/
def isPinned (signers : List JsString) (signer : Json) : Bool :=
  match signer with
  | .str s => signers.contains s
  | _ => false

/-- The base58 text of a multibase string that starts with `z`. -/
def multibase58 (sig : Json) : Option JsString :=
  match sig with
  | .str (u :: s) => if u = unit 'z' then some s else none
  | _ => none

/-- `(get record "sequence")`, when it is a natural number. -/
def sequence? (record : Json) : Option Nat :=
  match record.get (js "sequence") with
  | .num (.int n) => if 0 ≤ n then some n.toNat else none
  | _ => none

/-- The value of a head, when it is a CID. -/
def value? (record : Json) : Option JsString :=
  match record.get (js "value") with
  | .str s => if graphRe s then some s else none
  | _ => none

/-- What the namespace key signs. -/
def payload (record : Json) : Json :=
  record.dissoc [js "public_key_multibase", js "signature_multibase"]

/-- `verify-head`: the record, when it is a well-formed head for `graph` signed by one
of `signers`. -/
def verifyHead (nc : NodeCrypto) (record : Json) (graph : JsString) (signers : List JsString) :
    Except Err Json := do
  check record.isObj (.refused (js "head is not a JSON object"))
  check (record.get (js "name") = .str graph)
    (.refused (js "head names " ++ prStr (record.get (js "name")) ++ js ", not " ++ graph))
  check (value? record).isSome (.refused (js "head value is not a CID"))
  check (sequence? record).isSome (.refused (js "head sequence is not a natural number"))
  let signer := record.get (js "public_key_multibase")
  check (isPinned signers signer) (.refused (js "head signer " ++ strOf signer ++ js " is not pinned"))
  match multibase58 (record.get (js "signature_multibase")) with
  | none => throw (.refused (js "signature_multibase is not base58btc"))
  | some sig =>
    match b58Decode sig with
    | none => throw (.refused (js "head signature does not verify"))
    | some sigBytes =>
      let msg ← dagCbor (payload record)
      let pub ← ed25519PubOfDid (strOf signer)
      check (nc.verify pub msg sigBytes) (.refused (js "head signature does not verify"))
      return record

/-! ## What acceptance says -/

theorem cborHead_lt {major n : Nat} {b : Bytes} (h : cborHead major n = .ok b) :
    n < 0x100000000 := by
  unfold cborHead at h
  split_ifs at h <;> omega

mutual

/-- dag-cbor writes no number but integers below `2 ^ 32`. -/
theorem safe_of_cbor : ∀ {v : Json} {b : Bytes}, cbor v = .ok b → v.Safe
  | .null, _, _ => trivial
  | .bool _, _, _ => trivial
  | .num (.frac _), _, h => nomatch h
  | .num (.inf _), _, h => nomatch h
  | .num (.int n), b, h => by
    refine ⟨n, rfl, ?_⟩
    rw [cbor] at h
    split at h <;> have := cborHead_lt h <;> omega
  | .str _, _, _ => trivial
  | .arr xs, b, h => by
    obtain ⟨hd, -, h⟩ := bind_eq_ok.mp h
    obtain ⟨c, hc, -⟩ := bind_eq_ok.mp h
    exact safe_of_cborList hc
  | .obj kvs, b, h => by
    obtain ⟨hd, -, h⟩ := bind_eq_ok.mp h
    obtain ⟨parts, hp, -⟩ := bind_eq_ok.mp h
    refine safe_of_cborEntries fun e he => ?_
    obtain ⟨c, hc⟩ := mapM_ok hp e (List.mem_insertionSort _ |>.mpr he)
    obtain ⟨k, -, hc⟩ := bind_eq_ok.mp hc
    obtain ⟨d, hd, -⟩ := bind_eq_ok.mp hc
    exact ⟨d, hd⟩

theorem safe_of_cborList : ∀ {xs : List Json} {b : Bytes}, cborList xs = .ok b → Json.SafeList xs
  | [], _, _ => trivial
  | x :: xs, b, h => by
    obtain ⟨c, hc, h⟩ := bind_eq_ok.mp h
    obtain ⟨d, hd, -⟩ := bind_eq_ok.mp h
    exact ⟨safe_of_cbor hc, safe_of_cborList hd⟩

theorem safe_of_cborEntries : ∀ {kvs : List (JsString × Json)},
    (∀ e ∈ cborEntries kvs, ∃ c, e.2 = .ok c) → Json.SafeEntries kvs
  | [], _ => trivial
  | e :: kvs, h => by
    obtain ⟨c, hc⟩ := h _ (List.mem_cons_self ..)
    exact ⟨safe_of_cbor hc, safe_of_cborEntries fun e' he' => h e' (List.mem_cons_of_mem _ he')⟩

end

/-- What acceptance says about a record: its fields, that dag-cbor could write it, and
that the signature over it verifies under a pinned key. -/
structure IsHead (nc : NodeCrypto) (record : Json) (graph : JsString) (signers : List JsString) :
    Prop where
  isObj : record.isObj = true
  name : record.get (js "name") = .str graph
  value : ∃ s, value? record = some s
  sequence : ∃ n, sequence? record = some n
  signer : isPinned signers (record.get (js "public_key_multibase")) = true
  signed : ∃ sig sigBytes msg pub, multibase58 (record.get (js "signature_multibase")) = some sig ∧
    b58Decode sig = some sigBytes ∧ dagCbor (payload record) = .ok msg ∧
    ed25519PubOfDid (strOf (record.get (js "public_key_multibase"))) = .ok pub ∧
    nc.verify pub msg sigBytes = true

section Accepted

variable {nc : NodeCrypto} {record record' : Json} {graph : JsString} {signers : List JsString}

/-- `verifyHead` returns its record, checked. -/
theorem verifyHead_ok : verifyHead nc record graph signers = .ok record' ↔
    record' = record ∧ IsHead nc record graph signers := by
  unfold verifyHead
  simp only [check_bind_eq_ok]
  constructor
  · rintro ⟨h₁, h₂, h₃, h₄, h₅, h⟩
    split at h
    case h_1 => cases h
    case h_2 sig hsig =>
    split at h
    case h_1 => cases h
    case h_2 sigBytes hbytes =>
    obtain ⟨msg, hmsg, h⟩ := bind_eq_ok.mp h
    obtain ⟨pub, hpub, h⟩ := bind_eq_ok.mp h
    obtain ⟨hv, h⟩ := check_bind_eq_ok.mp h
    exact ⟨(Except.ok.inj h).symm, h₁, h₂, Option.isSome_iff_exists.mp h₃,
      Option.isSome_iff_exists.mp h₄, h₅, sig, sigBytes, msg, pub, hsig, hbytes, hmsg, hpub, hv⟩
  · rintro ⟨rfl, h₁, h₂, h₃, h₄, h₅, sig, sigBytes, msg, pub, hsig, hbytes, hmsg, hpub, hv⟩
    refine ⟨h₁, h₂, Option.isSome_iff_exists.mpr h₃, Option.isSome_iff_exists.mpr h₄, h₅, ?_⟩
    simp only [hsig, hbytes]
    rw [hmsg]
    refine bind_eq_ok.mpr ⟨msg, rfl, ?_⟩
    rw [hpub]
    refine bind_eq_ok.mpr ⟨pub, rfl, ?_⟩
    exact check_bind_eq_ok.mpr ⟨hv, rfl⟩

/-- A pinned signer is a string. -/
theorem isPinned_str {v : Json} (h : isPinned signers v = true) :
    ∃ s, v = .str s ∧ s ∈ signers := by
  cases v <;> simp_all [isPinned]

/-- **A verified head holds only safe integers.** -/
theorem IsHead.safe (h : IsHead nc record graph signers) (hw : record.WF) : record.Safe := by
  obtain ⟨kvs, rfl⟩ : ∃ kvs, record = .obj kvs := by
    have := h.isObj
    cases record <;> simp_all [Json.isObj]
  obtain ⟨sig, -, msg, -, hsig, -, hmsg, -, -⟩ := h.signed
  have hp := Json.safeEntries_iff.mp (safe_of_cbor hmsg)
  refine Json.safeEntries_iff.mpr fun e he => ?_
  have hget : (Json.obj kvs).get e.1 = e.2 := Json.lookup_of_mem hw.1 he
  by_cases h₁ : e.1 = js "public_key_multibase"
  · obtain ⟨s, hs, -⟩ := isPinned_str h.signer
    rw [← hget, h₁, hs]
    trivial
  · by_cases h₂ : e.1 = js "signature_multibase"
    · rw [← hget, h₂]
      revert hsig
      cases (Json.obj kvs).get (js "signature_multibase") <;> simp [multibase58, Json.Safe]
    · exact hp e (by simp [he, h₁, h₂])

end Accepted

theorem cborEntries_of_mem {kvs : List (JsString × Json)} {e : JsString × Json} (he : e ∈ kvs) :
    (e.1, cbor e.2) ∈ cborEntries kvs := by
  induction kvs with
  | nil => cases he
  | cons f kvs ih =>
    rcases List.mem_cons.mp he with rfl | he
    · exact List.mem_cons_self ..
    · exact List.mem_cons_of_mem _ (ih he)

theorem sequence?_eq_some {record : Json} {n : Nat} :
    sequence? record = some n ↔ record.get (js "sequence") = .num (.int n) := by
  unfold sequence?
  split
  · rename_i k hk
    rw [hk]
    split
    · simp only [Option.some.injEq, Json.num.injEq, Number.int.injEq]
      omega
    · simp only [reduceCtorEq, Json.num.injEq, Number.int.injEq, false_iff]
      omega
  · rename_i h
    simp only [reduceCtorEq, false_iff]
    exact h n

/-- dag-cbor writes no sequence number from `2 ^ 32` on. -/
theorem IsHead.sequence_lt {nc : NodeCrypto} {record : Json} {graph : JsString}
    {signers : List JsString} (h : IsHead nc record graph signers) {n : Nat}
    (hn : sequence? record = some n) : n < 2 ^ 32 := by
  obtain ⟨kvs, rfl⟩ : ∃ kvs, record = .obj kvs := by
    have := h.isObj
    cases record <;> simp_all [Json.isObj]
  obtain ⟨-, -, msg, -, -, -, hmsg, -, -⟩ := h.signed
  have hget : Json.lookup (js "sequence") kvs = .num (.int n) := sequence?_eq_some.mp hn
  have hmem := Json.mem_of_lookup (show Json.lookup (js "sequence") kvs ≠ .null by simp [hget])
  rw [hget] at hmem
  obtain ⟨hd, -, hmsg⟩ := bind_eq_ok.mp hmsg
  obtain ⟨parts, hp, -⟩ := bind_eq_ok.mp hmsg
  obtain ⟨c, hc⟩ := mapM_ok hp _ (List.mem_insertionSort _ |>.mpr (cborEntries_of_mem
    (List.mem_filter.mpr ⟨hmem, rfl⟩)))
  obtain ⟨k, -, hc⟩ := bind_eq_ok.mp hc
  obtain ⟨d, hd, -⟩ := bind_eq_ok.mp hc
  rw [cbor, if_pos (Int.natCast_nonneg n)] at hd
  have := cborHead_lt hd
  simpa using this

/-! ## A signed sample

Two heads of one graph, signed with a test key, and the documents that carry them. The
hash is SHA-256 on the two documents and has no collisions elsewhere; the signatures
that verify are the two. -/

namespace Sample

def graph₀ : JsString := js "baf" ++ List.replicate 50 (unit 'a')

def did : JsString := js "did:key:z6MkvDqGT54cXesYGvABpF1UapVNwjCqRcafi4Px6Thv5T3Z"

def head (sequence : Int) (value : Char) (signature : JsString) : Json :=
  .obj [(js "name", .str graph₀), (js "public_key_multibase", .str did),
    (js "sequence", .num (.int sequence)), (js "signature_multibase", .str signature),
    (js "value", .str (js "baf" ++ List.replicate 50 (unit value)))]

def head₀ : Json := head 1 'b'
  (js "z211VkscDcv5gSchRDmaa4hC2EoprajKoGBDfEKaJQEicF67XYtBrkNS3z76GF7dX4RzFtshjcdLPJ7ZbxNcHLYh1")

def head₁ : Json := head 2 'c'
  (js "z4t3e9HYmXe1vo5EJBK2KxywLNevruNFK34CJhZuiKi2dRzEbn6DFXKZvKbxx9am569FHc9SSZmKSsBJrwNht8qMu")

def cid₀ : JsString := js "bafkreifsmd2bjq25ao444glvtqohnill27e4apgrbeodqqphc4cwzerqd4"

def cid₁ : JsString := js "bafkreiftklbspptuy34fnfkjptx6ruy7izv47hgj5novks7cewtoq2opca"

def doc₀ : Bytes := (mirrorDoc graph₀ (.int 0) .null head₀).toOption.getD []

def doc₁ : Bytes := (mirrorDoc graph₀ (.int 1) (.str cid₀) head₁).toOption.getD []

def digest₀ : Bytes :=
  [0xb2, 0x60, 0xf4, 0x14, 0xc3, 0x5d, 0x03, 0xb9, 0xce, 0x19, 0x75, 0x9c, 0x1c, 0x76, 0xa1, 0x6b,
    0xd7, 0xc9, 0xc0, 0x3c, 0xd1, 0x09, 0x1c, 0x38, 0x41, 0xe7, 0x17, 0x05, 0x6c, 0x92, 0x30, 0x1f]

def digest₁ : Bytes :=
  [0xb3, 0x52, 0xc3, 0x27, 0xbe, 0x74, 0xc6, 0xf8, 0x56, 0x95, 0x49, 0x7c, 0xef, 0xe8, 0xd3, 0x1f,
    0x46, 0x6b, 0xcf, 0x9c, 0xc9, 0xeb, 0x5d, 0x55, 0x4b, 0xe2, 0x25, 0xa6, 0xe8, 0x69, 0xcf, 0x10]

def nodeCrypto : NodeCrypto where
  sha256 buf := if buf = doc₀ then digest₀ else if buf = doc₁ then digest₁ else 0 :: buf
  verify pub msg sig := [head₀, head₁].any fun h =>
    pub = (ed25519PubOfDid did).toOption.getD [] &&
    msg = (dagCbor (payload h)).toOption.getD [] &&
    sig = ((multibase58 (h.get (js "signature_multibase"))).bind b58Decode).getD []

theorem sha256_injective : Function.Injective nodeCrypto.sha256 := by
  intro a b h
  simp only [nodeCrypto] at h
  split_ifs at h with ha hb hb hb hb <;> simp_all [digest₀, digest₁]

/-- The CIDs and the contents of the documents. -/
theorem docs : (rawCid nodeCrypto doc₀ = cid₀ ∧ parseJson doc₀ = some (mirrorValue graph₀ (.int 0) .null head₀)) ∧
    rawCid nodeCrypto doc₁ = cid₁ ∧ parseJson doc₁ = some (mirrorValue graph₀ (.int 1) (.str cid₀) head₁) := by
  decide +kernel

theorem rawCid_doc₀ : rawCid nodeCrypto doc₀ = cid₀ := docs.1.1

theorem rawCid_doc₁ : rawCid nodeCrypto doc₁ = cid₁ := docs.2.1

theorem parseJson_doc₀ : parseJson doc₀ = some (mirrorValue graph₀ (.int 0) .null head₀) := docs.1.2

theorem parseJson_doc₁ : parseJson doc₁ = some (mirrorValue graph₀ (.int 1) (.str cid₀) head₁) := docs.2.2

end Sample

end GraphHead
