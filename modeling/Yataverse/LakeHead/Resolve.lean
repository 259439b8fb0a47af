import Yataverse.GraphHead.Canonical
import Yataverse.Js.ByteLines
import Yataverse.Js.Parse
import Yataverse.Lake.Cid
import Yataverse.LakeHead.Agreement

/-!
# The lake from its log

A verified head names the manifest of the last epoch, every manifest the one before it, and each of them an
inventory. The inventories one behind the other are the lake.

- `readEpoch`, `walk`, `resolve`: `resolve!`.
- `Chain`: the inventories that a manifest leads to.
- `resolve_chain`: what is written are the inventories of the chain.
- **`resolve_reproduces_iff`**: these are their rows where every inventory ends with a newline, but for the last one.
-/

namespace LakeHead

open Js GraphHead Lake Splitting HeadAgreement

/-! ## Walking to the first epoch -/

/-- How `resolve!` fails. -/
inductive Failure where
  | unverified
  | unmeasured
  | notEpoch (manifest : Json) (epoch : Nat)
  | noPrev (manifest : Json) (epoch : Nat)
  | differs (inventory manifest : Json)
deriving DecidableEq

/-- The exit code. -/
def Failure.code : Failure → Nat
  | unverified | unmeasured => 3
  | notEpoch .. | noPrev .. | differs .. => 1

/-- An epoch that has been read. -/
structure Epoch where
  epoch : Nat
  buf : Bytes
  rows : Nat

/-- The order of `sort-by :epoch`. -/
def Epoch.le (a b : Epoch) : Prop := a.epoch ≤ b.epoch

instance : DecidableRel Epoch.le := fun a b => Nat.decLe a.epoch b.epoch

variable (nc : NodeCrypto) (cat : Json → Option Bytes)

/-- `ipfs-cat`, which throws where the node has nothing under the CID. -/
def ipfsCat (cid : Json) : Except Failure Bytes :=
  match cat cid with
  | some buf => .ok buf
  | none => .error .unmeasured

/-- `(count (filter seq (str/split text #"\n")))`. -/
def countRows (buf : Bytes) : Nat := (pieces 10 (ofUtf8 buf)).length

/-- One manifest and its inventory; the result has the CID of the manifest before. -/
def readEpoch (seq : Nat) (cid : Json) : Except Failure (Json × Epoch) := do
  let buf ← ipfsCat cat cid
  match Json.parse (ofUtf8 buf) with
  | none => .error .unmeasured
  | some m =>
    let inv := m.get (js "inventory")
    if ¬ (m.get (js "schema") = .str (js "yataverse-lake-manifest/v1") ∧ m.get (js "epoch") = .num (.int seq)) then
      .error (.notEpoch cid seq)
    else if 0 < seq ∧ m.get (js "prev") = .null then .error (.noPrev cid seq)
    else do
      let ibuf ← ipfsCat cat (inv.get (js "cid"))
      if inv.get (js "sha256") = .str (hexdigest (nc.sha256 ibuf)) ∧ inv.get (js "rows") = .num (.int (countRows ibuf)) then
        return (m.get (js "prev"), ⟨seq, ibuf, countRows ibuf⟩)
      else .error (.differs (inv.get (js "cid")) cid)

/-- `walk`. -/
def walk : Nat → Json → List Epoch → Except Failure (List Epoch)
  | 0, cid, acc => do
    let (_, epoch) ← readEpoch nc cat 0 cid
    return acc ++ [epoch]
  | seq + 1, cid, acc => do
    let (prev, epoch) ← readEpoch nc cat (seq + 1) cid
    walk seq prev (acc ++ [epoch])

/-- The file that `resolve!` writes, and what it prints. -/
structure Resolved where
  file : Bytes
  epochs : Nat
  rows : Nat
  sha256 : JsString
deriving DecidableEq

/-- `resolve!`, with the verdict on the head. -/
def resolve (head : HeadAgreement.Verdict Nat Json) : Except Failure Resolved :=
  match head with
  | .verified seq cid _ => do
    let acc ← walk nc cat seq cid []
    let ordered := acc.insertionSort Epoch.le
    let joined := (ordered.map Epoch.buf).flatten
    return ⟨joined, ordered.length, (ordered.map Epoch.rows).sum, hexdigest (nc.sha256 joined)⟩
  | _ => .error .unverified

/-! ## What the rows are -/

/-- The inventories that a manifest leads to, the first epoch first. -/
inductive Chain : Nat → Json → List Bytes → Prop where
  | first {cid m : Json} {buf ibuf : Bytes} (hbuf : cat cid = some buf) (hm : Json.parse (ofUtf8 buf) = some m)
      (hinv : cat ((m.get (js "inventory")).get (js "cid")) = some ibuf) : Chain 0 cid [ibuf]
  | next {seq : Nat} {cid m : Json} {buf ibuf : Bytes} {bufs : List Bytes} (hbuf : cat cid = some buf)
      (hm : Json.parse (ofUtf8 buf) = some m)
      (hinv : cat ((m.get (js "inventory")).get (js "cid")) = some ibuf)
      (hprev : Chain seq (m.get (js "prev")) bufs) : Chain (seq + 1) cid (bufs ++ [ibuf])

/-- The walk has as many manifests as there are epochs; the lines of the file are those of the inventories, and
their number is the one that is printed. -/
structure Reproduces (seq : Nat) (bufs : List Bytes) (r : Resolved) : Prop where
  epochs : r.epochs = seq + 1
  lines : pieces 10 (ofUtf8 r.file) = bufs.flatMap fun buf => pieces 10 (ofUtf8 buf)
  rows : (pieces 10 (ofUtf8 r.file)).length = r.rows

variable {nc cat} {seq : Nat} {cid prev : Json} {bufs bufs' : List Bytes} {acc acc' : List Epoch} {e : Epoch}
  {r : Resolved} {ws : List JsString}

/-- The epochs that are read of the inventories. -/
def epochsOf (bufs : List Bytes) : List Epoch := bufs.zipIdx.map fun (buf, i) => ⟨i, buf, countRows buf⟩

theorem Chain.length (h : Chain cat seq cid bufs) : bufs.length = seq + 1 := by
  induction h with
  | first => rfl
  | next _ _ _ _ ih => rw [List.length_append, ih, List.length_singleton]

/-- A manifest leads to one chain. -/
theorem Chain.unique (h : Chain cat seq cid bufs) (h' : Chain cat seq cid bufs') : bufs = bufs' := by
  induction h generalizing bufs' with
  | first hbuf hm hinv =>
    cases h' with
    | first hbuf' hm' hinv' =>
      obtain rfl := Option.some.inj (hbuf.symm.trans hbuf')
      obtain rfl := Option.some.inj (hm.symm.trans hm')
      obtain rfl := Option.some.inj (hinv.symm.trans hinv')
      rfl
  | next hbuf hm hinv _ ih =>
    cases h' with
    | next hbuf' hm' hinv' hprev' =>
      obtain rfl := Option.some.inj (hbuf.symm.trans hbuf')
      obtain rfl := Option.some.inj (hm.symm.trans hm')
      obtain rfl := Option.some.inj (hinv.symm.trans hinv')
      rw [ih hprev']

/-! ## What is read -/

theorem ipfsCat_eq_ok {buf : Bytes} : ipfsCat cat cid = .ok buf ↔ cat cid = some buf := by
  rw [ipfsCat]
  cases cat cid with
  | none => exact ⟨fun h => (by cases h), fun h => (by cases h)⟩
  | some b => exact ⟨fun h => congrArg some (Except.ok.inj h), fun h => congrArg Except.ok (Option.some.inj h)⟩

theorem readEpoch_spec (h : readEpoch nc cat seq cid = .ok (prev, e)) :
    ∃ buf m ibuf, cat cid = some buf ∧ Json.parse (ofUtf8 buf) = some m ∧
      cat ((m.get (js "inventory")).get (js "cid")) = some ibuf ∧ prev = m.get (js "prev") ∧
      e = ⟨seq, ibuf, countRows ibuf⟩ := by
  unfold readEpoch at h
  obtain ⟨buf, hbuf, h⟩ := Fallible.bind_eq_ok.mp h
  cases hm : Json.parse (ofUtf8 buf) with
  | none =>
    rw [hm] at h
    cases h
  | some m =>
    rw [hm] at h
    dsimp only at h
    split_ifs at h
    obtain ⟨ibuf, hinv, h⟩ := Fallible.bind_eq_ok.mp h
    split_ifs at h
    obtain ⟨rfl, rfl⟩ := Prod.mk.inj (Except.ok.inj h)
    exact ⟨buf, m, ibuf, ipfsCat_eq_ok.mp hbuf, hm, ipfsCat_eq_ok.mp hinv, rfl, rfl⟩

theorem epochsOf_concat {ibuf : Bytes} (h : bufs.length = seq) :
    epochsOf (bufs ++ [ibuf]) = epochsOf bufs ++ [⟨seq, ibuf, countRows ibuf⟩] := by
  rw [epochsOf, List.zipIdx_append, List.map_append, h, Nat.zero_add]
  rfl

/-- **The walk** reads the inventories of the chain, the last epoch first. -/
theorem walk_spec (h : walk nc cat seq cid acc = .ok acc') :
    ∃ bufs, Chain cat seq cid bufs ∧ acc' = acc ++ (epochsOf bufs).reverse := by
  induction seq generalizing cid acc with
  | zero =>
    obtain ⟨⟨prev, e⟩, he, h⟩ := Fallible.bind_eq_ok.mp h
    obtain ⟨buf, m, ibuf, hbuf, hm, hinv, -, rfl⟩ := readEpoch_spec he
    exact ⟨[ibuf], .first hbuf hm hinv, (Except.ok.inj h).symm⟩
  | succ seq ih =>
    obtain ⟨⟨prev, e⟩, he, h⟩ := Fallible.bind_eq_ok.mp h
    obtain ⟨buf, m, ibuf, hbuf, hm, hinv, rfl, rfl⟩ := readEpoch_spec he
    obtain ⟨bufs, hchain, rfl⟩ := ih h
    refine ⟨bufs ++ [ibuf], .next hbuf hm hinv hchain, ?_⟩
    rw [epochsOf_concat hchain.length, List.reverse_append, List.append_assoc]
    rfl

/-! ## The file -/

theorem mem_epochsOf (h : e ∈ epochsOf bufs) : bufs[e.epoch]? = some e.buf ∧ e.rows = countRows e.buf := by
  obtain ⟨⟨buf, i⟩, hmem, rfl⟩ := List.mem_map.mp h
  exact ⟨List.mk_mem_zipIdx_iff_getElem?.mp hmem, rfl⟩

instance : Std.Total Epoch.le := ⟨fun a b => Nat.le_total a.epoch b.epoch⟩

instance : IsTrans Epoch Epoch.le := ⟨fun _ _ _ hab hbc => Nat.le_trans hab hbc⟩

/-- Sorting by epoch brings the first one to the front. -/
theorem sort_epochs : (epochsOf bufs).reverse.insertionSort Epoch.le = epochsOf bufs := by
  have hsorted : (epochsOf bufs).Pairwise Epoch.le := by
    have hrange : (epochsOf bufs).map Epoch.epoch = List.range' 0 bufs.length := by
      rw [epochsOf, List.map_map]
      exact List.zipIdx_map_snd 0 bufs
    have hle : ((epochsOf bufs).map Epoch.epoch).Pairwise (· ≤ ·) := hrange ▸ List.pairwise_le_range'
    rw [List.pairwise_map] at hle
    exact hle
  refine List.Perm.eq_of_pairwise (fun a b ha hb hab hba => ?_) (List.pairwise_insertionSort Epoch.le _) hsorted
    ((List.perm_insertionSort _ _).trans (List.reverse_perm _))
  rw [List.mem_insertionSort, List.mem_reverse] at ha
  obtain ⟨hbuf, hrows⟩ := mem_epochsOf ha
  obtain ⟨hbuf', hrows'⟩ := mem_epochsOf hb
  have hepoch : a.epoch = b.epoch := Nat.le_antisymm hab hba
  rw [hepoch, hbuf'] at hbuf
  have hsame : b.buf = a.buf := Option.some.inj hbuf
  cases a
  cases b
  dsimp only at hepoch hsame hrows hrows'
  rw [hepoch, hrows, hrows', hsame]

theorem map_buf_epochsOf : (epochsOf bufs).map Epoch.buf = bufs := by
  rw [epochsOf, List.map_map]
  exact List.zipIdx_map_fst 0 bufs

theorem map_rows_epochsOf : (epochsOf bufs).map Epoch.rows = bufs.map countRows := by
  calc (epochsOf bufs).map Epoch.rows = (epochsOf bufs).map fun e => countRows e.buf :=
        List.map_congr_left fun e he => (mem_epochsOf he).2
    _ = ((epochsOf bufs).map Epoch.buf).map countRows := by
      rw [List.map_map]
      rfl
    _ = bufs.map countRows := by rw [map_buf_epochsOf]

/-- What `resolve!` writes are the inventories of the chain. -/
theorem resolve_chain (h : resolve nc cat (.verified seq cid ws) = .ok r) : ∃ bufs, Chain cat seq cid bufs ∧
    r = ⟨bufs.flatten, seq + 1, (bufs.map countRows).sum, hexdigest (nc.sha256 bufs.flatten)⟩ := by
  obtain ⟨acc, hacc, h⟩ := Fallible.bind_eq_ok.mp h
  obtain ⟨bufs, hchain, rfl⟩ := walk_spec hacc
  rw [List.nil_append] at h
  have hlength : (epochsOf bufs).length = seq + 1 := by
    rw [epochsOf, List.length_map, List.length_zipIdx, hchain.length]
  refine ⟨bufs, hchain, (Except.ok.inj h).symm.trans ?_⟩
  rw [sort_epochs, map_buf_epochsOf, map_rows_epochsOf, hlength]

/-- **The rows of the epochs** are in the file exactly where every inventory that has another one behind it ends with
a newline, or the other one starts with one. Empty inventories do not count. -/
theorem resolve_reproduces_iff (h : resolve nc cat (.verified seq cid ws) = .ok r) (hchain : Chain cat seq cid bufs) :
    Reproduces seq bufs r ↔ Unbroken 10 bufs := by
  obtain ⟨bufs', hchain', rfl⟩ := resolve_chain h
  obtain rfl := hchain.unique hchain'
  have hlines : (bufs.flatMap fun buf => pieces 10 (ofUtf8 buf)) = (bufs.flatMap (pieces 10)).map ofUtf8 := by
    rw [List.map_flatMap]
    exact congrArg (List.flatMap · bufs) (funext pieces_ofUtf8)
  have hcount : (bufs.map countRows).sum = (bufs.flatMap (pieces 10)).length := by
    rw [List.length_flatMap]
    refine congrArg List.sum (List.map_congr_left fun buf _ => ?_)
    rw [countRows, pieces_ofUtf8, List.length_map]
  constructor
  · rintro ⟨-, -, hrows⟩
    dsimp only at hrows
    rw [pieces_ofUtf8, List.length_map, hcount] at hrows
    exact unbroken_of_length hrows
  · rintro hunbroken
    refine ⟨rfl, ?_, ?_⟩
    · rw [hlines, pieces_ofUtf8, pieces_flatten hunbroken]
    · rw [pieces_ofUtf8, List.length_map, pieces_flatten hunbroken, hcount]

namespace Sample

def crypto : NodeCrypto := ⟨fun _ => [], fun _ _ _ => false⟩

def manifest (epoch : Nat) (prev : Json) (inventory : JsString) : Json :=
  .obj [(js "epoch", .num (.int epoch)), (js "inventory", .obj [(js "cid", .str inventory),
    (js "rows", .num (.int 1)), (js "sha256", .str [])]), (js "prev", prev),
    (js "schema", .str (js "yataverse-lake-manifest/v1"))]

def last : Json := manifest 1 (.str (js "m0")) (js "i1")

def first : Json := manifest 0 .null (js "i0")

def lastRow : Bytes := utf8 (js "b\n")

/-- Two epochs with a row each; the inventory of the first one is given. -/
def node (firstRow : Bytes) (cid : Json) : Option Bytes :=
  if cid = .str (js "m1") then some (utf8 (last.print stringify))
  else if cid = .str (js "m0") then some (utf8 (first.print stringify))
  else if cid = .str (js "i1") then some lastRow
  else if cid = .str (js "i0") then some firstRow
  else none

theorem chain (firstRow : Bytes) : Chain (node firstRow) 1 (.str (js "m1")) [firstRow, lastRow] := by
  obtain ⟨hlast, hfirst⟩ : Json.parse (ofUtf8 (utf8 (last.print stringify))) = some last ∧
      Json.parse (ofUtf8 (utf8 (first.print stringify))) = some first := by decide +kernel
  have hstart : Chain (node firstRow) 0 (.str (js "m0")) [firstRow] := .first rfl hfirst rfl
  exact .next rfl hlast rfl hstart

def head : HeadAgreement.Verdict Nat Json := .verified 1 (.str (js "m1")) []

end Sample

theorem resolve_reproduces_sample : ∃ r, resolve Sample.crypto (Sample.node (utf8 (js "a\n"))) Sample.head = .ok r ∧
    Reproduces 1 [utf8 (js "a\n"), Sample.lastRow] r := by
  have hrun : resolve Sample.crypto (Sample.node (utf8 (js "a\n"))) Sample.head =
      .ok ⟨utf8 (js "a\nb\n"), 2, 2, []⟩ := by decide +kernel
  exact ⟨_, hrun, (resolve_reproduces_iff hrun (Sample.chain _)).mpr (by unfold Unbroken; decide)⟩

/-- **The last row of an inventory without a newline** is not in the file: there are two epochs with a row each, and
one line. -/
theorem rows_joined : ∃ r, resolve Sample.crypto (Sample.node (utf8 (js "a"))) Sample.head = .ok r ∧
    Chain (Sample.node (utf8 (js "a"))) 1 (.str (js "m1")) [utf8 (js "a"), Sample.lastRow] ∧
    r.rows = 2 ∧ pieces 10 (ofUtf8 r.file) = [js "ab"] ∧ ¬ Reproduces 1 [utf8 (js "a"), Sample.lastRow] r := by
  have hrun : resolve Sample.crypto (Sample.node (utf8 (js "a"))) Sample.head =
      .ok ⟨utf8 (js "ab\n"), 2, 2, []⟩ := by decide +kernel
  have hlines : pieces 10 (ofUtf8 (utf8 (js "ab\n"))) = [js "ab"] := by decide
  refine ⟨_, hrun, Sample.chain _, rfl, hlines, fun h => ?_⟩
  have hrows := h.rows
  dsimp only at hrows
  rw [hlines] at hrows
  cases hrows

end LakeHead
