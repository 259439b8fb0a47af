import Yataverse.BlockIngest.Address
import Yataverse.BlockIngest.Requests
import Yataverse.Js.Held
import Yataverse.Splitting.Joined

/-!
# One signature, one operation

The routes of blocks and of heads sign the same four lines. A head stands where a block has its CID: as `head`, its
name, its sequence number and its CID, between slashes.

- `SignedOp`, `signedOp`: the operation that a request is for, once its route and its syntax are checked.
- `go_of_signedOp`: it is refused unless `authorize` accepts it.
- `signedMessage_inj`: the message has four lines.
- `slot_inj`: a slot is that of one operation.
- **`authorize_one_operation`**: a signature that verifies for one message authorizes one operation.
-/

namespace BlockIngest

open Js GraphHead EventLoop Splitting

/-! ## Signed operations -/

/-- What a signed request is for. -/
inductive SignedOp where
  /-- PUT or DELETE of `/v1/blocks/cid`. -/
  | block (method cid : JsString)
  /-- PUT of `/v1/heads/name`. -/
  | head (name : JsString) (seq : Int) (cid : JsString)
deriving DecidableEq

namespace SignedOp

/-- The method in the message. -/
def method : SignedOp → JsString
  | block method _ => method
  | head _ _ _ => js "PUT"

/-- What stands in the message for the CID. -/
def slot : SignedOp → JsString
  | block _ cid => cid
  | head name seq cid => headMessageSlot name seq cid

end SignedOp

/-- The operation of a request on a signed route that passes the checks before `authorize`. -/
def signedOp (req : Request) : Option SignedOp :=
  match holdsRoute req.path, headRoute req.path, headsRoute req.path with
  | none, none, some name =>
    if req.method = js "PUT" ∧ headNameRe name = true then
      (headBody req.body).map fun (cid, seq) => .head name seq cid
    else none
  | none, none, none =>
    match blockRoute req.path with
    | some cid =>
      if (parseCid cid).isSome ∧ (req.method = js "PUT" ∨ req.method = js "DELETE") then some (.block req.method cid)
      else none
    | none => none
  | _, _, _ => none

/-- A signature that verifies does so for one message. -/
def OneMessage (nc : NodeCrypto) : Prop :=
  ∀ pub msg msg' sig, nc.verify pub msg sig = true → nc.verify pub msg' sig = true → msg = msg'

/-! ## What a signed operation is -/

/-- What the checks say of an operation. -/
inductive SignedOp.Checked : SignedOp → Prop where
  | block {method cid : JsString} (hmethod : method = js "PUT" ∨ method = js "DELETE")
      (hcid : rawCidRe cid = true) : Checked (.block method cid)
  | head {name : JsString} {seq : Int} {cid : JsString} (hname : headNameRe name = true)
      (hseq : (Number.int seq).Held) (hcid : rawCidRe cid = true) : Checked (.head name seq cid)

variable {nc : NodeCrypto} {opts : Opts} {req : Request} {op op' : SignedOp} {now : Int}

theorem rawCidRe_of_parseCid {cid : JsString} (h : (parseCid cid).isSome = true) : rawCidRe cid = true := by
  unfold parseCid at h
  split at h
  · assumption
  · cases h

/-- A CID, and a number that a double holds. -/
theorem headBody_eq_some {body : Option Bytes} {cid : JsString} {seq : Int} (h : headBody body = some (cid, seq)) :
    rawCidRe cid = true ∧ (Number.int seq).Held := by
  unfold headBody at h
  dsimp only at h
  split at h
  · rename_i cid' seq' hcid hseq
    split at h
    · rename_i hchecks
      obtain ⟨rfl, rfl⟩ := Prod.mk.inj (Option.some.inj h)
      refine ⟨rawCidRe_of_parseCid (Bool.and_eq_true_iff.mp hchecks).1, ?_⟩
      cases hparsed : parseJson (body.getD []) with
      | none =>
        rw [hparsed] at hseq
        cases hseq
      | some v =>
        rw [hparsed, Option.getD_some] at hseq
        have hheld := (Json.numbers_of_parse hparsed).get (js "seq")
        rw [hseq] at hheld
        exact hheld
    · cases h
  · cases h

theorem checked_of_signedOp (h : signedOp req = some op) : op.Checked := by
  unfold signedOp at h
  split at h
  · split_ifs at h with hput
    obtain ⟨⟨cid, seq⟩, hbody, rfl⟩ := Option.map_eq_some_iff.mp h
    obtain ⟨hcid, hseq⟩ := headBody_eq_some hbody
    exact .head hput.2 hseq hcid
  · split at h
    · split_ifs at h with hblock
      obtain rfl := Option.some.inj h
      exact .block hblock.2 (rawCidRe_of_parseCid hblock.1)
    · cases h
  · cases h

/-- **An operation is only done when `authorize` accepts it.** -/
theorem go_of_signedOp {status : Nat} {reason : JsString} (h : signedOp req = some op)
    (hauth : authorize nc opts op.method op.slot req.headers now = some (status, reason)) :
    go nc opts now req = .ret (refused status reason) := by
  unfold signedOp at h
  split at h
  case h_1 name h₁ h₂ h₃ =>
    split_ifs at h with hput
    obtain ⟨⟨cid, seq⟩, hbody, rfl⟩ := Option.map_eq_some_iff.mp h
    have hget : ¬ (req.method = js "GET" ∧ signerSuffixRe name = true) := by
      rintro ⟨hget, -⟩
      exact absurd (hput.1.symm.trans hget) (by decide)
    change authorize nc opts (js "PUT") (headMessageSlot name seq cid) req.headers now = _ at hauth
    unfold go handleHeads
    simp only [h₁, h₂, h₃, if_neg hget, if_pos hput.1, hbody, hauth, Option.getD_some]
    rw [if_neg (not_not.mpr hput.2)]
    rfl
  case h_2 h₁ h₂ h₃ =>
    split at h
    · rename_i cid hroute
      split_ifs at h with hblock
      obtain rfl := Option.some.inj h
      obtain ⟨parsed, hparsed⟩ := Option.isSome_iff_exists.mp hblock.1
      have hget : ¬ req.method = js "GET" := by
        intro hget
        rcases hblock.2 with hm | hm <;> exact absurd (hm.symm.trans hget) (by decide)
      change authorize nc opts req.method cid req.headers now = _ at hauth
      rw [go, handleHeads_of_blockRoute hroute, Option.getD_none, handle, if_neg (fun h => hget h.1)]
      simp only [hroute, hparsed]
      rw [if_neg hget, if_pos hblock.2]
      simp only [hauth]
      rfl
    · cases h
  case h_3 => cases h

/-! ## The lines of the message -/

theorem printable_of_isB32 {s : JsString} (h : ∀ u ∈ s, isB32 u = true) : Printable s := by
  intro u hu
  have hrange := isB32_range (h u hu)
  have h20 : (0x20 : UInt16).toNat = 32 := rfl
  have h7e : (0x7e : UInt16).toNat = 126 := rfl
  rw [UInt16.le_iff_toNat_le, UInt16.le_iff_toNat_le]
  omega

theorem isB32_of_rawCidRe {cid : JsString} (h : rawCidRe cid = true) : ∀ u ∈ cid, isB32 u = true := by
  obtain ⟨-, -, hall⟩ : _ ∧ _ ∧ cid.all isB32 = true := by simpa [rawCidRe, and_assoc] using h
  exact List.all_eq_true.mp hall

theorem length_of_rawCidRe {cid : JsString} (h : rawCidRe cid = true) : cid.length = 59 := by
  have := by simpa [rawCidRe, and_assoc] using h
  exact this.2.1

theorem head_of_rawCidRe {cid : JsString} (h : rawCidRe cid = true) : ∃ s, cid = unit 'b' :: s := by
  have hhead : cid.head? = some (unit 'b') := by
    have := by simpa [rawCidRe, and_assoc] using h
    exact this.1
  cases cid with
  | nil => cases hhead
  | cons u s => exact ⟨s, by rw [Option.some.inj hhead]⟩

/-- A character of a name is printable, and is no slash. -/
theorem isNameUnit_spec {u : UInt16} (h : isNameUnit u = true) : (0x20 ≤ u ∧ u ≤ 0x7e) ∧ u ≠ unit '/' := by
  have hrange : 45 ≤ u.toNat ∧ u.toNat ≤ 122 ∧ u.toNat ≠ 47 := by
    have h0 : (unit '0').toNat = 48 := rfl
    have h9 : (unit '9').toNat = 57 := rfl
    have ha : (unit 'a').toNat = 97 := rfl
    have hz : (unit 'z').toNat = 122 := rfl
    have hdot : (unit '.').toNat = 46 := rfl
    have hline : (unit '_').toNat = 95 := rfl
    have hminus : (unit '-').toNat = 45 := rfl
    simp only [isNameUnit, inRange, Bool.or_eq_true, Bool.and_eq_true, decide_eq_true_eq, UInt16.le_iff_toNat_le,
      ← UInt16.toNat_inj] at h
    omega
  have h20 : (0x20 : UInt16).toNat = 32 := rfl
  have h7e : (0x7e : UInt16).toNat = 126 := rfl
  have hslash : (unit '/').toNat = 47 := rfl
  rw [UInt16.le_iff_toNat_le, UInt16.le_iff_toNat_le, ne_eq, ← UInt16.toNat_inj]
  omega

theorem isNameUnit_of_headNameRe {name : JsString} (h : headNameRe name = true) : ∀ u ∈ name, isNameUnit u = true := by
  cases name with
  | nil => cases h
  | cons v s =>
    rw [headNameRe, Bool.and_eq_true, Bool.and_eq_true] at h
    obtain ⟨⟨hfirst, -⟩, hrest⟩ := h
    refine List.forall_mem_cons.mpr ⟨?_, List.all_eq_true.mp hrest⟩
    rw [isNameUnit, hfirst]
    rfl

theorem slash_notMem_name {name : JsString} (h : headNameRe name = true) : unit '/' ∉ name :=
  fun hu => (isNameUnit_spec (isNameUnit_of_headNameRe h _ hu)).2 rfl

/-- A slot is printable text in one line. -/
theorem SignedOp.Checked.slot_printable (h : op.Checked) : Printable op.slot := by
  cases h with
  | block hmethod hcid => exact printable_of_isB32 (isB32_of_rawCidRe hcid)
  | @head name seq cid hname hseq hcid =>
    have hslash : Printable (js "/") := by decide
    have hstart : Printable (js "head/") := by decide
    have hprintable : Printable name := fun u hu => (isNameUnit_spec (isNameUnit_of_headNameRe hname u hu)).1
    exact ((((hstart.append hprintable).append hslash).append (printable_numStr _)).append hslash).append
      (printable_of_isB32 (isB32_of_rawCidRe hcid))

theorem SignedOp.Checked.method_printable (h : op.Checked) : Printable op.method := by
  have hput : Printable (js "PUT") := by decide
  have hdelete : Printable (js "DELETE") := by decide
  cases h with
  | block hmethod hcid =>
    rcases hmethod with rfl | rfl
    · exact hput
    · exact hdelete
  | head hname hseq hcid => exact hput

theorem printable_of_parseTime {time : JsString} {t : Int} (h : parseTime time = some t) : Printable time := by
  unfold parseTime at h
  split_ifs at h with hchecks
  rw [Bool.and_eq_true] at hchecks
  exact fun u hu => Json.isDigit_printable (List.all_eq_true.mp hchecks.2 u hu)

/-- The lines of a message. -/
def messageLines (method slot time : JsString) : List JsString := [js "kotoba/block-ingest/v1", method, slot, time]

theorem signedMessage_eq (method slot time : JsString) :
    signedMessage method slot time ++ [10] = joined 10 (messageLines method slot time) := by
  have htag : js "kotoba/block-ingest/v1
" = js "kotoba/block-ingest/v1" ++ [10] := by decide
  have hnewline : js "
" = [10] := by decide
  rw [signedMessage, htag, hnewline, messageLines, joined_cons, joined_cons, joined_cons, joined_cons, joined_nil]
  simp only [List.append_assoc, List.cons_append, List.nil_append]

/-- **The lines can be read back** from a message whose lines are printable. -/
theorem signedMessage_inj {method slot time method' slot' time' : JsString} (hm : Printable method)
    (hs : Printable slot) (ht : Printable time) (hm' : Printable method') (hs' : Printable slot')
    (ht' : Printable time') (h : utf8 (signedMessage method slot time) = utf8 (signedMessage method' slot' time')) :
    method = method' ∧ slot = slot' ∧ time = time' := by
  have hascii {m s t : JsString} (hm : Printable m) (hs : Printable s) (ht : Printable t) :
      Ascii (signedMessage m s t) := by
    have htag : Ascii (js "kotoba/block-ingest/v1
") := by decide
    have hnewline : Ascii (js "
") := by decide
    exact ((((htag.append hm.ascii).append hnewline).append hs.ascii).append hnewline).append ht.ascii
  have htext : signedMessage method slot time = signedMessage method' slot' time' := by
    rw [← ofUtf8_utf8 (hascii hm hs ht), h, ofUtf8_utf8 (hascii hm' hs' ht')]
  have hjoined : joined 10 (messageLines method slot time) = joined 10 (messageLines method' slot' time') := by
    rw [← signedMessage_eq, ← signedMessage_eq, htext]
  have hwhole : ∀ line ∈ messageLines method slot time, 10 ∉ line := by
    have htag : 10 ∉ js "kotoba/block-ingest/v1" := by decide
    simp only [messageLines, List.forall_mem_cons, List.not_mem_nil, false_imp_iff, implies_true, and_true]
    exact ⟨htag, hm.newline_notMem, hs.newline_notMem, ht.newline_notMem⟩
  have hlen : (messageLines method slot time).length = (messageLines method' slot' time').length := rfl
  have hlines := eq_of_joined hwhole hlen hjoined
  simpa [messageLines] using hlines

/-! ## One operation -/

/-- **A slot is that of one operation**: no CID begins like a head, and a head is cut at its slashes. -/
theorem slot_inj (h : op.Checked) (h' : op'.Checked) (hmethod : op.method = op'.method) (hslot : op.slot = op'.slot) :
    op = op' := by
  have hb : unit 'h' ≠ unit 'b' := by decide
  cases h with
  | @block method cid hm hcid =>
    cases h' with
    | @block method' cid' hm' hcid' =>
      obtain rfl : method = method' := hmethod
      obtain rfl : cid = cid' := hslot
      rfl
    | @head name seq cid' hname hseq hcid' =>
      obtain ⟨s, rfl⟩ := head_of_rawCidRe hcid
      exact absurd (List.cons.inj hslot).1.symm hb
  | @head name seq cid hname hseq hcid =>
    cases h' with
    | @block method' cid' hm' hcid' =>
      obtain ⟨s, rfl⟩ := head_of_rawCidRe hcid'
      exact absurd (List.cons.inj hslot).1 hb
    | @head name' seq' cid' hname' hseq' hcid' =>
      have hlen : cid.length = cid'.length := (length_of_rawCidRe hcid).trans (length_of_rawCidRe hcid').symm
      obtain ⟨hfront, rfl⟩ := List.append_inj' hslot hlen
      have hnames := List.append_cancel_right hfront
      rw [List.append_assoc, List.append_assoc, List.append_assoc, List.append_assoc] at hnames
      obtain ⟨rfl, hnum⟩ := append_cons_inj (slash_notMem_name hname) (slash_notMem_name hname')
        (List.append_cancel_left hnames)
      obtain hseqs := numStr_inj hseq hseq' rfl rfl hnum
      cases hseqs
      rfl

/-- What `authorize` accepts has been signed. -/
theorem authorize_eq_none {method slot : JsString} {headers : Headers}
    (h : authorize nc opts method slot headers now = none) : ∃ signer time signature pub t,
      headers = ⟨some signer, some time, some signature⟩ ∧ parseTime time = some t ∧
        ed25519PubOfDid signer = .ok pub ∧
        nc.verify pub (utf8 (signedMessage method slot time)) (base64url signature) = true := by
  obtain ⟨signer, time, signature⟩ := headers
  unfold authorize at h
  split at h
  · rename_i signer' time' signature' hsigner htime hsignature
    cases hsigner
    cases htime
    cases hsignature
    split at h
    · cases h
    split at h
    · cases h
    rename_i t ht
    split at h
    · cases h
    split at h
    · rename_i hok
      unfold signatureOk at hok
      split at hok
      · rename_i pub hpub
        exact ⟨signer', time', signature', pub, t, rfl, ht, hpub, hok⟩
      · cases hok
    · cases h
  · cases h

/-- **One signature authorizes one operation**, at one time. -/
theorem authorize_one_operation {nc : NodeCrypto} {opts opts' : Opts} {now now' : Int} {req req' : Request}
    {op op' : SignedOp} (hone : OneMessage nc) (hop : signedOp req = some op) (hop' : signedOp req' = some op')
    (hauth : authorize nc opts op.method op.slot req.headers now = none)
    (hauth' : authorize nc opts' op'.method op'.slot req'.headers now' = none)
    (hsigner : req.headers.signer = req'.headers.signer) (hsignature : req.headers.signature = req'.headers.signature) :
    op = op' ∧ req.headers.time = req'.headers.time := by
  obtain ⟨signer, time, signature, pub, t, hheaders, htime, hpub, hok⟩ := authorize_eq_none hauth
  obtain ⟨signer', time', signature', pub', t', hheaders', htime', hpub', hok'⟩ := authorize_eq_none hauth'
  rw [hheaders, hheaders'] at hsigner hsignature
  obtain rfl : signer = signer' := Option.some.inj hsigner
  obtain rfl : signature = signature' := Option.some.inj hsignature
  obtain rfl := Except.ok.inj (hpub.symm.trans hpub')
  have hchecked := checked_of_signedOp hop
  have hchecked' := checked_of_signedOp hop'
  obtain ⟨hmethod, hslot, rfl⟩ := signedMessage_inj hchecked.method_printable hchecked.slot_printable
    (printable_of_parseTime htime) hchecked'.method_printable hchecked'.slot_printable (printable_of_parseTime htime')
    (hone pub _ _ _ hok hok')
  refine ⟨slot_inj hchecked hchecked' hmethod hslot, ?_⟩
  rw [hheaders, hheaders']

namespace Sample

/-- Signatures of one message only. -/
def oneMessage : NodeCrypto :=
  ⟨fun _ => [], fun _ msg _ => decide (msg = utf8 (signedMessage (js "PUT") cidRaw time))⟩

theorem oneMessage_spec : OneMessage oneMessage := by
  intro pub msg msg' sig h h'
  exact (of_decide_eq_true h).trans (of_decide_eq_true h').symm

end Sample

/-- Two PUTs of one CID with one signature, whose bodies differ. -/
theorem authorize_one_operation_sample :
    SignedOp.block (js "PUT") Sample.cidRaw = .block (js "PUT") Sample.cidRaw ∧
      (Sample.putOf Sample.alice Sample.cidRaw Sample.rawBlock).2.headers.time =
        (Sample.putOf Sample.alice Sample.cidRaw Sample.cborBlock).2.headers.time :=
  @authorize_one_operation Sample.oneMessage Sample.opts Sample.opts 1767225600 1767225600
    (Sample.putOf Sample.alice Sample.cidRaw Sample.rawBlock).2
    (Sample.putOf Sample.alice Sample.cidRaw Sample.cborBlock).2 _ _ Sample.oneMessage_spec (by decide +kernel)
    (by decide +kernel) (by decide +kernel) (by decide +kernel) rfl rfl

end BlockIngest
