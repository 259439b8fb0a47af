import Yataverse.BlockIngest.Handle

/-!
# What a request is accepted as

- `blockOp`: the hold and operation of an accepted PUT or DELETE of a block.
- `headPut`: what a PUT of a head names.
- `go_keeps`: what the chain of any request does and asks for.
- `go_of_put`, `go_of_delete`, `go_of_headPut`: the chain of each.
-/

namespace BlockIngest

open Js GraphHead EventLoop

/-! ## Blocks and heads -/

/-- An operation on a hold. -/
inductive Op where
  | put (codec : Codec) (buf : Bytes)
  | delete
deriving DecidableEq

/-- The hold and operation of an accepted request. -/
def blockOp (nc : NodeCrypto) (opts : Opts) (now : Int) (req : Request) : Option (Hold × Op) :=
  match blockRoute req.path with
  | none => none
  | some cid =>
    match parseCid cid with
    | none => none
    | some parsed =>
      if (req.method = js "PUT" ∨ req.method = js "DELETE") ∧
          authorize nc opts req.method cid req.headers now = none then
        let p := holdPath (req.headers.signer.getD []) cid
        if req.method = js "DELETE" then some (p, .delete)
        else
          match req.body with
          | none => none
          | some buf =>
            if buf.length ≤ opts.maxBlockBytes ∧ hashesTo nc cid buf = true then
              some (p, .put parsed.codec buf)
            else none
      else none

/-- The hold, name and sequence number of a PUT of a head. -/
def headPut (req : Request) : Option (Hold × JsString × Int) :=
  match holdsRoute req.path, headRoute req.path, headsRoute req.path with
  | none, none, some name =>
    if req.method = js "PUT" then
      (headBody req.body).map fun (cid, seq) => (holdPath (req.headers.signer.getD []) cid, name, seq)
    else none
  | _, _, _ => none

section Routes

variable {nc : NodeCrypto} {opts : Opts} {now : Int} {req : Request}

theorem blockRoute_eq {path cid : JsString} (h : blockRoute path = some cid) :
    path = js "/v1/blocks/" ++ cid := by
  unfold blockRoute dropPrefix at h
  by_cases hp : (js "/v1/blocks/").isPrefixOf path = true
  · obtain ⟨s, rfl⟩ := List.isPrefixOf_iff_prefix.mp hp
    simp only [hp, if_true, List.drop_left] at h
    split at h
    · cases h
    · rw [Option.some.inj h]
  · simp [hp] at h

/-- A block route is no head or hold route. -/
theorem handleHeads_of_blockRoute {cid : JsString} (h : blockRoute req.path = some cid) :
    handleHeads nc opts now req = none := by
  have h₁ : holdsRoute req.path = none := by
    rw [blockRoute_eq h]
    rfl
  have h₂ : headRoute req.path = none := by
    rw [blockRoute_eq h]
    rfl
  have h₃ : headsRoute req.path = none := by
    rw [blockRoute_eq h]
    rfl
  simp only [handleHeads, h₁, h₂, h₃]

theorem headBody_pos {body : Option Bytes} {cid : JsString} {seq : Int}
    (h : headBody body = some (cid, seq)) : 0 < seq := by
  unfold headBody at h
  dsimp only at h
  split at h
  · split at h
    · rename_i hc
      obtain ⟨-, rfl⟩ := Prod.mk.inj (Option.some.inj h)
      simpa using (Bool.and_eq_true_iff.mp hc).2
    · cases h
  · cases h

theorem headPut_pos {p : Hold} {name : JsString} {seq : Int}
    (h : headPut req = some (p, name, seq)) : 0 < seq := by
  unfold headPut at h
  split at h
  · split at h
    · obtain ⟨⟨cid, seq'⟩, hb, he⟩ := Option.map_eq_some_iff.mp h
      obtain ⟨-, -, rfl⟩ := by simpa using he
      exact headBody_pos hb
    · cases h
  · cases h

theorem authorize_status {method cid reason : JsString} {headers : Headers} {status : Nat}
    (h : authorize nc opts method cid headers now = some (status, reason)) : status ≠ 200 := by
  unfold authorize at h
  split at h
  · split at h
    · cases h
      decide
    · split at h
      · cases h
        decide
      · split at h
        · cases h
          decide
        · split at h
          · cases h
          · cases h
            decide
  · cases h
    decide

end Routes

/-! ## What a chain does and asks for -/

/-- The commands that change nothing. -/
def Cmd.reading : Cmd → Bool
  | .blockGet _ => true
  | .filesStat _ => true
  | .filesLs _ => true
  | .blockStat _ _ => true
  | _ => false

section Keeps

variable {cmd : Cmd → Prop} {rel : Files → Files → Prop}

theorem keeps_ipfs {c : Cmd} (h : cmd c) : (ipfs c).Keeps cmd rel := ⟨h, fun _ => trivial⟩

theorem keeps_ensure (c : Bool) (e : Err) : (ensure c e).Keeps cmd rel := by
  cases c <;> trivial

theorem keeps_reads {α : Type} (q : Files → α) : (Task.reads q : Step α).Keeps cmd rel :=
  fun _ => trivial

/-- What a PUT of a block does is allowed. -/
structure AllowsPut (cmd : Cmd → Prop) (rel : Files → Files → Prop) (p : Hold) (codec : Codec)
    (buf : Bytes) : Prop where
  put : cmd (.blockPut codec buf)
  mfs : unixfs p.cid = true → cmd (.filesMkdir p.suffix) ∧ cmd (.filesCp p)
  pin : unixfs p.cid = false → cmd (.pinAdd p.cid) ∧ ∀ f, rel f (f.add p.suffix p.cid)

/-- What a DELETE of a block does is allowed. -/
structure AllowsDelete (cmd : Cmd → Prop) (rel : Files → Files → Prop) (p : Hold) : Prop where
  mfs : unixfs p.cid = true → cmd (.filesRm p)
  pin : unixfs p.cid = false → cmd (.pinRm p.cid) ∧ ∀ f, rel f (f.remove p.suffix p.cid)

variable (h : ∀ c, c.reading = true → cmd c)

include h

theorem keeps_held (p : Hold) : (held p).Keeps cmd rel := by
  unfold held
  split
  · exact (keeps_ipfs (h _ rfl)).bind fun _ => trivial
  · exact keeps_reads _

theorem keeps_holds (suffix : JsString) : (holds suffix).Keeps cmd rel :=
  (keeps_ipfs (h _ rfl)).bind fun _ => keeps_reads _

theorem keeps_getBlock (cid : JsString) : (getBlock cid).Keeps cmd rel :=
  (keeps_ipfs (h _ rfl)).bind fun _ => trivial

omit h in
theorem keeps_hold {p : Hold} {codec : Codec} {buf : Bytes} (hp : AllowsPut cmd rel p codec buf) :
    (hold p).Keeps cmd rel := by
  unfold hold
  split
  · rename_i hu
    obtain ⟨hmkdir, hcp⟩ := hp.mfs hu
    exact (keeps_ipfs hmkdir).bind fun _ => (keeps_ipfs hcp).bind fun _ => keeps_ensure _ _
  · rename_i hu
    obtain ⟨hc, hr⟩ := hp.pin (by simpa using hu)
    exact ((keeps_ipfs hc).bind fun _ => keeps_ensure _ _).bind fun _ => ⟨hr, trivial⟩

omit h in
theorem keeps_release {p : Hold} (hp : AllowsDelete cmd rel p) : (release p).Keeps cmd rel := by
  unfold release
  split
  · rename_i hu
    exact (keeps_ipfs (hp.mfs hu)).bind fun _ => trivial
  · rename_i hu
    obtain ⟨hc, hr⟩ := hp.pin (by simpa using hu)
    refine Task.Keeps.bind ⟨hr, trivial⟩ fun _ => (keeps_reads _).bind fun b => ?_
    cases b
    · exact (keeps_ipfs hc).bind fun _ => trivial
    · trivial

theorem keeps_putBlock {p : Hold} {codec : Codec} {buf : Bytes} (hp : AllowsPut cmd rel p codec buf)
    (cid : JsString) : (putBlock p cid codec buf).Keeps cmd rel := by
  refine (keeps_held h p).bind fun b => ?_
  cases b
  · refine Task.Keeps.bind ((keeps_ipfs hp.put).bind fun _ => (keeps_ensure _ _).bind fun _ => ?_) ?_
    · trivial
    · exact fun _ => (keeps_ensure _ _).bind fun _ => (keeps_hold hp).bind fun _ => trivial
  · trivial

theorem keeps_deleteBlock {p : Hold} (hp : AllowsDelete cmd rel p) (cid : JsString) :
    (deleteBlock p cid).Keeps cmd rel := by
  refine (keeps_held h p).bind fun b => ?_
  cases b
  · trivial
  · exact (keeps_release hp).bind fun _ => trivial

variable {nc : NodeCrypto} {opts : Opts} {now : Int} {req : Request}

/-- The block routes change the hold that is put or deleted. -/
theorem keeps_handle
    (hput : ∀ p codec buf, blockOp nc opts now req = some (p, .put codec buf) →
      AllowsPut cmd rel p codec buf)
    (hdel : ∀ p, blockOp nc opts now req = some (p, .delete) → AllowsDelete cmd rel p) :
    (handle nc opts now req).Keeps cmd rel := by
  unfold handle
  split
  · trivial
  split
  · trivial
  rename_i cid hroute
  split
  · trivial
  rename_i parsed hparsed
  split
  · refine (keeps_getBlock h _).bind fun b => ?_
    cases b <;> trivial
  split
  · rename_i hmethod
    split
    · trivial
    rename_i hauth
    dsimp only
    split
    · rename_i hdelete
      refine keeps_deleteBlock h (hdel _ ?_) _
      simp only [blockOp, hroute, hparsed]
      rw [if_pos ⟨hmethod, hauth⟩, if_pos hdelete]
    rename_i hdelete
    split
    · trivial
    rename_i buf hbuf
    split
    · trivial
    rename_i hlen
    split
    · rename_i hhash
      refine keeps_putBlock h (hput _ parsed.codec buf ?_) _
      simp only [blockOp, hroute, hparsed]
      rw [if_pos ⟨hmethod, hauth⟩, if_neg hdelete]
      simp only [hbuf]
      rw [if_pos ⟨Nat.not_lt.mp hlen, hhash⟩]
    · trivial
  · trivial

theorem keeps_putHead {p : Hold} {name : JsString} {seq : Int}
    (hp : ∀ f rec, rel f (f.putHead p.suffix name rec)) : (putHead p name seq now).Keeps cmd rel := by
  have hw : ∀ current isHeld, (compareAndWrite p name seq now current isHeld).Keeps cmd rel := by
    intro current isHeld
    unfold compareAndWrite
    split
    · trivial
    split
    · trivial
    · exact Task.Keeps.bind ⟨fun f => hp f _, trivial⟩ fun _ => trivial
  unfold putHead
  split
  · exact (keeps_reads _).bind fun _ => (keeps_held h p).bind fun _ => hw _ _
  · exact (keeps_held h p).bind fun _ => (keeps_reads _).bind fun _ => hw _ _

/-- The other routes change the head that is put. -/
theorem keeps_handleHeads
    (hhead : ∀ p name seq, headPut req = some (p, name, seq) →
      ∀ f rec, rel f (f.putHead p.suffix name rec))
    {t : Step Response} (ht : handleHeads nc opts now req = some t) : t.Keeps cmd rel := by
  unfold handleHeads at ht
  unfold headPut at hhead
  split at ht
  · -- GET of the holds
    split at ht
    · obtain rfl := Option.some.inj ht
      split
      · exact (keeps_holds h _).bind fun _ => trivial
      · trivial
    · cases ht
  · -- GET of one head
    split at ht
    · obtain rfl := Option.some.inj ht
      split
      · exact (keeps_reads _).bind fun _ => trivial
      · trivial
    · cases ht
  · rename_i name hr₁ hr₂ hr₃
    split at ht
    · -- GET of all heads
      obtain rfl := Option.some.inj ht
      exact (keeps_reads _).bind fun _ => trivial
    split at ht
    · -- PUT of a head
      rename_i hm
      obtain rfl := Option.some.inj ht
      split
      · trivial
      split
      · trivial
      rename_i cid seq hb
      split
      · trivial
      refine keeps_putHead h (hhead _ _ seq ?_)
      simp only [hr₁, hr₂, hr₃, if_pos hm, hb, Option.map_some]
    · cases ht
  · cases ht

/-- **What the chain of a request does and asks for.** -/
theorem go_keeps
    (hput : ∀ p codec buf, blockOp nc opts now req = some (p, .put codec buf) →
      AllowsPut cmd rel p codec buf)
    (hdel : ∀ p, blockOp nc opts now req = some (p, .delete) → AllowsDelete cmd rel p)
    (hhead : ∀ p name seq, headPut req = some (p, name, seq) →
      ∀ f rec, rel f (f.putHead p.suffix name rec)) :
    (go nc opts now req).Keeps cmd rel := by
  refine Task.Keeps.handle ?_ fun _ => trivial
  cases hh : handleHeads nc opts now req with
  | none => exact keeps_handle h hput hdel
  | some t => exact keeps_handleHeads h hhead hh

end Keeps

/-! ## The chain of each accepted request -/

section Go

variable {nc : NodeCrypto} {opts : Opts} {now : Int} {req : Request} {p : Hold}

/-- An accepted PUT puts its block. -/
theorem go_of_put {codec : Codec} {buf : Bytes}
    (h : blockOp nc opts now req = some (p, .put codec buf)) :
    go nc opts now req = (putBlock p p.cid codec buf).handle (fun e => .ret (answerError e)) ∧
      unixfs p.cid = decide (codec = .raw) := by
  unfold blockOp at h
  split at h
  · cases h
  rename_i cid hroute
  split at h
  · cases h
  rename_i parsed hparsed
  split at h
  case isFalse => cases h
  rename_i hc
  obtain ⟨hmethod, hauth⟩ := hc
  dsimp only at h
  split at h
  · cases h
  rename_i hdelete
  have hput : req.method = js "PUT" := hmethod.resolve_right hdelete
  have hget : ¬ req.method = js "GET" := by
    rw [hput]
    decide
  split at h
  · cases h
  rename_i buf' hbuf
  split at h
  case isFalse => cases h
  rename_i hb
  obtain ⟨hlen, hhash⟩ := hb
  obtain ⟨rfl, hop⟩ := Prod.mk.inj (Option.some.inj h)
  obtain ⟨rfl, rfl⟩ := Op.put.inj hop
  refine ⟨?_, ?_⟩
  · rw [go, handleHeads_of_blockRoute hroute, Option.getD_none, handle, if_neg (fun h => hget h.1)]
    simp only [hroute, hparsed]
    rw [if_neg hget, if_pos hmethod]
    simp only [hauth]
    rw [if_neg hdelete]
    simp only [hbuf]
    rw [if_neg (Nat.not_lt.mpr hlen), if_pos hhash]
    rfl
  · simp only [unixfs, holdPath, hparsed, Option.map_some, Option.some.injEq]

/-- An accepted DELETE releases its block. -/
theorem go_of_delete (h : blockOp nc opts now req = some (p, .delete)) :
    go nc opts now req = (deleteBlock p p.cid).handle fun e => .ret (answerError e) := by
  unfold blockOp at h
  split at h
  · cases h
  rename_i cid hroute
  split at h
  · cases h
  rename_i parsed hparsed
  split at h
  case isFalse => cases h
  rename_i hc
  obtain ⟨hmethod, hauth⟩ := hc
  dsimp only at h
  split at h
  case isFalse =>
    split at h
    · cases h
    · split at h <;> simp at h
  rename_i hdelete
  have hget : ¬ req.method = js "GET" := by
    rw [hdelete]
    decide
  obtain ⟨rfl, -⟩ := Prod.mk.inj (Option.some.inj h)
  rw [go, handleHeads_of_blockRoute hroute, Option.getD_none, handle, if_neg (fun h => hget h.1)]
  simp only [hroute, hparsed]
  rw [if_neg hget, if_pos hmethod]
  simp only [hauth]
  rw [if_pos hdelete]
  rfl

/-- A PUT of a head is refused at once, or compares and writes. -/
theorem go_of_headPut {name : JsString} {seq : Int} (h : headPut req = some (p, name, seq)) :
    (∃ resp, resp.status ≠ 200 ∧ go nc opts now req = .ret resp) ∨
      go nc opts now req = (putHead p name seq now).handle fun e => .ret (answerError e) := by
  unfold headPut at h
  split at h
  case h_2 => cases h
  case h_1 name' hr₁ hr₂ hr₃ =>
  split at h
  case isFalse => cases h
  case isTrue hput =>
  obtain ⟨⟨cid, seq'⟩, hb, he⟩ := Option.map_eq_some_iff.mp h
  obtain ⟨rfl, rfl, rfl⟩ : _ = p ∧ name' = name ∧ seq' = seq := by simpa using he
  have hget : ¬ (req.method = js "GET" ∧ signerSuffixRe name' = true) := by
    rintro ⟨hg, -⟩
    exact absurd (hput.symm.trans hg) (by decide)
  unfold go handleHeads
  simp only [hr₁, hr₂, hr₃, if_neg hget, if_pos hput, hb, Option.getD_some]
  split
  · exact .inl ⟨_, by decide, rfl⟩
  cases ha : authorize nc opts (js "PUT") (headMessageSlot name' seq' cid) req.headers now with
  | none => exact .inr rfl
  | some r =>
    obtain ⟨status, reason⟩ := r
    exact .inl ⟨refused status reason, authorize_status ha, rfl⟩

end Go

end BlockIngest
