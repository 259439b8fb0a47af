import Yataverse.LakeReader.Listed
import Yataverse.LakeReader.Slots
import Yataverse.Serve.Covers

/-!
# Why the lake reader serves what it serves

- `Remembers`: receipts as they were read in some directories.
- `Receipts.covers_spec`: what an answer of the receipts stands on.
- `Durable`, `Kept`: why a block is served.
- `StageOk`, `Inv`: what is known of a request by how far it is.
- **`Inv.step`**: one step keeps it.
- **`Reached.inv`**: it holds of every reader that is started.
-/

namespace LakeReader

open Js Json GraphHead Fallible Lake Serve Cover Function

variable {ι : Type} [DecidableEq ι] {c : Config} {s s' : State ι} {i j : ι} {w w₀ : World} {stage : Stage} {large : Bool}
  {ls ls' : List (Label ι)} {k : Nat} {index : Index} {cid : JsString} {data : Bytes} {x : Wanted}
  {inventory : Inventory} {repository : JsString} {disk : Disk} {d d₀ : Directories} {r r' : Receipts} {answer : Bool}

/-! ## Receipts -/

/-- Receipts as they were read in some directories. -/
inductive Remembers (inventory : Inventory) (repository : JsString) (d : Directories) : Receipts → Prop
  | python {r : CarReceipts} {mtimes : List Nat} {ranges : List (Nat × Nat)} (hmtimes : d.mtimes = .ok mtimes)
    (hranges : rangesOf inventory repository true d = .ok ranges) (h : Loaded mtimes (merged ranges) r) :
    Remembers inventory repository d (.python r)
  | kotoba {mtimes : List Nat} {ranges : List (Nat × Nat)} (hmtimes : d.mtimes = .ok mtimes)
    (hranges : rangesOf inventory repository false d = .ok ranges) :
    Remembers inventory repository d (.kotoba ⟨some mtimes, merged ranges⟩)

/-- No receipt has been read. -/
def Receipts.Fresh : Receipts → Prop
  | python r => r.mtimeNs = none
  | kotoba cache => cache.mtimes = none

/-- What is read, or was read in directories with the same times. -/
theorem refresh_remembers {r r' : CarReceipts} (hr : r.mtimeNs = none ∨ Remembers inventory repository d₀ (.python r))
    (h : refresh inventory repository d r = .ok r') :
    ∃ d₁, (d₁ = d ∨ d₁ = d₀) ∧ d₁.mtimes = d.mtimes ∧ Remembers inventory repository d₁ (.python r') := by
  have hbind := h
  unfold refresh at hbind
  obtain ⟨mtimes, hmtimes, hbind⟩ := bind_eq_ok.mp hbind
  by_cases hsame : r.mtimeNs = some mtimes
  · obtain rfl := Except.ok.inj ((if_pos hsame).symm.trans hbind)
    rcases hr with hnone | hr
    · rw [hnone] at hsame
      cases hsame
    · cases hr with
      | python hmtimes₀ hranges hloaded =>
        obtain rfl := Option.some.inj (hloaded.mtimes.symm.trans hsame)
        exact ⟨d₀, .inr rfl, hmtimes₀.trans hmtimes.symm, .python hmtimes₀ hranges hloaded⟩
  · obtain ⟨ranges, hranges, hloaded⟩ := refresh_spec hmtimes hsame h
    exact ⟨d, .inl rfl, rfl, .python hmtimes hranges hloaded⟩

/-- A row that the ranges of receipts contain is in the name of one of them. -/
theorem covered_of_merged {strict : Bool} {ranges : List (Nat × Nat)} {row : Nat}
    (hranges : rangesOf inventory repository strict d = .ok ranges) (h : ∃ range ∈ merged ranges, Contains range row) :
    Covered d row := by
  have hspec := @rangesOf_spec _ _ _ row _ _ hranges
  exact hspec.2.mp (((merged_spec hspec.1).2 row).mp h)

/-- **What an answer of the receipts stands on**: receipts that were read now, or earlier in directories with the times
that they have now. -/
theorem Receipts.covers_spec (hr : r.Fresh ∨ Remembers (inventoryOf index) repository d₀ r)
    (h : r.covers disk index repository d cid = .ok (r', answer)) :
    ∃ d₁, (d₁ = d ∨ d₁ = d₀) ∧ d₁.mtimes = d.mtimes ∧ Remembers (inventoryOf index) repository d₁ r' ∧
      (answer = true → ∃ row, positionOf (inventoryOf index) cid = some row ∧ Covered d₁ row) := by
  obtain ⟨_, -, h⟩ := bind_eq_ok.mp h
  cases r with
  | python r =>
    obtain ⟨⟨r₁, answer⟩, hcovers, heq⟩ := bind_eq_ok.mp h
    obtain ⟨rfl, rfl⟩ := Prod.mk.inj (Except.ok.inj heq)
    have hbind := hcovers
    unfold Serve.covers at hbind
    obtain ⟨r₂, hrefresh, hbind⟩ := bind_eq_ok.mp hbind
    obtain ⟨d₁, hd₁, hsame, hremembers⟩ := refresh_remembers hr hrefresh
    cases hrow : positionOf (inventoryOf index) cid with
    | none =>
      rw [hrow] at hbind
      cases hbind
    | some row =>
      rw [hrow] at hbind
      obtain ⟨rfl, hanswer⟩ := Prod.mk.inj (Except.ok.inj hbind)
      refine ⟨d₁, hd₁, hsame, hremembers, fun htrue => ⟨row, rfl, ?_⟩⟩
      cases hremembers with
      | python hmtimes hranges hloaded =>
        have hapart := (merged_spec (@rangesOf_spec _ _ _ row _ _ hranges).1).1
        have hfound := @covers_loaded _ repository _ _ _ _ _ _ hmtimes hloaded hapart hrow
        unfold Serve.covers at hfound
        rw [refresh_loaded hmtimes hloaded] at hfound
        dsimp only [bind, Except.bind] at hfound
        rw [hrow] at hfound
        have heq := (Prod.mk.inj (Except.ok.inj hfound)).2
        exact covered_of_merged hranges (of_decide_eq_true (heq.symm.trans (hanswer.trans htrue)))
  | kotoba cache =>
    obtain ⟨⟨cache₁, answer⟩, hcovers, heq⟩ := bind_eq_ok.mp h
    obtain ⟨rfl, rfl⟩ := Prod.mk.inj (Except.ok.inj heq)
    unfold kotobaCovers at hcovers
    obtain ⟨mtimes, hmtimes, hcovers⟩ := bind_eq_ok.mp hcovers
    obtain ⟨cache₂, hreload, hcovers⟩ := bind_eq_ok.mp hcovers
    have hread : ∃ d₁, (d₁ = d ∨ d₁ = d₀) ∧ d₁.mtimes = d.mtimes ∧ ∃ ranges,
        rangesOf (inventoryOf index) repository false d₁ = .ok ranges ∧ cache₂ = ⟨some mtimes, merged ranges⟩ := by
      unfold Cache.reload at hreload
      by_cases hsame : cache.mtimes = some mtimes
      · obtain rfl := Except.ok.inj ((if_pos hsame).symm.trans hreload)
        rcases hr with hnone | hr
        · exact absurd (hsame.symm.trans hnone) (Option.some_ne_none _)
        · cases hr with
          | kotoba hmtimes₀ hranges =>
            obtain rfl := Option.some.inj hsame
            exact ⟨d₀, .inr rfl, hmtimes₀.trans hmtimes.symm, _, hranges, rfl⟩
      · obtain ⟨ranges, hranges, heq⟩ := bind_eq_ok.mp ((if_neg hsame).symm.trans hreload)
        obtain rfl := Except.ok.inj heq
        unfold receiptRanges at hranges
        obtain ⟨ranges', hranges', heq⟩ := bind_eq_ok.mp hranges
        obtain rfl := Except.ok.inj heq
        exact ⟨d, .inl rfl, rfl, ranges', hranges', rfl⟩
    obtain ⟨d₁, hd₁, hsame, ranges, hranges, rfl⟩ := hread
    have hremembers := Remembers.kotoba (hsame.trans hmtimes) hranges
    cases hrow : positionOf (inventoryOf index) cid with
    | none =>
      rw [hrow] at hcovers
      obtain ⟨rfl, rfl⟩ := Prod.mk.inj (Except.ok.inj hcovers)
      exact ⟨d₁, hd₁, hsame, hremembers, fun h => by cases h⟩
    | some row =>
      rw [hrow] at hcovers
      obtain ⟨rfl, rfl⟩ := Prod.mk.inj (Except.ok.inj hcovers)
      refine ⟨d₁, hd₁, hsame, hremembers, fun htrue => ⟨row, rfl, ?_⟩⟩
      obtain ⟨range, hrange, hcontains⟩ := List.any_eq_true.mp htrue
      exact covered_of_merged hranges ⟨range, hrange, of_decide_eq_true hcontains⟩

/-! ## Why a block is served -/

/-- The reader has seen these directories of receipts. -/
def Seen (w₀ : World) (ls : List (Label ι)) (k : Nat) (d : Directories) : Prop :=
  w₀.directories k = d ∨ ∃ j w, Label.go j w ∈ ls ∧ w.directories k = d

/-- What a request is about. -/
def Asked (c : Config) (ls : List (Label ι)) (i : ι) (url : Url) : Prop :=
  ∃ target, Label.arrive i (js "GET") target ∈ ls ∧ c.split target = some url

/-- A request for a block. -/
def Asks (c : Config) (ls : List (Label ι)) (i : ι) (cid : JsString) : Prop :=
  ∃ url, Asked c ls i url ∧ url.path = js "/ipfs/" ++ cid ∧ url.query = []

/-- Kubo pins a block, or a receipt has its row. -/
inductive Durable (c : Config) (w₀ : World) (ls : List (Label ι)) (i : ι) (x : Wanted) : Prop
  | receipt {d : Directories} {w : World} {row : Nat} (hseen : Seen w₀ ls x.part d) (hw : Label.go i w ∈ ls)
    (hmtimes : d.mtimes = (w.directories x.part).mtimes) (hrow : positionOf (inventoryOf x.index) x.cid = some row)
    (hcovered : Covered d row)
  | direct {out : Bytes} (h : Label.reply i (.exited 0 out) ∈ ls) (hline : lineWritten c.language out = x.cid ++ js " direct")
  | pinned {out : Bytes} (h : Label.reply i (.exited 0 out) ∈ ls) (hline : pinnedLine x.cid (lineWritten c.language out) = true)

/-- Where a block was: whole in the raw block store, or in a repository that keeps it. -/
inductive Kept (c : Config) (w₀ : World) (ls : List (Label ι)) (i : ι) (x : Wanted) (data : Bytes) : Prop
  | raw {w : World} (hw : Label.go i w ∈ ls)
    (hread : RawBlockStore.read c.nc (implOf c.language) x.cid c.maxBytes w.raw = .ok (some data))
  | kubo (h : Durable c w₀ ls i x) (hget : Label.reply i (.exited 0 data) ∈ ls)

/-- A block has its size and its CID. -/
structure Verified (c : Config) (x : Wanted) (data : Bytes) : Prop where
  length : data.length = x.size
  verified : RawBlockStore.verifyCid c.nc (implOf c.language) x.cid data = .ok ()

/-- What is known of an answer. -/
def Answered (c : Config) (w₀ : World) (ls : List (Label ι)) (i : ι) : Response → Prop
  | .json text => ∃ url, Asked c ls i url ∧ (url.path = js "/health" ∧ text = healthText c ∨
      url.path = js "/api/v1/lake/blocks" ∧ ∃ w page, Label.go i w ∈ ls ∧
        c.source.served c.language w.disk ((cursors url).head?.getD (js "0")) = .ok page ∧ text = pageText c.language page)
  | .block data => ∃ x, Asks c ls i x.cid ∧ Listed c x ∧ Verified c x data ∧ Kept c w₀ ls i x data
  | .error .. | .closed => True

/-- What is known of a request by how far it is. -/
def StageOk (c : Config) (w₀ : World) (ls : List (Label ι)) (i : ι) : Stage → Prop
  | .entered url => Asked c ls i url
  | .looking cid _ => Asks c ls i cid
  | .covering x _ => Asks c ls i x.cid ∧ Listed c x
  | .running command x _ => Asks c ls i x.cid ∧ Listed c x ∧ (command = .get → Durable c w₀ ls i x)
  | .settled response _ | .closing response | .done response => Answered c w₀ ls i response
  | .unborn | .lost | .crashed => True

/-- What is remembered of receipts was read in directories that the reader has seen. -/
def ReceiptsOk (c : Config) (w₀ : World) (ls : List (Label ι)) (receipts : List (Option Receipts)) : Prop :=
  ∀ k r index, (receipts[k]?).join = some r → (partsOf c.source)[k]? = some index →
    r.Fresh ∨ ∃ d, Seen w₀ ls k d ∧ Remembers (inventoryOf index) c.repository d r

/-- What holds in every state. -/
structure Inv (c : Config) (w₀ : World) (ls : List (Label ι)) (s : State ι) : Prop where
  each : ∀ i, StageOk c w₀ ls i (s.stage i)
  receipts : ReceiptsOk c w₀ ls s.receipts

/-! ## As a run goes on -/

section

omit [DecidableEq ι]

variable (hls : ls ⊆ ls')
include hls

theorem Seen.mono (h : Seen w₀ ls k d) : Seen w₀ ls' k d := by
  rcases h with h | ⟨j, w, hw, h⟩
  · exact .inl h
  · exact .inr ⟨j, w, hls hw, h⟩

theorem Asked.mono {url : Url} (h : Asked c ls i url) : Asked c ls' i url := by
  obtain ⟨target, harrive, hsplit⟩ := h
  exact ⟨target, hls harrive, hsplit⟩

theorem Asks.mono (h : Asks c ls i cid) : Asks c ls' i cid := by
  obtain ⟨url, hasked, h⟩ := h
  exact ⟨url, hasked.mono hls, h⟩

theorem Durable.mono (h : Durable c w₀ ls i x) : Durable c w₀ ls' i x := by
  cases h with
  | receipt hseen hw hmtimes hrow hcovered => exact .receipt (hseen.mono hls) (hls hw) hmtimes hrow hcovered
  | direct h hline => exact .direct (hls h) hline
  | pinned h hline => exact .pinned (hls h) hline

theorem Kept.mono (h : Kept c w₀ ls i x data) : Kept c w₀ ls' i x data := by
  cases h with
  | raw hw hread => exact .raw (hls hw) hread
  | kubo h hget => exact .kubo (h.mono hls) (hls hget)

theorem Answered.mono {response : Response} (h : Answered c w₀ ls i response) : Answered c w₀ ls' i response := by
  cases response with
  | json text =>
    obtain ⟨url, hasked, h⟩ := h
    refine ⟨url, hasked.mono hls, h.imp_right ?_⟩
    rintro ⟨hpath, w, page, hw, h⟩
    exact ⟨hpath, w, page, hls hw, h⟩
  | block data =>
    obtain ⟨x, hasks, hlisted, hverified, hkept⟩ := h
    exact ⟨x, hasks.mono hls, hlisted, hverified, hkept.mono hls⟩
  | _ => trivial

theorem StageOk.mono (h : StageOk c w₀ ls i stage) : StageOk c w₀ ls' i stage := by
  cases stage with
  | entered url => exact Asked.mono hls h
  | looking cid large => exact Asks.mono hls h
  | covering x large => exact ⟨h.1.mono hls, h.2⟩
  | running command x large => exact ⟨h.1.mono hls, h.2.1, fun hget => (h.2.2 hget).mono hls⟩
  | settled response large => exact Answered.mono hls h
  | closing response => exact Answered.mono hls h
  | done response => exact Answered.mono hls h
  | _ => trivial

theorem ReceiptsOk.mono {receipts : List (Option Receipts)} (h : ReceiptsOk c w₀ ls receipts) :
    ReceiptsOk c w₀ ls' receipts := by
  intro k r index hr hindex
  refine (h k r index hr hindex).imp_right ?_
  rintro ⟨d, hseen, hremembers⟩
  exact ⟨d, hseen.mono hls, hremembers⟩

theorem Inv.mono (h : Inv c w₀ ls s) : Inv c w₀ ls' s :=
  ⟨fun i => (h.each i).mono hls, h.receipts.mono hls⟩

end

/-! ## What a step does -/

/-- What the raw block store returns has its CID. -/
theorem verified_of_read {nc : NodeCrypto} {impl : RawBlockStore.Impl} {n : Nat} {store : RawBlockStore.Store}
    (h : RawBlockStore.read nc impl cid n store = .ok (some data)) : RawBlockStore.verifyCid nc impl cid data = .ok () := by
  unfold RawBlockStore.read at h
  obtain ⟨digest, -, h⟩ := bind_eq_ok.mp h
  split at h
  · cases Except.ok.inj h
  · obtain ⟨_, -, h⟩ := bind_eq_ok.mp h
    obtain ⟨_, -, h⟩ := bind_eq_ok.mp h
    obtain ⟨_, hverify, h⟩ := bind_eq_ok.mp h
    obtain rfl := Option.some.inj (Except.ok.inj h)
    exact hverify
  · cases h
  · cases h
  · cases h

theorem Inv.goto (h : Inv c w₀ ls s) (hstage : StageOk c w₀ ls i stage) : Inv c w₀ ls (s.goto i stage) := by
  refine ⟨fun j => ?_, h.receipts⟩
  by_cases hj : j = i
  · rw [hj, goto_self]
    exact hstage
  · rw [goto_of_ne hj]
    exact h.each j

omit [DecidableEq ι] in
/-- **The inventory and the raw block store.** -/
theorem stageOk_look (h : Asks c ls i cid) (hw : Label.go i w ∈ ls) : StageOk c w₀ ls i (look c w cid large) := by
  unfold look
  split
  · trivial
  · rename_i part index hpart
    split
    · trivial
    · rename_i size hsize
      split_ifs with hlimit hraw
      · trivial
      · have hlisted : Listed c ⟨cid, part, index, size⟩ := ⟨hpart, hsize, not_lt.mp hlimit⟩
        split
        · trivial
        · rename_i data hread
          split_ifs with hlength
          · exact ⟨_, h, hlisted, ⟨hlength, verified_of_read hread⟩, .raw hw hread⟩
          · trivial
        · exact ⟨h, hlisted⟩
      · exact ⟨h, hpart, hsize, not_lt.mp hlimit⟩

omit [DecidableEq ι] in
/-- **What Kubo has answered.** -/
theorem stageOk_replied {command : Command} {reply : Answer} (h : StageOk c w₀ ls i (.running command x large))
    (hreply : Label.reply i reply ∈ ls) : StageOk c w₀ ls i (replied c command x large reply) := by
  obtain ⟨hasks, hlisted, hdurable⟩ := h
  unfold replied
  split
  · trivial
  · split <;> trivial
  · rename_i code out
    split
    · split_ifs with hline
      · obtain ⟨rfl, hline⟩ := hline
        exact ⟨hasks, hlisted, fun _ => .direct hreply hline⟩
      · exact ⟨hasks, hlisted, Command.noConfusion⟩
    · split_ifs with hline
      · obtain ⟨rfl, hline⟩ := hline
        exact ⟨hasks, hlisted, fun _ => .pinned hreply hline⟩
      · trivial
    · split_ifs with hout
      · obtain ⟨rfl, hlength⟩ := hout
        split
        · trivial
        · rename_i u hverify
          exact ⟨x, hasks, hlisted, ⟨hlength, hverify⟩, .kubo (hdurable rfl) hreply⟩
      · trivial

omit [DecidableEq ι] in
theorem answered_raised {language : Language} {message : JsString} : Answered c w₀ ls i (raised language message) := by
  unfold raised
  split
  · split_ifs <;> trivial
  · trivial

omit [DecidableEq ι] in
/-- **A page** is one of the listing. -/
theorem answered_listing {url : Url} (h : Asked c ls i url) (hpath : url.path = js "/api/v1/lake/blocks")
    (hw : Label.go i w ∈ ls) : Answered c w₀ ls i (listing c w.disk url) := by
  unfold listing
  split_ifs
  · trivial
  · split
    · exact answered_raised
    · rename_i page hpage
      exact ⟨url, h, .inr ⟨hpath, w, page, hw, hpage, rfl⟩⟩

theorem Inv.route {url : Url} (h : Inv c w₀ ls s) (hi : s.stage i = .entered url) (hw : Label.go i w ∈ ls) :
    Inv c w₀ ls (route c s i w url) := by
  have hasked := h.each i
  rw [hi] at hasked
  have hasks : (js "/ipfs/").isPrefixOf url.path = true → url.query = [] → Asks c ls i (url.path.drop 6) := by
    intro hfront hquery
    obtain ⟨cid, hcid⟩ := List.isPrefixOf_iff_prefix.mp hfront
    refine ⟨url, hasked, ?_, hquery⟩
    rw [← hcid]
    rfl
  unfold LakeReader.route
  split_ifs with hhealth hlist hblock
  · exact h.goto ⟨url, hasked, .inl ⟨hhealth, rfl⟩⟩
  · exact h.goto (answered_listing hasked hlist hw)
  · exact h.goto trivial
  · exact h.goto trivial
  · have hlarge : Inv c w₀ ls { s with large := true } := ⟨h.each, h.receipts⟩
    exact hlarge.goto (hasks hblock.1 hblock.2)
  · exact h.goto (hasks hblock.1 hblock.2)
  · exact h.goto trivial

/-- **The receipts.** -/
theorem Inv.cover (h : Inv c w₀ ls s) (hi : s.stage i = .covering x large) (hw : Label.go i w ∈ ls) :
    Inv c w₀ ls (cover c s i w x large) := by
  have hx := h.each i
  rw [hi] at hx
  obtain ⟨hasks, hlisted⟩ := hx
  have hindex := partsOf_of_partOf hlisted.part
  unfold LakeReader.cover
  split
  · exact h.goto ⟨hasks, hlisted, Command.noConfusion⟩
  · rename_i r hheld
    split
    · exact h.goto trivial
    · rename_i r' answer hcovers
      -- they were read now, or in directories that the reader has seen with these times
      have hspec : ∃ d₁, Seen w₀ ls x.part d₁ ∧ d₁.mtimes = (w.directories x.part).mtimes ∧
          Remembers (inventoryOf x.index) c.repository d₁ r' ∧
          (answer = true → ∃ row, positionOf (inventoryOf x.index) x.cid = some row ∧ Covered d₁ row) := by
        have hnow : Seen w₀ ls x.part (w.directories x.part) := .inr ⟨i, w, hw, rfl⟩
        rcases h.receipts x.part r x.index hheld hindex with hfresh | ⟨d₀, hseen, hremembers⟩
        · obtain ⟨d₁, hd₁, hspec⟩ := @Receipts.covers_spec _ _ _ _ (w.directories x.part) (w.directories x.part) _ _ _ (.inl hfresh) hcovers
          exact ⟨d₁, hd₁.elim (fun h => h ▸ hnow) fun h => h ▸ hnow, hspec⟩
        · obtain ⟨d₁, hd₁, hspec⟩ := Receipts.covers_spec (.inr hremembers) hcovers
          exact ⟨d₁, hd₁.elim (fun h => h ▸ hnow) fun h => h ▸ hseen, hspec⟩
      obtain ⟨d₁, hseen, hmtimes, hremembers, hcovered⟩ := hspec
      -- the other inventories have the receipts that they had
      have hset : Inv c w₀ ls { s with receipts := s.receipts.set x.part (some r') } := by
        refine ⟨h.each, fun k r index hr hk => ?_⟩
        by_cases hpart : k = x.part
        · obtain rfl := Option.some.inj (hk.symm.trans (hpart ▸ hindex))
          have hlt : x.part < s.receipts.length := by
            by_contra hge
            rw [List.getElem?_eq_none (not_lt.mp hge)] at hheld
            cases hheld
          rw [hpart, List.getElem?_set_self hlt, Option.join_some] at hr
          obtain rfl := Option.some.inj hr
          exact .inr ⟨d₁, hpart ▸ hseen, hremembers⟩
        · rw [List.getElem?_set_ne (Ne.symm hpart)] at hr
          exact h.receipts k r index hr hk
      cases answer with
      | false => exact hset.goto ⟨hasks, hlisted, Command.noConfusion⟩
      | true =>
        obtain ⟨row, hrow, hcovered⟩ := hcovered rfl
        exact hset.goto ⟨hasks, hlisted, fun _ => .receipt hseen hw hmtimes hrow hcovered⟩

/-- **A turn** of a request. -/
theorem Inv.turn (h : Inv c w₀ ls s) (hw : Label.go i w ∈ ls) (hturn : turn c s i w = some s') : Inv c w₀ ls s' := by
  unfold LakeReader.turn at hturn
  split at hturn
  · rename_i url hi
    obtain rfl := Option.some.inj hturn
    exact h.route hi hw
  · rename_i cid large hi
    obtain rfl := Option.some.inj hturn
    have hasks := h.each i
    rw [hi] at hasks
    exact h.goto (stageOk_look hasks hw)
  · rename_i x large hi
    obtain rfl := Option.some.inj hturn
    exact h.cover hi hw
  · cases hturn

theorem Inv.onward (h : Inv c w₀ ls s) (hw : Label.go i w ∈ ls) : Inv c w₀ ls (onward c i w s) := by
  unfold LakeReader.onward
  cases hturn : LakeReader.turn c s i w with
  | none => exact h
  | some s' => exact h.turn hw hturn

theorem Inv.go (h : Inv c w₀ ls s) (hw : Label.go i w ∈ ls) (hgo : go c s i w = some s') : Inv c w₀ ls s' := by
  unfold LakeReader.go at hgo
  split at hgo
  · exact h.turn hw hgo
  · obtain ⟨s', hturn, rfl⟩ := Option.map_eq_some_iff.mp hgo
    exact ((h.turn hw hturn).onward hw).onward hw

/-- An answer stays as it is. -/
theorem Inv.finish (h : Inv c w₀ ls s) (hfinish : finish c s i = some s') : Inv c w₀ ls s' := by
  have hi := h.each i
  unfold LakeReader.finish at hfinish
  split at hfinish
  · rename_i hstage _
    obtain rfl := Option.some.inj hfinish
    rw [hstage] at hi
    exact (⟨h.each, h.receipts⟩ : Inv c w₀ ls { s with large := false }).goto hi
  · rename_i hstage _
    obtain rfl := Option.some.inj hfinish
    rw [hstage] at hi
    exact (⟨h.each, h.receipts⟩ : Inv c w₀ ls { s with slots := s.slots - 1 }).goto hi
  · rename_i response large hstage _
    obtain rfl := Option.some.inj hfinish
    rw [hstage] at hi
    have hgiven : Inv c w₀ ls { s with slots := s.slots - 1, large := if large then false else s.large } :=
      ⟨h.each, h.receipts⟩
    exact hgiven.goto hi
  · rename_i hstage
    obtain rfl := Option.some.inj hfinish
    rw [hstage] at hi
    exact (⟨h.each, h.receipts⟩ : Inv c w₀ ls { s with slots := s.slots - 1 }).goto hi
  · cases hfinish

theorem Inv.arrive (h : Inv c w₀ ls s) {method target : JsString} (harrive : Label.arrive i method target ∈ ls) :
    Inv c w₀ ls (arrive c s i method target) := by
  unfold LakeReader.arrive
  split_ifs with hmethod
  · refine h.goto ?_
    show Answered c w₀ ls i (wrongMethod c.language method)
    cases c.language <;> trivial
  · exact h.goto trivial
  · rw [not_not] at hmethod
    unfold enter
    split
    · rename_i url hsplit
      exact (⟨h.each, h.receipts⟩ : Inv c w₀ ls { s with slots := s.slots + 1 }).goto ⟨target, hmethod ▸ harrive, hsplit⟩
    · exact (⟨h.each, h.receipts⟩ : Inv c w₀ ls { s with slots := s.slots + 1 }).goto trivial
    · exact (⟨h.each, h.receipts⟩ : Inv c w₀ ls { s with up := false }).goto trivial

/-- **One step**, with its label. -/
theorem Inv.step {l : Label ι} (h : Inv c w₀ ls s) (hstep : step c s l = some s') : Inv c w₀ (ls ++ [l]) s' := by
  have h' : Inv c w₀ (ls ++ [l]) s := h.mono (List.subset_append_left _ _)
  have hl : l ∈ ls ++ [l] := List.mem_append_right _ (List.mem_singleton_self l)
  unfold LakeReader.step at hstep
  split_ifs at hstep
  cases l with
  | arrive i method target =>
    dsimp only at hstep
    split at hstep
    · obtain rfl := Option.some.inj hstep
      exact h'.arrive hl
    · cases hstep
  | go i w => exact h'.go hl hstep
  | reply i reply =>
    dsimp only at hstep
    split at hstep
    · rename_i command x large hi
      obtain rfl := Option.some.inj hstep
      have hrunning := h'.each i
      rw [hi] at hrunning
      exact h'.goto (stageOk_replied hrunning hl)
    · cases hstep
  | finish i => exact h'.finish hstep

/-! ## At the start -/

theorem Receipts.start_spec {language : Language} (h : Receipts.start disk index repository d language = .ok r) :
    r.Fresh ∨ Remembers (inventoryOf index) repository d r := by
  cases language with
  | python =>
    obtain ⟨_, -, h⟩ := bind_eq_ok.mp h
    obtain ⟨r', hrefresh, heq⟩ := bind_eq_ok.mp h
    obtain rfl := Except.ok.inj heq
    obtain ⟨d₁, hd₁, -, hremembers⟩ := @refresh_remembers _ _ d d _ _ (.inl rfl) hrefresh
    obtain rfl := or_self_iff.mp hd₁
    exact .inr hremembers
  | kotoba =>
    obtain rfl := Except.ok.inj h
    exact .inl rfl

omit [DecidableEq ι] in
/-- **What is read at the start.** -/
theorem receiptsOk_start {receipts : List (Option Receipts)} (h : startReceipts c w = .ok receipts) :
    ReceiptsOk c w ([] : List (Label ι)) receipts := by
  intro k r index hr hindex
  obtain ⟨hk, hget⟩ := List.getElem?_eq_some_iff.mp (Option.join_eq_some_iff.mp hr)
  have hforall := mapM_eq_ok.mp h
  have hone := (List.forall₂_iff_get.mp hforall).2 k (hforall.length_eq ▸ hk) hk
  obtain ⟨hlt, hpart⟩ := List.getElem?_eq_some_iff.mp hindex
  simp only [List.get_eq_getElem, List.getElem_zipIdx, Nat.zero_add, hget, hpart] at hone
  split_ifs at hone
  · obtain ⟨r', hstart, heq⟩ := map_eq_ok.mp hone
    obtain rfl := Option.some.inj heq
    exact (Receipts.start_spec hstart).imp_right fun hremembers => ⟨_, .inl rfl, hremembers⟩
  · exact absurd (Except.ok.inj hone).symm (Option.some_ne_none r)

/-- **Every state** of a reader. -/
theorem Reached.inv (h : Reached c w₀ ls s) : Inv c w₀ ls s := by
  induction h with
  | start hstart => exact ⟨fun _ => trivial, receiptsOk_start hstart⟩
  | step _ hstep ih => exact ih.step hstep

end LakeReader
