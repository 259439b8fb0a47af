import Yataverse.LakeReader.Served
import Yataverse.Machine.Run

/-!
# One request alone

- `Request`, `Request.next`: one request, and its next step.
- `Standing`: what has become of one request that has gone on alone.
- `Standing.go`: it goes on until it waits, in both languages.
- `Standing.finish`, `Standing.finishLarge`: it ends.
- **`Standing.seeks`**: a listed block is found, or Kubo is asked for it.
- **`Listed.served`**: a listed block that is held is served.
-/

namespace LakeReader

open Js GraphHead Fallible Lake Serve Function Machine

/-- One request, with what it finds: the disk, and what Kubo answers to a command about a CID. -/
structure Request (ι : Type) where
  id : ι
  target : JsString
  world : World
  kubo : Command → JsString → Answer

/-- What comes next for it. -/
def Request.next {ι : Type} (q : Request ι) (s : State ι) : Option (Label ι) :=
  match s.stage q.id with
  | .unborn => some (.arrive q.id (js "GET") q.target)
  | .entered _ | .looking .. | .covering .. => some (.go q.id q.world)
  | .running command x _ => some (.reply q.id (q.kubo command x.cid))
  | .settled .. | .closing _ => some (.finish q.id)
  | .done _ | .lost | .crashed => none

variable {ι : Type} [DecidableEq ι] {c : Config} {s s' s'' : State ι} {i : ι} {w : World} {q : Request ι} {stage : Stage}
  {large : Bool} {cid : JsString} {data : Bytes} {x : Wanted} {slots : Nat} {url : Url} {response : Response}

/-- What has become of one request that has gone on alone. -/
structure Standing (c : Config) (q : Request ι) (s s' : State ι) (slots : Nat) (large : Bool) (stage : Stage) : Prop where
  run : ∃ ls, Throughout (step c) (fun s l => q.next s = some l) s ls ∧ Machine.run (step c) s ls = some s'
  others : ∀ j, j ≠ q.id → s'.stage j = s.stage j
  up : s'.up = true
  slots : s'.slots = slots
  large : s'.large = large
  stage : s'.stage q.id = stage

/-- It has not come. -/
theorem Standing.start (hup : s.up = true) (hunborn : s.stage q.id = .unborn) :
    Standing c q s s s.slots s.large .unborn :=
  ⟨⟨[], trivial, rfl⟩, fun _ _ => rfl, hup, rfl, rfl, hunborn⟩

/-- One more step of it. -/
theorem Standing.step {slots' : Nat} {large' : Bool} {stage' : Stage} {l : Label ι}
    (h : Standing c q s s' slots large stage) (hl : q.next s' = some l) (hstep : step c s' l = some s'') (hup : s''.up = true)
    (hslots : s''.slots = slots') (hlarge : s''.large = large') (hstage : s''.stage = update s'.stage q.id stage') :
    Standing c q s s'' slots' large' stage' := by
  obtain ⟨ls, hls, hrun⟩ := h.run
  refine ⟨⟨ls ++ [l], hls.append hrun ⟨hl, fun _ _ => trivial⟩, ?_⟩, fun j hj => ?_, hup, hslots, hlarge,
    by rw [hstage, update_self]⟩
  · rw [run_append, hrun, Option.bind_some, run_cons, hstep]
    rfl
  · rw [hstage, update_of_ne hj, h.others j hj]

/-- A slot is free. -/
theorem Standing.arrive (h : Standing c q s s' slots large .unborn) (hfree : slots < c.maxConcurrent)
    (hsplit : c.split q.target = some url) :
    Standing c q s ({ s' with slots := s'.slots + 1 }.goto q.id (.entered url)) (slots + 1) large (.entered url) := by
  have hstep : LakeReader.step c s' (.arrive q.id (js "GET") q.target) =
      some ({ s' with slots := s'.slots + 1 }.goto q.id (.entered url)) := by
    rw [step_arrive h.up h.stage, arrive_free (h.slots.trans_lt hfree), enter, hsplit]
  refine h.step ?_ hstep h.up (congrArg (· + 1) h.slots) h.large rfl
  rw [Request.next, h.stage]

/-- Kubo answers. -/
theorem Standing.reply {command : Command} {held : Bool} (h : Standing c q s s' slots large (.running command x held)) :
    ∃ s'', Standing c q s s'' slots large (replied c command x held (q.kubo command x.cid)) := by
  have hstep : LakeReader.step c s' (.reply q.id (q.kubo command x.cid)) =
      some (s'.goto q.id (replied c command x held (q.kubo command x.cid))) := by
    unfold LakeReader.step
    rw [if_pos h.up]
    dsimp only
    rw [h.stage]
  refine ⟨_, h.step ?_ hstep h.up h.slots h.large rfl⟩
  rw [Request.next, h.stage]

/-- **What is settled is answered**, and both slots are given back. -/
theorem Standing.finish (h : Standing c q s s' (slots + 1) large (.settled response false)) :
    ∃ s'', Standing c q s s'' slots large (.done response) := by
  have hstep := step_finish (c := c) (i := q.id) h.up
  have hnext : q.next s' = some (.finish q.id) := by rw [Request.next, h.stage]
  have hslots : s'.slots - 1 = slots := by
    rw [h.slots]
    rfl
  unfold LakeReader.finish at hstep
  rw [h.stage] at hstep
  cases hlanguage : c.language with
  | python =>
    rw [hlanguage] at hstep
    exact ⟨_, h.step hnext hstep h.up hslots h.large rfl⟩
  | kotoba =>
    rw [hlanguage] at hstep
    exact ⟨_, h.step hnext hstep h.up hslots h.large rfl⟩

theorem Standing.finishLarge (h : Standing c q s s' (slots + 1) true (.settled response true)) :
    ∃ s'', Standing c q s s'' slots false (.done response) := by
  have hstep := step_finish (c := c) (i := q.id) h.up
  have hnext : q.next s' = some (.finish q.id) := by rw [Request.next, h.stage]
  unfold LakeReader.finish at hstep
  rw [h.stage] at hstep
  cases hlanguage : c.language with
  | python =>
    rw [hlanguage] at hstep
    have hclosing := @Standing.step _ _ _ _ _ _ _ _ _ _ (slots + 1) false (.closing response) _ h hnext hstep h.up h.slots
      rfl rfl
    -- the first step gives the slot for large blocks back, the second one the other slot
    have hstep' : LakeReader.step c ({ s' with large := false }.goto q.id (.closing response)) (.finish q.id) =
        some ({ { s' with large := false }.goto q.id (.closing response) with slots := s'.slots - 1 }.goto q.id
          (.done response)) := by
      unfold LakeReader.step LakeReader.finish
      rw [if_pos hclosing.up]
      dsimp only
      rw [goto_self, hlanguage]
      rfl
    refine ⟨_, hclosing.step ?_ hstep' h.up ?_ rfl rfl⟩
    · rw [Request.next, hclosing.stage]
    · show s'.slots - 1 = slots
      rw [h.slots]
      rfl
  | kotoba =>
    rw [hlanguage] at hstep
    refine ⟨_, h.step hnext hstep h.up ?_ rfl rfl⟩
    show s'.slots - 1 = slots
    rw [h.slots]
    rfl

/-! ### Turns -/

/-- A turn is one of its request. -/
theorem turn_moves (h : turn c s i w = some s') : s'.up = s.up ∧ s'.stage = update s.stage i (s'.stage i) := by
  have hgoto : ∀ {s₀ : State ι} {stage : Stage}, s₀.up = s.up → s₀.stage = s.stage →
      (s₀.goto i stage).up = s.up ∧ (s₀.goto i stage).stage = update s.stage i ((s₀.goto i stage).stage i) := by
    intro s₀ stage hup hstage
    refine ⟨hup, ?_⟩
    rw [goto_self]
    exact congrArg (update · i stage) hstage
  unfold turn at h
  split at h
  · obtain rfl := Option.some.inj h
    unfold route
    split_ifs <;> exact hgoto rfl rfl
  · obtain rfl := Option.some.inj h
    exact hgoto rfl rfl
  · obtain rfl := Option.some.inj h
    unfold cover
    split
    · exact hgoto rfl rfl
    · split <;> exact hgoto rfl rfl
  · cases h

theorem onward_moves : (onward c i w s).up = s.up ∧ (onward c i w s).stage = update s.stage i ((onward c i w s).stage i) := by
  unfold onward
  cases h : turn c s i w with
  | none => exact ⟨rfl, (update_eq_self i s.stage).symm⟩
  | some s' => exact turn_moves h

/-- Only some stages have a turn. -/
theorem next_of_turn (h : turn c s q.id w = some s') : q.next s = some (.go q.id q.world) := by
  unfold turn at h
  unfold Request.next
  split at h
  · rename_i hi
    rw [hi]
  · rename_i hi
    rw [hi]
  · rename_i hi
    rw [hi]
  · cases h

/-- Python goes on turn by turn. -/
theorem Standing.onward (h : Standing c q s s' slots large stage) (hpython : c.language = .python) {t : State ι}
    (ht : LakeReader.onward c q.id q.world s' = t) : Standing c q s t t.slots t.large (t.stage q.id) := by
  subst ht
  obtain ⟨hup, hstage⟩ := @onward_moves _ _ c s' q.id q.world
  cases hturn : turn c s' q.id q.world with
  | none =>
    have heq : LakeReader.onward c q.id q.world s' = s' := by rw [LakeReader.onward, hturn, Option.getD_none]
    rw [heq, h.slots, h.large, h.stage]
    exact h
  | some s'' =>
    have hstep : LakeReader.step c s' (.go q.id q.world) = some (LakeReader.onward c q.id q.world s') := by
      unfold LakeReader.step go
      rw [if_pos h.up]
      dsimp only
      rw [hpython, LakeReader.onward, hturn]
      rfl
    exact h.step (next_of_turn hturn) hstep (hup.trans h.up) rfl rfl hstage

/-- **A request goes on** until it waits, in both languages. -/
theorem Standing.go (h : Standing c q s s' slots large stage) (hturn : turn c s' q.id q.world = some s'') {t : State ι}
    (ht : LakeReader.onward c q.id q.world (LakeReader.onward c q.id q.world s'') = t) :
    Standing c q s t t.slots t.large (t.stage q.id) := by
  have hfirst : LakeReader.onward c q.id q.world s' = s'' := by rw [LakeReader.onward, hturn, Option.getD_some]
  cases hlanguage : c.language with
  -- three steps of Python are one of Kotoba
  | python => exact ((h.onward hlanguage hfirst).onward hlanguage rfl).onward hlanguage ht
  | kotoba =>
    subst ht
    obtain ⟨hup, hstage⟩ := turn_moves hturn
    obtain ⟨hup₁, hstage₁⟩ := @onward_moves _ _ c s'' q.id q.world
    obtain ⟨hup₂, hstage₂⟩ := @onward_moves _ _ c (LakeReader.onward c q.id q.world s'') q.id q.world
    have hstep : LakeReader.step c s' (.go q.id q.world) =
        some (LakeReader.onward c q.id q.world (LakeReader.onward c q.id q.world s'')) := by
      unfold LakeReader.step LakeReader.go
      rw [if_pos h.up]
      dsimp only
      rw [hlanguage, hturn]
      rfl
    refine h.step (next_of_turn hturn) hstep ((hup₂.trans (hup₁.trans hup)).trans h.up) rfl rfl ?_
    rw [hstage₂, hstage₁, hstage, update_idem, update_idem, update_self]

/-! ### Blocks -/

/-- A request for a block that is not too large for now. -/
theorem route_block {size : Nat} (hpath : url.path = js "/ipfs/" ++ cid) (hquery : url.query = []) (hre : readerRe cid = true)
    (hget : (sizesOf c.source).get cid = some size) (hlarge : s.large = false ∨ size ≤ largeBlockThreshold) :
    route c s i w url = { s with large := s.large || decide (largeBlockThreshold < size) }.goto i
      (.looking cid (decide (largeBlockThreshold < size))) := by
  have htwo : url.path.take 2 = (js "/ipfs/").take 2 := by
    rw [hpath]
    exact List.take_append_of_le_length (by decide)
  have hhealth : url.path ≠ js "/health" := by
    intro h
    rw [h] at htwo
    exact absurd htwo (by decide)
  have hlist : url.path ≠ js "/api/v1/lake/blocks" := by
    intro h
    rw [h] at htwo
    exact absurd htwo (by decide)
  have hfront : (js "/ipfs/").isPrefixOf url.path = true := by
    rw [hpath]
    exact List.isPrefixOf_iff_prefix.mpr (List.prefix_append _ _)
  have hcid : url.path.drop 6 = cid := by
    rw [hpath]
    exact List.drop_left' rfl
  unfold route
  rw [if_neg hhealth, if_neg hlist, if_pos ⟨hfront, hquery⟩, hcid, if_neg (by rw [hre]; exact Bool.false_ne_true ∘ Eq.symm), hget,
    Option.getD_some]
  by_cases hsize : largeBlockThreshold < size
  · have hfree := hlarge.resolve_right (not_le.mpr hsize)
    rw [if_pos hsize, if_neg (by rw [hfree]; exact Bool.false_ne_true), decide_eq_true hsize, Bool.or_true]
  · rw [if_neg hsize, decide_eq_false hsize, Bool.or_false]

/-- The raw block store does not have a block, if there is one. -/
def NotRaw (c : Config) (q : Request ι) (cid : JsString) : Prop :=
  c.raw = true → RawBlockStore.read c.nc (implOf c.language) cid c.maxBytes q.world.raw = .ok none

/-- Kubo keeps a block: a pin of its own, or one that it is under. -/
inductive Pins (c : Config) (q : Request ι) (cid : JsString) : Prop
  | direct {out : Bytes} (h : q.kubo .direct cid = .exited 0 out) (hline : lineWritten c.language out = cid ++ js " direct")
  | pinned {code : Int} {out' out : Bytes} (hdirect : q.kubo .direct cid = .exited code out')
    (h : q.kubo .all cid = .exited 0 out) (hline : pinnedLine cid (lineWritten c.language out) = true)

/-- Where a block is that is wanted. -/
inductive Held (c : Config) (s : State ι) (q : Request ι) (x : Wanted) (data : Bytes) : Prop
  | raw (hraw : c.raw = true)
    (hread : RawBlockStore.read c.nc (implOf c.language) x.cid c.maxBytes q.world.raw = .ok (some data))
  | receipt {r r' : Receipts} (hraw : NotRaw c q x.cid) (hr : (s.receipts[x.part]?).join = some r)
    (hcovers : r.covers q.world.disk x.index c.repository (q.world.directories x.part) x.cid = .ok (r', true))
    (hget : q.kubo .get x.cid = .exited 0 data)
  | pin (hraw : NotRaw c q x.cid)
    (hreceipts : ∀ r, (s.receipts[x.part]?).join = some r → ∃ answer,
      r.covers q.world.disk x.index c.repository (q.world.directories x.part) x.cid = .ok answer)
    (hpins : Pins c q x.cid) (hget : q.kubo .get x.cid = .exited 0 data)

theorem look_raw (hlisted : Listed c x) (hraw : c.raw = true)
    (hread : RawBlockStore.read c.nc (implOf c.language) x.cid c.maxBytes w.raw = .ok (some data))
    (hlength : data.length = x.size) (large : Bool) : look c w x.cid large = .settled (.block data) large := by
  unfold look
  rw [hlisted.part]
  dsimp only
  rw [hlisted.size]
  dsimp only
  rw [if_neg (not_lt.mpr hlisted.le), if_pos hraw, hread]
  exact if_pos hlength

omit [DecidableEq ι] in
theorem look_covering (hlisted : Listed c x) (hraw : NotRaw c q x.cid) (large : Bool) :
    look c q.world x.cid large = .covering x large := by
  unfold look
  rw [hlisted.part]
  dsimp only
  rw [hlisted.size]
  dsimp only
  rw [if_neg (not_lt.mpr hlisted.le)]
  by_cases h : c.raw = true
  · rw [if_pos h, hraw h]
  · exact if_neg h

theorem cover_none (h : (s.receipts[x.part]?).join = none) : cover c s i w x large = s.goto i (.running .direct x large) := by
  unfold cover
  rw [h]

theorem cover_some {r r' : Receipts} {answer : Bool} (h : (s.receipts[x.part]?).join = some r)
    (hcovers : r.covers w.disk x.index c.repository (w.directories x.part) x.cid = .ok (r', answer)) :
    cover c s i w x large = { s with receipts := s.receipts.set x.part (some r') }.goto i
      (.running (if answer then .get else .direct) x large) := by
  unfold cover
  rw [h]
  dsimp only
  rw [hcovers]

/-- **The turns of a request** for a listed block: it is found, or Kubo is asked. -/
theorem Standing.seeks (h : Standing c q s s' slots large (.entered url)) (hreceipts : s'.receipts = s.receipts)
    (hpath : url.path = js "/ipfs/" ++ x.cid) (hquery : url.query = []) (hre : readerRe x.cid = true) (hlisted : Listed c x)
    (hget : (sizesOf c.source).get x.cid = some x.size) (hlarge : large = false ∨ x.size ≤ largeBlockThreshold)
    (hlength : data.length = x.size) (hheld : Held c s q x data) :
    ∃ s'' stage, Standing c q s s'' slots (large || decide (largeBlockThreshold < x.size)) stage ∧
      (stage = .settled (.block data) (decide (largeBlockThreshold < x.size)) ∨ q.kubo .get x.cid = .exited 0 data ∧
        (stage = .running .get x (decide (largeBlockThreshold < x.size)) ∨
          stage = .running .direct x (decide (largeBlockThreshold < x.size)) ∧ Pins c q x.cid)) := by
  have hfree : s'.large = false ∨ x.size ≤ largeBlockThreshold := by
    rw [h.large]
    exact hlarge
  have hturn : turn c s' q.id q.world = some (route c s' q.id q.world url) := by
    unfold turn
    rw [h.stage]
  rw [route_block hpath hquery hre hget hfree, h.large] at hturn
  generalize decide (largeBlockThreshold < x.size) = held at hturn ⊢
  have hlook : LakeReader.onward c q.id q.world ({ s' with large := large || held }.goto q.id (.looking x.cid held)) =
      { s' with large := large || held }.goto q.id (look c q.world x.cid held) := by
    unfold LakeReader.onward turn
    rw [goto_self]
    dsimp only [State.goto, Option.getD_some]
    rw [update_idem]
  have hcover : look c q.world x.cid held = .covering x held → LakeReader.onward c q.id q.world
      ({ s' with large := large || held }.goto q.id (look c q.world x.cid held)) =
        cover c ({ s' with large := large || held }.goto q.id (.covering x held)) q.id q.world x held := by
    intro hlook
    unfold LakeReader.onward turn
    rw [hlook, goto_self]
    rfl
  -- the receipts are as they were before the request came
  have hsame : (({ s' with large := large || held }.goto q.id (.covering x held)).receipts[x.part]?).join =
      (s.receipts[x.part]?).join := congrArg (fun receipts => (receipts[x.part]?).join) hreceipts
  cases hheld with
  | raw hraw hread =>
    have hfound := look_raw hlisted hraw hread hlength held
    rw [hfound] at hlook
    have hstay : LakeReader.onward c q.id q.world ({ s' with large := large || held }.goto q.id (.settled (.block data) held)) =
        { s' with large := large || held }.goto q.id (.settled (.block data) held) := by
      unfold LakeReader.onward turn
      rw [goto_self]
      rfl
    have hgo := h.go hturn (by rw [hlook, hstay])
    rw [goto_self] at hgo
    exact ⟨_, _, h.slots ▸ hgo, .inl rfl⟩
  | @receipt r r' hraw hr hcovers hkubo =>
    have hgo := h.go hturn (by rw [hlook, hcover (look_covering hlisted hraw held)])
    rw [cover_some (hsame.trans hr) hcovers, goto_self] at hgo
    exact ⟨_, _, h.slots ▸ hgo, .inr ⟨hkubo, .inl rfl⟩⟩
  | pin hraw hcovers hpins hkubo =>
    have hgo := h.go hturn (by rw [hlook, hcover (look_covering hlisted hraw held)])
    cases hr : (s.receipts[x.part]?).join with
    | none =>
      rw [cover_none (hsame.trans hr), goto_self] at hgo
      exact ⟨_, _, h.slots ▸ hgo, .inr ⟨hkubo, .inr ⟨rfl, hpins⟩⟩⟩
    | some r =>
      obtain ⟨⟨r', answer⟩, hanswer⟩ := hcovers r hr
      rw [cover_some (hsame.trans hr) hanswer, goto_self] at hgo
      refine ⟨_, _, h.slots ▸ hgo, .inr ⟨hkubo, ?_⟩⟩
      cases answer with
      | true => exact .inl rfl
      | false => exact .inr ⟨rfl, hpins⟩

/-- Kubo is asked about the pins. -/
theorem Standing.pinned {held : Bool} (h : Standing c q s s' slots large (.running .direct x held)) (hpins : Pins c q x.cid) :
    ∃ s'', Standing c q s s'' slots large (.running .get x held) := by
  obtain ⟨s₁, h₁⟩ := h.reply
  unfold replied at h₁
  cases hpins with
  | direct hdirect hline =>
    rw [hdirect] at h₁
    dsimp only at h₁
    rw [if_pos ⟨rfl, hline⟩] at h₁
    exact ⟨s₁, h₁⟩
  | @pinned code out' out hdirect hall hline =>
    rw [hdirect] at h₁
    dsimp only at h₁
    split_ifs at h₁
    · exact ⟨s₁, h₁⟩
    · obtain ⟨s₂, h₂⟩ := h₁.reply
      unfold replied at h₂
      rw [hall] at h₂
      dsimp only at h₂
      rw [if_pos ⟨rfl, hline⟩] at h₂
      exact ⟨s₂, h₂⟩

/-- Kubo has the block. -/
theorem Standing.gets {held : Bool} (h : Standing c q s s' slots large (.running .get x held)) (hverified : Verified c x data)
    (hkubo : q.kubo .get x.cid = .exited 0 data) :
    ∃ s'', Standing c q s s'' slots large (.settled (.block data) held) := by
  obtain ⟨s'', h'⟩ := h.reply
  have hreplied : replied c .get x held (.exited 0 data) = .settled (.block data) held := by
    unfold replied
    dsimp only
    rw [if_pos ⟨rfl, hverified.length⟩, hverified.verified]
  rw [hkubo, hreplied] at h'
  exact ⟨s'', h'⟩

/-- **A listed block that is held** is served. -/
theorem Listed.served (hlisted : Listed c x) (hget : (sizesOf c.source).get x.cid = some x.size) (hre : readerRe x.cid = true)
    (hverified : Verified c x data) (hheld : Held c s q x data) (hup : s.up = true) (hunborn : s.stage q.id = .unborn)
    (hfree : s.slots < c.maxConcurrent) (hlarge : s.large = false ∨ x.size ≤ largeBlockThreshold)
    (hsplit : c.split q.target = some url) (hpath : url.path = js "/ipfs/" ++ x.cid) (hquery : url.query = []) :
    ∃ s', Standing c q s s' s.slots s.large (.done (.block data)) := by
  have hentered := (Standing.start hup hunborn).arrive hfree hsplit
  obtain ⟨s₁, stage, hsought, hstage⟩ :=
    hentered.seeks rfl hpath hquery hre hlisted hget hlarge hverified.length hheld
  have hsettled : ∃ s₂, Standing c q s s₂ (s.slots + 1) (s.large || decide (largeBlockThreshold < x.size))
      (.settled (.block data) (decide (largeBlockThreshold < x.size))) := by
    rcases hstage with rfl | ⟨hkubo, rfl | ⟨rfl, hpins⟩⟩
    · exact ⟨s₁, hsought⟩
    · exact hsought.gets hverified hkubo
    · obtain ⟨s₂, hpinned⟩ := hsought.pinned hpins
      exact hpinned.gets hverified hkubo
  obtain ⟨s₂, hsettled⟩ := hsettled
  by_cases hbig : largeBlockThreshold < x.size
  · have hnone := hlarge.resolve_right (not_le.mpr hbig)
    rw [decide_eq_true hbig, Bool.or_true] at hsettled
    rw [hnone]
    exact hsettled.finishLarge
  · rw [decide_eq_false hbig, Bool.or_false] at hsettled
    exact hsettled.finish

end LakeReader
