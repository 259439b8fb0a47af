import Yataverse.Writer.Rules

/-!
# What each part of a write does

One rule for each task of the writer, over any outside whose witnesses show committed
documents, and for any request among any others. `latest`, `timely` and `recent` are
assumptions that some results make and others do not:

- `latest`: the witnesses show the last document;
- `timely`: no poll of a submission that is committed shows a later head
  (`Timely`);
- `recent`: no cached document that a write is answered from was behind the log when the
  request arrived (`Recent`).
-/

namespace Writer

open Js GraphHead EventLoop LakeHead Function FirstWins

section

variable {ω ι X : Type} [DecidableEq ω]

/-- A poll does not show a head past a submission of its own that is committed. -/
def Timely (opts : Opts) (o : Outside ι X) (i : ι) (e : Lake ι) : Cmd ι → X → Prop
  | .poll graph seq cid, x => ∀ reports seq' cid',
      o.ask e (.poll graph seq cid) x = some (some reports) →
      verdict reports opts.landed = .verified seq' cid' → seq.lt seq' = true →
      ∀ n : Nat, seq = .int n → (e.log graph)[n]? ≠ some ⟨i, graph, seq, cid⟩
  | _, _ => True

/-- A write that is answered from the cache is answered with a document that was the
last one when the request arrived in the world `v`, or has been committed since. -/
def Recent (nc : NodeCrypto) (opts : Opts) (reqs : ι → ω × Request) (i : ι)
    (v : (ω → Memory ι) × Lake ι) (t : Step ω ι Response) (w : (ω → Memory ι) × Lake ι) : Prop :=
  ∀ graph expected head cur, t = afterJoin nc opts (reqs i).1 graph expected head →
    (w.1 (reqs i).1).cache graph = some cur → decide expected head cur.doc = .ok .commit →
    ∀ n : Nat, cur.seq = .int n → (v.2.log graph).length ≤ n + 1

/-- The assumptions as a guard. -/
def guard (nc : NodeCrypto) (opts : Opts) (reqs : ι → ω × Request) (o : Outside ι X)
    (timely recent : Prop) :
    Guard ι (ω → Memory ι) (Lake ι) (Cmd ι) X Cmd.Reply Err Response where
  turn i v t w := recent → Recent nc opts reqs i v t w
  serve i e q x := timely → Timely opts o i e q x

variable {α : Type} {nc : NodeCrypto} {opts : Opts} {reqs : ι → ω × Request}
  {o : Outside ι X} {latest timely recent : Prop} {i : ι} {v w₀ : (ω → Memory ι) × Lake ι}
  {graph : JsString}

/-- A task of request `i` is run within its guarantee and ends within `Q`. -/
abbrev Runs (nc : NodeCrypto) (opts : Opts) (reqs : ι → ω × Request) (o : Outside ι X)
    (timely : Prop) (i : ι) (pre : Step ω ι α → (ω → Memory ι) × Lake ι → Prop)
    (Q : Except Err α → (ω → Memory ι) × Lake ι → Prop) :
    Step ω ι α → (ω → Memory ι) × Lake ι → Prop :=
  Ok (exec o) (guard nc opts reqs o timely False).serve (discipline nc opts reqs) i pre Q

/-- The world has moved from `w₀` by what others may do, and the invariant holds. -/
def Moved (nc : NodeCrypto) (opts : Opts) (reqs : ι → ω × Request) (i : ι)
    (w₀ w : (ω → Memory ι) × Lake ι) : Prop :=
  (discipline nc opts reqs).Rely i w₀ w ∧ Inv nc opts reqs w

theorem Moved.trans {w w' : (ω → Memory ι) × Lake ι} (h : Moved nc opts reqs i w₀ w)
    (h' : Moved nc opts reqs i w w') : Moved nc opts reqs i w₀ w' :=
  ⟨(discipline nc opts reqs).rely_trans i _ _ _ h.1 h'.1, h'.2⟩

theorem Beaten.moved {w : (ω → Memory ι) × Lake ι} (h : Beaten i w₀.2)
    (hm : Moved nc opts reqs i w₀ w) : Beaten i w.2 :=
  fun m hs hi => (h m (hm.1.2 m hs hi) hi).grows hm.1.1

/-! ## Rules -/

@[simp] theorem runs_lift {x : Except Err α} {pre : Step ω ι α → (ω → Memory ι) × Lake ι → Prop}
    {Q : Except Err α → (ω → Memory ι) × Lake ι → Prop} :
    Runs nc opts reqs o timely i pre Q (lift x) w₀ ↔ Q x w₀ := by
  cases x <;> rfl

/-- A read of the memory: the rest runs on what it holds. -/
theorem runs_reads {β : Type} {f : (ω → Memory ι) → β} {k : β → Step ω ι α}
    {pre : Step ω ι α → (ω → Memory ι) × Lake ι → Prop}
    {Q : Except Err α → (ω → Memory ι) × Lake ι → Prop} :
    Runs nc opts reqs o timely i pre Q ((Task.reads f).bind k) w₀ ↔
      Runs nc opts reqs o timely i pre Q (k (f w₀.1)) w₀ := Iff.rfl

/-- A command that only asks: the rest runs from wherever the others take the world. -/
theorem runs_ask {pre : Step ω ι α → (ω → Memory ι) × Lake ι → Prop}
    {Q : Except Err α → (ω → Memory ι) × Lake ι → Prop} {q : Cmd ι} {k : q.Reply → Step ω ι α}
    (hq : ∀ fin e x, exec o i fin e q x = (o.ask e q x).map fun r => (r, e))
    (h : ∀ w x r, Moved nc opts reqs i w₀ w → (timely → Timely opts o i w.2 q x) →
      o.ask w.2 q x = some r → ∀ w', Moved nc opts reqs i w w' →
        Runs nc opts reqs o timely i pre Q (k r) w') :
    Runs nc opts reqs o timely i pre Q (.await q k) w₀ := by
  intro w hr hi fin x r e' hs hx
  rw [hq] at hx
  obtain ⟨r', hr', heq⟩ := Option.map_eq_some_iff.mp hx
  cases heq
  exact ⟨hi, ⟨rfl, fun m hm => .inr hm⟩, fun w' h₁ h₂ _ =>
    h w x r ⟨hr, hi⟩ hs hr' w' ⟨h₁, h₂⟩⟩

/-- An update of the caches with committed documents, or of the files and queues. -/
theorem runs_modify {pre : Step ω ι Unit → (ω → Memory ι) × Lake ι → Prop}
    {Q : Except Err Unit → (ω → Memory ι) × Lake ι → Prop}
    {f : (ω → Memory ι) → ω → Memory ι}
    (hi : Inv nc opts reqs (f w₀.1, w₀.2)) (hQ : Q (.ok ()) (f w₀.1, w₀.2)) :
    Runs nc opts reqs o timely i pre Q (Task.modify f) w₀ :=
  ⟨hi, ⟨rfl, fun _ hm => .inr hm⟩, hQ⟩

theorem Inv.setCache (h : Inv nc opts reqs w₀) {u : ω} {c : Option Cur}
    (hc : ∀ c', c = some c' → Held nc w₀.2 graph c') :
    Inv nc opts reqs (setCache u graph c w₀.1, w₀.2) := by
  refine ⟨h.ordered, h.chain, h.proposals, h.short, fun u' g c' hc' => ?_⟩
  by_cases hu : u' = u
  · subst hu
    by_cases hg : g = graph
    · subst hg
      exact hc c' (by simpa [Writer.setCache] using hc')
    · exact h.cache u' g c' (by simpa [Writer.setCache, hg] using hc')
  · exact h.cache u' g c' (by simpa [Writer.setCache, hu] using hc')

theorem Inv.setTail (h : Inv nc opts reqs w₀) {u : ω} {j : ι} :
    Inv nc opts reqs (setTail u graph j w₀.1, w₀.2) := by
  refine ⟨h.ordered, h.chain, h.proposals, h.short, fun u' g c' hc' => h.cache u' g c' ?_⟩
  by_cases hu : u' = u
  · subst hu
    simpa [Writer.setTail] using hc'
  · simpa [Writer.setTail, hu] using hc'

theorem Inv.writeOut (h : Inv nc opts reqs w₀) {u : ω} {cid : JsString} {data : Bytes} :
    Inv nc opts reqs (writeOut u cid data w₀.1, w₀.2) := by
  refine ⟨h.ordered, h.chain, h.proposals, h.short, fun u' g c' hc' => h.cache u' g c' ?_⟩
  by_cases hu : u' = u
  · subst hu
    simpa [Writer.writeOut] using hc'
  · simpa [Writer.writeOut, hu] using hc'

/-! ## Reading -/

theorem docOfData_ok {cid : JsString} {data : Option Bytes} {doc : Json}
    (h : docOfData nc cid data = .ok doc) :
    doc = .null ∨ ∃ d, rawCid nc d = cid ∧ parseJson d = some doc := by
  cases data with
  | none => exact .inl (Except.ok.inj h).symm
  | some d =>
    simp only [docOfData] at h
    split at h
    case isFalse => cases h
    case isTrue hc =>
    split at h
    case h_1 => cases h
    case h_2 doc' hd =>
    obtain rfl := Except.ok.inj h
    exact .inr ⟨d, hc.symm, hd⟩

theorem checkDoc_ok {seq : Number} {cid : JsString} {doc : Json} {c : Cur}
    (h : checkDoc graph seq cid doc = .ok c) : c = ⟨seq, cid, doc⟩ ∧ doc.truthy = true := by
  unfold checkDoc at h
  split_ifs at h with h₁ h₂
  exact ⟨(Except.ok.inj h).symm, by simpa using h₁⟩

theorem runs_readDoc {pre : Step ω ι Json → (ω → Memory ι) × Lake ι → Prop} {u : ω} {cid : JsString}
    (hi : Inv nc opts reqs w₀) :
    Runs nc opts reqs o timely i pre (fun r w => Moved nc opts reqs i w₀ w ∧ ∀ doc, r = .ok doc →
      doc = .null ∨ ∃ d, rawCid nc d = cid ∧ parseJson d = some doc) (readDoc nc u cid) w₀ := by
  refine Ok.bind (P := fun r w => Moved nc opts reqs i w₀ w) (fun data w hw => ?_)
    (fun e w hw => ⟨hw, fun doc hd => by cases hd⟩) ?_
  · exact runs_lift.mpr ⟨hw, fun doc hd => docOfData_ok hd⟩
  · have hself : Moved nc opts reqs i w₀ w₀ := ⟨(discipline nc opts reqs).rely_refl i _, hi⟩
    cases hf : (w₀.1 u).out cid with
    | some data =>
      refine runs_reads.mpr ?_
      rw [hf]
      exact hself
    | none =>
      refine runs_reads.mpr ?_
      rw [hf]
      exact runs_ask (fun _ _ _ => rfl) fun w x r hw _ _ w' hw' => hw.trans hw'

/-- A document that the witnesses have shown since the world `v`. -/
def Read (nc : NodeCrypto) (latest : Prop) (v w : (ω → Memory ι) × Lake ι) (graph : JsString)
    (c : Cur) : Prop :=
  Held nc w.2 graph c ∧ (latest → ∀ n : Nat, c.seq = .int n → (v.2.log graph).length ≤ n + 1)

/-- **`current`**: the document it returns is committed, and it is the last one if the
witnesses show the last one. -/
theorem runs_current {pre : Step ω ι (Option Cur) → (ω → Memory ι) × Lake ι → Prop} {u : ω}
    (ho : o.Honest latest) (hv : Grows v.2 w₀.2) :
    Runs nc opts reqs o timely i pre (fun r w => Moved nc opts reqs i w₀ w ∧
      ∀ c, r = .ok (some c) → Read nc latest v w graph c) (current nc u graph) w₀ := by
  refine runs_ask (fun _ _ _ => rfl) fun w x p hw _ hask w' hw' => ?_
  have hm := hw.trans hw'
  refine Ok.bind (P := fun r w => r = witnessHead p ∧ w = w') (fun head w'' hh => ?_)
    (fun e w'' hh => ?_) (runs_lift.mpr ⟨rfl, rfl⟩)
  · obtain ⟨hh, rfl⟩ := hh
    cases head with
    | none => exact ⟨hm, nofun⟩
    | some head =>
    obtain ⟨seq, cid⟩ := head
    obtain ⟨n, m, rfl, hlog, hcid, hlast⟩ := ho.verify _ _ _ _ _ _ hask hh.symm
    refine Ok.bind (fun doc w'' hd => ?_) (fun e w'' hd => ⟨hm.trans hd.1, nofun⟩)
      (runs_readDoc hm.2)
    obtain ⟨hd, hdoc⟩ := hd
    refine Ok.bind (P := fun r w => r = checkDoc graph (.int n) cid doc ∧ w = w'')
      (fun c w₃ hc => ?_) (fun e w₃ hc => ?_) (runs_lift.mpr ⟨rfl, rfl⟩)
    · obtain ⟨hc, rfl⟩ := hc
      refine ⟨hm.trans hd, fun c' hc' => ?_⟩
      cases hc'
      obtain ⟨rfl, ht⟩ := checkDoc_ok hc.symm
      rcases hdoc doc rfl with rfl | ⟨d, hraw, hparse⟩
      · cases ht
      · refine ⟨⟨n, m, rfl, ?_, hcid, d, by rw [hraw, hcid], hparse⟩, fun hl k hk => ?_⟩
        · exact (hw'.trans hd).1.1.get hlog
        · obtain rfl : n = k := by
            have := Number.int.inj hk
            omega
          rw [← hlast hl]
          exact (hv.trans hw.1.1).length_le graph
    · obtain ⟨-, rfl⟩ := hc
      exact ⟨hm.trans hd, nofun⟩
  · obtain ⟨-, rfl⟩ := hh
    exact ⟨hm, nofun⟩

/-! ## Submitting -/

/-- Request `i` is about to send, or has sent, `msg`; its other submissions are lost. -/
structure Sending (nc : NodeCrypto) (opts : Opts) (reqs : ι → ω × Request) (timely : Prop)
    (v : (ω → Memory ι) × Lake ι) (msg : Message ι) (w : (ω → Memory ι) × Lake ι) : Prop where
  inv : Inv nc opts reqs w
  since : Grows v.2 w.2
  proposal : Proposal nc opts reqs w.2 msg
  others : timely → ∀ m ∈ w.2.sent, m.request = msg.request →
    m = msg ∨ Lost Message.graph Message.slot w.2 m

/-- What the end of `submit` says: code 0, that the document is committed, as the last one
if the witnesses show the last one; code 1, that nothing of this request is committed. -/
structure Ended (nc : NodeCrypto) (opts : Opts) (reqs : ι → ω × Request) (latest timely : Prop)
    (v : (ω → Memory ι) × Lake ι) (msg : Message ι) (outcome : Outcome)
    (w : (ω → Memory ι) × Lake ι) : Prop where
  inv : Inv nc opts reqs w
  since : Grows v.2 w.2
  landed : outcome.code = 0 →
    ∃ (n : Nat) (m : Message ι), msg.seq = .int n ∧ (w.2.log msg.graph)[n]? = some m ∧
      m.cid = msg.cid ∧ (latest → (v.2.log msg.graph).length ≤ n + 1)
  beaten : outcome.code = 1 → timely → Beaten msg.request w.2

section Submit

variable {msg : Message ι} {w : (ω → Memory ι) × Lake ι}

theorem Sending.moved (h : Sending nc opts reqs timely v msg w₀)
    (hm : Moved nc opts reqs msg.request w₀ w) : Sending nc opts reqs timely v msg w where
  inv := hm.2
  since := h.since.trans hm.1.1
  proposal := h.proposal.grows hm.1.1
  others ht m hs hi := (h.others ht m (hm.1.2 m hs hi) hi).imp_right fun hl => hl.grows hm.1.1

omit [DecidableEq ω] in
/-- An end that says nothing. -/
theorem Sending.ended (h : Sending nc opts reqs timely v msg w) {outcome : Outcome}
    (h₀ : outcome.code ≠ 0) (h₁ : outcome.code ≠ 1) :
    Ended nc opts reqs latest timely v msg outcome w where
  inv := h.inv
  since := h.since
  landed hc := absurd hc h₀
  beaten hc := absurd hc h₁

omit [DecidableEq ω] in
/-- A submission whose slot is taken by another one: all of the request are lost. -/
theorem Sending.beaten (h : Sending nc opts reqs timely v msg w) (ht : timely)
    (hl : Lost Message.graph Message.slot w.2 msg) : Beaten msg.request w.2 := by
  intro m hm hi
  rcases h.others ht m hm hi with rfl | h
  · exact hl
  · exact h

omit [DecidableEq ω] in
/-- What a poll that settles the submission says. -/
theorem Sending.settled (ho : o.Honest latest) (h : Sending nc opts reqs timely v msg w) {x : X}
    {reports : List Report} {outcome : Outcome} {k : Nat} (hk : msg.seq = .int k)
    (ht : timely → Timely opts o msg.request w.2 (.poll msg.graph msg.seq msg.cid) x)
    (hask : o.ask w.2 (.poll msg.graph msg.seq msg.cid) x = some (some reports))
    (hs : settle msg.seq msg.cid (verdict reports opts.landed) = some outcome) :
    Ended nc opts reqs latest timely v msg outcome w := by
  have hshown : ∀ seq cid, verdict reports opts.landed = .verified seq cid →
      Shown latest w.2 msg.graph seq cid := fun seq cid hv =>
    ho.poll _ _ _ _ _ _ _ _ hask (verdict_verified hv)
  have hslot : msg.slot = some k := slot_eq_some.mpr hk
  rcases settle_eq_some hs with ⟨rfl, hv⟩ | ⟨cid', rfl, hv, hne⟩ | ⟨seq', cid', rfl, hv, hlt⟩
  · obtain ⟨n, m, hn, hlog, hcid, hlast⟩ := hshown _ _ hv
    refine ⟨h.inv, h.since, fun _ => ⟨n, m, hn, hlog, hcid, fun hl => ?_⟩, nofun⟩
    rw [← hlast hl]
    exact h.since.length_le _
  · obtain ⟨n, m, hn, hlog, hcid, -⟩ := hshown _ _ hv
    refine ⟨h.inv, h.since, nofun, fun _ ht' => h.beaten ht' ⟨n, m, slot_eq_some.mpr hn, hlog, ?_⟩⟩
    rintro rfl
    exact hne hcid.symm
  · obtain ⟨n, m, rfl, hlog, -, -⟩ := hshown _ _ hv
    have hkn : k < n := by
      have hlt' := hlt
      rw [hk] at hlt'
      have : Decidable.decide ((k : Int) < n) = true := hlt'
      simpa using this
    have hlen := (List.getElem?_eq_some_iff.mp hlog).1
    -- the slot below the shown head is taken, and not by this submission
    have hget : (w.2.log msg.graph)[k]? = some ((w.2.log msg.graph).get ⟨k, by omega⟩) :=
      List.getElem?_eq_getElem (by omega)
    refine ⟨h.inv, h.since, nofun, fun _ ht' => h.beaten ht' ⟨k, _, hslot, hget, fun he => ?_⟩⟩
    exact ht ht' reports _ cid' hask hv hlt k hk (by rw [hget, he])

theorem Ended.moved {outcome : Outcome} (h : Ended nc opts reqs latest timely v msg outcome w₀)
    (hm : Moved nc opts reqs msg.request w₀ w) :
    Ended nc opts reqs latest timely v msg outcome w where
  inv := hm.2
  since := h.since.trans hm.1.1
  landed hc := by
    obtain ⟨n, m, hn, hlog, hcid, hlast⟩ := h.landed hc
    exact ⟨n, m, hn, hm.1.1.get hlog, hcid, hlast⟩
  beaten hc ht := (h.beaten hc ht).moved hm

/-- `submit` never rejects. -/
def Exits (nc : NodeCrypto) (opts : Opts) (reqs : ι → ω × Request) (latest timely : Prop)
    (v : (ω → Memory ι) × Lake ι) (msg : Message ι) (r : Except Err Outcome)
    (w : (ω → Memory ι) × Lake ι) : Prop :=
  ∃ outcome, r = .ok outcome ∧ Ended nc opts reqs latest timely v msg outcome w

/-- The polls after one submission. -/
theorem runs_polls (ho : o.Honest latest) {k : Nat} (hk : msg.seq = .int k)
    {pre : Step ω ι Outcome → (ω → Memory ι) × Lake ι → Prop} {again : Step ω ι Outcome}
    (hagain : ∀ w, Sending nc opts reqs timely v msg w →
      Runs nc opts reqs o timely msg.request pre (Exits nc opts reqs latest timely v msg) again w)
    (n : Nat) : ∀ w₀, Sending nc opts reqs timely v msg w₀ →
      Runs nc opts reqs o timely msg.request pre (Exits nc opts reqs latest timely v msg)
        (polls opts msg.graph msg.seq msg.cid again n) w₀ := by
  induction n with
  | zero => exact hagain
  | succ n ih =>
    intro w₀ h
    refine runs_ask (fun _ _ _ => rfl) fun w x r hw ht hask w' hw' => ?_
    cases r with
    | none => exact ⟨_, rfl, (h.moved (hw.trans hw')).ended (by decide) (by decide)⟩
    | some reports =>
      rw [Task.bind_ret]
      dsimp only
      cases hs : settle msg.seq msg.cid (verdict reports opts.landed) with
      | some outcome => exact ⟨_, rfl, ((h.moved hw).settled ho hk ht hask hs).moved hw'⟩
      | none => exact ih w' (h.moved (hw.trans hw'))

omit [DecidableEq ω] in
/-- Sending keeps the invariant. -/
theorem Sending.send (h : Sending nc opts reqs timely v msg w) :
    Sending nc opts reqs timely v msg (w.1, w.2.send msg) where
  inv := by
    refine ⟨h.inv.ordered.send msg, h.inv.chain, fun m hm => ?_, h.inv.short, h.inv.cache⟩
    rcases mem_send_sent.mp hm with rfl | hm
    · exact h.proposal.grows (.of_log_eq rfl)
    · exact (h.inv.proposals m hm).grows (.of_log_eq rfl)
  since := h.since.trans (.of_log_eq rfl)
  proposal := h.proposal.grows (.of_log_eq rfl)
  others ht m hm hi := by
    rcases mem_send_sent.mp hm with rfl | hm
    · exact .inl rfl
    · exact (h.others ht m hm hi).imp_right fun hl => hl.grows (.of_log_eq rfl)

/-- The submissions, each with its polls. -/
theorem runs_attempts (ho : o.Honest latest) {k : Nat} (hk : msg.seq = .int k)
    {pre : Step ω ι Outcome → (ω → Memory ι) × Lake ι → Prop} (n : Nat) :
    ∀ w₀, Sending nc opts reqs timely v msg w₀ →
      Runs nc opts reqs o timely msg.request pre (Exits nc opts reqs latest timely v msg)
        (attempts opts msg.graph msg.seq msg.cid n) w₀ := by
  induction n with
  | zero => exact fun w₀ h => ⟨_, rfl, h.ended (by decide) (by decide)⟩
  | succ n ih =>
    intro w₀ h w hr hi fin x r e' hs hx
    obtain ⟨r', hr', heq⟩ := Option.map_eq_some_iff.mp hx
    cases heq
    have hw := (h.moved ⟨hr, hi⟩).send
    refine ⟨hw.inv, ⟨rfl, fun m hm => ?_⟩, fun w' hr' hi' _ => ?_⟩
    · rcases mem_send_sent.mp hm with rfl | hm
      · exact .inl rfl
      · exact .inr hm
    · have hw' := hw.moved ⟨hr', hi'⟩
      cases r with
      | none => exact ⟨_, rfl, hw'.ended (by decide) (by decide)⟩
      | some _ => exact runs_polls ho hk (fun w h => ih w h) _ w' hw'

/-- **`lake_head submit`**, for a request whose other submissions are lost. -/
theorem runs_submit (ho : o.Honest latest) {pre : Step ω ι Outcome → (ω → Memory ι) × Lake ι → Prop}
    (h : Sending nc opts reqs timely v msg w₀) (hb : timely → Beaten msg.request w₀.2) :
    Runs nc opts reqs o timely msg.request pre (Exits nc opts reqs latest timely v msg)
      (submit opts msg.graph msg.seq msg.cid) w₀ := by
  unfold submit
  split
  · rename_i ha
    obtain ⟨k, hk⟩ : ∃ k : Nat, msg.seq = .int k := by
      cases hs : msg.seq with
      | int k =>
        simp only [validArgs, hs, Bool.and_eq_true, decide_eq_true_eq] at ha
        exact ⟨k.toNat, by rw [Int.toNat_of_nonneg ha.1]⟩
      | frac q => simp [validArgs, hs] at ha
      | inf b => simp [validArgs, hs] at ha
    exact runs_attempts ho hk _ w₀ h
  · -- nothing is sent
    exact ⟨.usage, rfl, h.inv, h.since, nofun, fun _ ht => hb ht⟩

end Submit

/-! ## Writing -/

/-- What request `i` knows between two steps of its write. -/
structure Ready (nc : NodeCrypto) (opts : Opts) (reqs : ι → ω × Request) (timely : Prop) (i : ι)
    (v w : (ω → Memory ι) × Lake ι) : Prop where
  inv : Inv nc opts reqs w
  since : Grows v.2 w.2
  beaten : timely → Beaten i w.2

theorem Ready.moved {w : (ω → Memory ι) × Lake ι} (h : Ready nc opts reqs timely i v w₀)
    (hm : Moved nc opts reqs i w₀ w) : Ready nc opts reqs timely i v w :=
  ⟨hm.2, h.since.trans hm.1.1, fun ht => (h.beaten ht).moved hm⟩

/-- At some moment since the world `v`, the answer was that of a write decided on the last
document of the log. -/
def Attained (nc : NodeCrypto) (v w : (ω → Memory ι) × Lake ι) (graph : JsString)
    (expected head : Json) (ans : Answer) : Prop :=
  ∃ (c : Cur) (n : Nat), c.seq = .int n ∧ Held nc w.2 graph c ∧ (v.2.log graph).length ≤ n + 1 ∧
    decide expected head c.doc = .ok .commit ∧ ans = answerOf (.num c.seq) (.str c.cid) head

omit [DecidableEq ω] in
theorem Attained.grows {w w' : (ω → Memory ι) × Lake ι} {expected head : Json} {ans : Answer}
    (h : Attained nc v w graph expected head ans) (hg : Grows w.2 w'.2) :
    Attained nc v w' graph expected head ans := by
  obtain ⟨c, n, hn, hheld, h⟩ := h
  exact ⟨c, n, hn, hheld.grows hg, h⟩

/-- What the end of a write says: an answer is one that was attained, and a conflict is
rejected with nothing committed. -/
structure Written (nc : NodeCrypto) (opts : Opts) (reqs : ι → ω × Request)
    (latest timely recent : Prop) (i : ι) (v : (ω → Memory ι) × Lake ι) (graph : JsString)
    (expected head : Json) (r : Except Err Answer) (w : (ω → Memory ι) × Lake ι) : Prop where
  inv : Inv nc opts reqs w
  since : Grows v.2 w.2
  attained : latest → recent → ∀ ans, r = .ok ans → Attained nc v w graph expected head ans
  beaten : timely → ∀ current, r = .error (.conflict current) → Beaten i w.2

section Write

variable {w : (ω → Memory ι) × Lake ι} {expected head : Json}

theorem runs_runPins {pre : Step ω ι (List (JsString × Proc)) → (ω → Memory ι) × Lake ι → Prop}
    {data : Bytes} (pins : List JsString) : ∀ w₀, Inv nc opts reqs w₀ →
      Runs nc opts reqs o timely i pre (fun _ w => Moved nc opts reqs i w₀ w) (runPins data pins) w₀ := by
  induction pins generalizing pre with
  | nil => exact fun w₀ hi => ⟨(discipline nc opts reqs).rely_refl i _, hi⟩
  | cons p pins ih =>
    intro w₀ hi
    refine runs_ask (fun _ _ _ => rfl) fun w x r hw _ _ w' hw' => ?_
    have hm := hw.trans hw'
    show Runs nc opts reqs o timely i pre _
      ((runPins data pins).bind fun rs => .ret ((p, r) :: rs)) w'
    refine Ok.bind (P := fun _ w => Moved nc opts reqs i w' w) (fun rs w'' h => ?_)
      (fun e w'' h => hm.trans h) (ih w' hm.2)
    exact hm.trans h

omit [DecidableEq ω] in
/-- A rejection when nothing of the request is committed. -/
theorem Ready.conflict (h : Ready nc opts reqs timely i v w) (e : Err) :
    Written nc opts reqs latest timely recent i v graph expected head (.error e) w where
  inv := h.inv
  since := h.since
  attained _ _ _ hr := by cases hr
  beaten ht _ _ := h.beaten ht

/-- Answering with a committed document, which is kept in the cache. -/
theorem runs_answer {pre : Step ω ι Answer → (ω → Memory ι) × Lake ι → Prop} {u : ω} {c : Cur}
    (h : Inv nc opts reqs w₀) (hv : Grows v.2 w₀.2) (hc : Held nc w₀.2 graph c)
    (hd : decide expected head c.doc = .ok .commit)
    (hl : latest → recent → ∀ n : Nat, c.seq = .int n → (v.2.log graph).length ≤ n + 1) :
    Runs nc opts reqs o timely i pre
      (Written nc opts reqs latest timely recent i v graph expected head)
      ((Task.modify (setCache u graph (some c))).bind fun _ =>
        .ret (answerOf (.num c.seq) (.str c.cid) head)) w₀ := by
  have hi : Inv nc opts reqs (setCache u graph (some c) w₀.1, w₀.2) :=
    h.setCache fun c' hc' => by
      cases hc'
      exact hc
  refine ⟨hi, ⟨rfl, fun _ hm => .inr hm⟩, hi, hv, fun hla hre ans hr => ?_, fun _ _ hr => by cases hr⟩
  cases hr
  obtain ⟨n, hn⟩ : ∃ n : Nat, c.seq = .int n := by
    obtain ⟨n, m, hn, -⟩ := hc
    exact ⟨n, hn⟩
  exact ⟨c, n, hn, hc, hl hla hre n hn, hd, rfl⟩

/-- What is known when a submission has ended decides what a write answers. -/
theorem runs_submitted (ho : o.Honest latest)
    {pre : Step ω ι Answer → (ω → Memory ι) × Lake ι → Prop} {u : ω} (msg : Message ι)
    {prev : Json} {data : Bytes} {outcome : Outcome} (hi : msg.request = i)
    (hw : head.WF) (hh : IsHead nc head msg.graph opts.signer)
    (hp : prev = .null ∨ ∃ s, prev = .str s) (hdata : mirrorDoc msg.graph msg.seq prev head = .ok data)
    (hcid : rawCid nc data = msg.cid)
    (h : Ended nc opts reqs latest timely v msg outcome w₀) :
    Runs nc opts reqs o timely i pre
      (Written nc opts reqs latest timely recent i v msg.graph expected head)
      (submitted nc u msg.graph head msg.seq msg.cid data outcome) w₀ := by
  have htruthy : head.truthy = true := by
    have := hh.isObj
    cases head <;> simp_all [Json.isObj, Json.truthy]
  unfold submitted
  by_cases h₁ : outcome.code = 1
  · rw [if_pos h₁]
    have hready : Ready nc opts reqs timely i v w₀ :=
      ⟨h.inv, h.since, fun ht => hi ▸ h.beaten h₁ ht⟩
    refine Ok.bind (fun now w hn => ?_) (fun e w hn => (hready.moved hn.1).conflict e)
      (runs_current ho h.since)
    obtain ⟨hn, hread⟩ := hn
    split
    · rename_i hkey
      obtain ⟨c, rfl⟩ := Option.isSome_iff_exists.mp hkey.1
      obtain ⟨hheld, hlast⟩ := hread c rfl
      refine runs_answer hn.2 (hready.moved hn).since hheld ?_ fun hl _ => hlast hl
      have hkey : headKey (c.doc.get (js "head")) = headKey head := hkey.2
      refine decide_commit.mpr ⟨?_, hkey⟩
      by_contra hf
      rw [headKey, if_neg hf, headKey, if_pos htruthy] at hkey
      cases hkey
    · exact (hready.moved hn).conflict _
  · rw [if_neg h₁]
    have hother : ∀ e : Err, (∀ current, e ≠ .conflict current) →
        Written nc opts reqs latest timely recent i v msg.graph expected head (.error e) w₀ :=
      fun e he => ⟨h.inv, h.since, fun _ _ _ hr => (by cases hr),
        fun _ current hr => absurd (Except.error.inj hr) (he current)⟩
    by_cases h₀ : outcome.code = 0
    · rw [if_neg (not_not.mpr h₀)]
      obtain ⟨n, m, hn, hlog, hm, hlast⟩ := h.landed h₀
      have hlen := (List.getElem?_eq_some_iff.mp hlog).1
      have hshort := h.inv.short msg.graph
      rw [hn] at hdata
      have hparse := parseJson_mirrorDoc (by omega) hw hh hp hdata
      rw [hparse]
      refine runs_answer (c := ⟨msg.seq, msg.cid, _⟩) h.inv h.since
        ⟨n, m, hn, hlog, hm, data, by rw [hcid, hm], hparse⟩ ?_ fun hl _ k hk => ?_
      · rw [decide_commit, mirrorValue_head]
        exact ⟨htruthy, rfl⟩
      · obtain rfl : n = k := by
          have := Number.int.inj (hn.symm.trans hk)
          omega
        exact hlast hl
    · rw [if_pos h₀]
      exact hother _ fun current he => by cases he

omit [DecidableEq ω] in
/-- The document of a chain that a committed document is. -/
theorem Held.mirror (hsha : Injective nc.sha256) (hi : Inv nc opts reqs w) {c : Cur}
    (h : Held nc w.2 graph c) : ∃ (n : Nat) (m : Message ι) (prev head : Json), c.seq = .int n ∧
      (w.2.log graph)[n]? = some m ∧ m.cid = c.cid ∧ IsDoc nc m c.doc ∧
      c.doc = mirrorValue graph (.int n) prev head ∧ IsHead nc head graph opts.signer := by
  obtain ⟨n, m, hn, hlog, hcid, hdoc⟩ := h
  obtain ⟨docs, hch⟩ := hi.chain graph
  obtain ⟨doc, hd, hdoc'⟩ := hch.get hlog
  obtain rfl := hdoc.unique hsha hdoc'
  obtain ⟨prev, head, hm, hh⟩ := hch.mirror n c.doc hd
  exact ⟨n, m, prev, head, hn, hlog, hcid, hdoc, hm, hh⟩

omit [DecidableEq ω] in
/-- **The grounds of a submission**: what `decide` has checked on a committed document. -/
theorem grounds_of_decide (hsha : Injective nc.sha256) (hi : Inv nc opts reqs w)
    (hh : IsHead nc head graph opts.signer) {cur : Option Cur} {seq : Number}
    (hcur : ∀ c, cur = some c → Held nc w.2 graph c)
    (hd : decide expected head (docOf cur) = .ok (.submit seq)) :
    Grounds nc w.2 graph seq (cidOf cur) expected head := by
  cases cur with
  | none =>
    rcases decide_submit hd with ⟨he, -, -, hs⟩ | ⟨-, -, hn⟩ | ⟨-, ht, -⟩
    · exact .inl ⟨hs, rfl, he⟩
    · exact absurd rfl hn
    · cases ht
  | some c =>
    obtain ⟨n, m, prev, head', hn, hlog, hcid, hdoc, hmir, hh'⟩ := (hcur c rfl).mirror hsha hi
    have hnull : head' ≠ .null := by
      rintro rfl
      cases hh'.isObj
    have hget : (docOf (some c)).get (js "head") = head' := by
      show c.doc.get (js "head") = head'
      rw [hmir, mirrorValue_head]
    rcases decide_submit hd with ⟨-, h0, -⟩ | ⟨-, h0, -⟩ | ⟨he, -, hnames, hlt, hs⟩
    · exact absurd (hget.symm.trans h0) hnull
    · exact absurd (hget.symm.trans h0) hnull
    · rw [hget] at hnames hlt
      obtain ⟨k, hk⟩ := hh'.sequence
      obtain ⟨l, hl⟩ := hh.sequence
      have hkl : k < l := by
        rw [sequence?_eq_some.mp hk, sequence?_eq_some.mp hl] at hlt
        have := hh'.sequence_lt hk
        exact lt_of_not_lt_inc (by omega) hlt
      have hseq : (docOf (some c)).get (js "seq") = .num (.int n) := by
        show c.doc.get (js "seq") = _
        rw [hmir, mirrorValue_seq]
      refine .inr ⟨n, m, c.doc, hlog, hdoc, ?_, ?_, ?_, ?_, k, l, ?_, hl, hkl⟩
      · rw [hs, hseq]
        rfl
      · rw [hcid]
        rfl
      · rintro rfl
        cases he
      · rw [hmir, mirrorValue_head]
        exact hnames
      · rw [hmir, mirrorValue_head]
        exact hk

/-- **`write-step`** on a committed document: what it submits has its grounds, and what it
answers or rejects is as `Written` says. -/
theorem runs_writeStep (hsha : Injective nc.sha256) (ho : o.Honest latest)
    {pre : Step ω ι Answer → (ω → Memory ι) × Lake ι → Prop} {u : ω}
    (hpost : posted (reqs i).2 = some (graph, expected, head))
    (hh : IsHead nc head graph opts.signer) {cur : Option Cur}
    (h : Ready nc opts reqs timely i v w₀) (hcur : ∀ c, cur = some c → Held nc w₀.2 graph c)
    (hl : latest → recent → ∀ c, cur = some c → decide expected head c.doc = .ok .commit →
      ∀ n : Nat, c.seq = .int n → (v.2.log graph).length ≤ n + 1) :
    Runs nc opts reqs o timely i pre
      (Written nc opts reqs latest timely recent i v graph expected head)
      (writeStep nc opts u graph expected head cur) w₀ := by
  refine Ok.bind (P := fun r w => r = decide expected head (docOf cur) ∧ w = w₀)
    (fun action w hd => ?_) (fun e w hd => ?_) (runs_lift.mpr ⟨rfl, rfl⟩)
  · obtain ⟨hd, rfl⟩ := hd
    cases action with
    | commit =>
      cases cur with
      | none =>
        have := (decide_commit.mp hd.symm).1
        cases this
      | some c =>
        exact runs_answer h.inv h.since (hcur c rfl) hd.symm fun hla hre =>
          hl hla hre c rfl hd.symm
    | submit seq =>
      have hgr := grounds_of_decide hsha h.inv hh hcur hd.symm
      refine Ok.bind (P := fun r w' => r = mirrorDoc graph seq (cidOf cur) head ∧ w' = w)
        (fun data w' hm => ?_) (fun e w' hm => ?_) (runs_lift.mpr ⟨rfl, rfl⟩)
      · obtain ⟨hm, rfl⟩ := hm
        -- the submission this request is going to make
        let msg : Message ι := ⟨i, graph, seq, rawCid nc data⟩
        have hi : Inv nc opts reqs (writeOut u (rawCid nc data) data w'.1, w'.2) := h.inv.writeOut
        have hready : Ready nc opts reqs timely i v (writeOut u (rawCid nc data) data w'.1, w'.2) :=
          ⟨hi, h.since, h.beaten⟩
        refine Ok.bind (P := fun r w => r = .ok () ∧ w = (writeOut u (rawCid nc data) data w'.1, w'.2))
          (fun _ w₁ hw => ?_) nofun (runs_modify hi ⟨rfl, rfl⟩)
        obtain ⟨-, rfl⟩ := hw
        refine Ok.bind (fun results w₁ hw => ?_) (fun e w₁ hw => (hready.moved hw).conflict e)
          (runs_runPins _ _ hi)
        have hready := hready.moved hw
        refine Ok.bind (P := fun r w => w = w₁) (fun _ w₂ hc => ?_) (fun e w₂ hc => ?_)
          (runs_lift.mpr rfl)
        · obtain rfl := hc
          have hsend : Sending nc opts reqs timely v msg w₂ :=
            ⟨hready.inv, hready.since,
              ⟨expected, head, cidOf cur, data, hpost, hh, hm.symm, rfl, hgr.grows hw.1.1⟩,
              fun ht m hs hr => .inr (hready.beaten ht m hs hr)⟩
          refine Ok.bind (fun outcome w₃ he => ?_) (fun e w₃ he => ?_)
            (runs_submit ho hsend hready.beaten)
          · obtain ⟨_, ho', he⟩ := he
            cases ho'
            exact runs_submitted ho msg rfl (posted_wf hpost) hh hgr.prev hm.symm rfl he
          · obtain ⟨_, ho', -⟩ := he
            cases ho'
        · obtain rfl := hc
          exact hready.conflict e
      · obtain ⟨-, rfl⟩ := hm
        exact h.conflict e
  · obtain ⟨-, rfl⟩ := hd
    exact h.conflict e

omit [DecidableEq ω] in
theorem kind_conflict {e : Err} : kind e = some .conflict ↔ ∃ current, e = .conflict current := by
  cases e <;> simp [kind]

/-- **The retry** after a rejected step, on a fresh read. -/
theorem runs_retry (hsha : Injective nc.sha256) (ho : o.Honest latest)
    {pre : Step ω ι Answer → (ω → Memory ι) × Lake ι → Prop} {u : ω}
    (hpost : posted (reqs i).2 = some (graph, expected, head))
    (hh : IsHead nc head graph opts.signer) {cur : Option Cur} {e : Err}
    (h : Written nc opts reqs latest timely recent i v graph expected head (.error e) w₀) :
    Runs nc opts reqs o timely i pre
      (Written nc opts reqs latest timely recent i v graph expected head)
      (retry nc opts u graph expected head cur e) w₀ := by
  unfold retry
  split
  · rename_i hk
    obtain ⟨current, rfl⟩ := kind_conflict.mp hk
    have hready : Ready nc opts reqs timely i v w₀ :=
      ⟨h.inv, h.since, fun ht => h.beaten ht current rfl⟩
    refine Ok.bind (fun fresh w hw => ?_) (fun e w hw => (hready.moved hw.1).conflict e)
      (runs_current ho h.since)
    obtain ⟨hw, hread⟩ := hw
    have hready := hready.moved hw
    split
    · have hi : Inv nc opts reqs (setCache u graph none w.1, w.2) := hready.inv.setCache nofun
      refine Ok.bind (P := fun r w' => r = .ok () ∧ w' = (setCache u graph none w.1, w.2))
        (fun _ w₁ hw₁ => ?_) nofun (runs_modify hi ⟨rfl, rfl⟩)
      obtain ⟨-, rfl⟩ := hw₁
      refine runs_writeStep hsha ho hpost hh ⟨hi, hready.since, hready.beaten⟩
        (fun c hc => ?_) fun hl _ c hc _ => ?_
      · exact (hread c (by rw [hc])).1
      · exact (hread c (by rw [hc])).2 hl
    · exact hready.conflict _
  · exact h

/-- The write of a request once those before it have settled. -/
theorem runs_locked (hsha : Injective nc.sha256) (ho : o.Honest latest)
    {pre : Step ω ι Answer → (ω → Memory ι) × Lake ι → Prop} {u : ω}
    (hpost : posted (reqs i).2 = some (graph, expected, head))
    (hh : IsHead nc head graph opts.signer) (h : Ready nc opts reqs timely i v w₀)
    (hl : latest → recent → ∀ c, (w₀.1 u).cache graph = some c →
      decide expected head c.doc = .ok .commit →
      ∀ n : Nat, c.seq = .int n → (v.2.log graph).length ≤ n + 1) :
    Runs nc opts reqs o timely i pre
      (Written nc opts reqs latest timely recent i v graph expected head)
      (locked nc opts u graph expected head) w₀ := by
  -- the decision on the document that is found, and what follows its rejection
  have hstep : ∀ {pre : Step ω ι Answer → (ω → Memory ι) × Lake ι → Prop} {cur w},
      Ready nc opts reqs timely i v w → (∀ c, cur = some c → Held nc w.2 graph c) →
      (latest → recent → ∀ c, cur = some c → decide expected head c.doc = .ok .commit →
        ∀ n : Nat, c.seq = .int n → (v.2.log graph).length ≤ n + 1) →
      Runs nc opts reqs o timely i pre
        (Written nc opts reqs latest timely recent i v graph expected head)
        ((writeStep nc opts u graph expected head cur).handle
          (retry nc opts u graph expected head cur)) w := fun hr hc hl =>
    Ok.handle (fun a w ha => ha) (fun e w he => runs_retry hsha ho hpost hh he)
      (runs_writeStep hsha ho hpost hh hr hc hl)
  rw [locked, Task.bind_eq, runs_reads]
  cases hc : (w₀.1 u).cache graph with
  | some c =>
    refine hstep h (fun c' hc' => ?_) fun hla hre c' hc' hd => ?_
    · cases hc'
      exact h.inv.cache u graph c hc
    · cases hc'
      exact hl hla hre c hc hd
  | none =>
    refine Ok.bind (fun cur w hw => ?_) (fun e w hw => (h.moved hw.1).conflict e)
      (runs_current ho h.since)
    obtain ⟨hw, hread⟩ := hw
    exact hstep (h.moved hw) (fun c hc => (hread c (by rw [hc])).1)
      fun hla _ c hc _ => (hread c (by rw [hc])).2 hla

end Write

/-! ## Answers -/

/-- What an answer says: a 409, that nothing of the request is committed; a committed
answer, that it was attained since the request arrived in the world `v`. -/
structure Answered (nc : NodeCrypto) (reqs : ι → ω × Request) (latest timely recent : Prop) (i : ι)
    (v : (ω → Memory ι) × Lake ι) (r : Except Err Response) (w : (ω → Memory ι) × Lake ι) :
    Prop where
  beaten : timely → ∀ resp, r = .ok resp → resp.status = 409 → Beaten i w.2
  attained : latest → recent → ∀ ans, r = .ok (committed ans) → ∃ graph expected head,
    posted (reqs i).2 = some (graph, expected, head) ∧ Attained nc v w graph expected head ans

section Handler

variable {w : (ω → Memory ι) × Lake ι} {expected head : Json}

theorem Answered.stable {r : Except Err Response}
    (h : Answered nc reqs latest timely recent i v r w₀)
    (hr : (discipline nc opts reqs).Rely i w₀ w) :
    Answered nc reqs latest timely recent i v r w where
  beaten ht resp hresp hs := fun m hm hi =>
    (h.beaten ht resp hresp hs m (hr.2 m hm hi) hi).grows hr.1
  attained hl hre ans hans := by
    obtain ⟨graph, expected, head, hp, ha⟩ := h.attained hl hre ans hans
    exact ⟨graph, expected, head, hp, ha.grows hr.1⟩

omit [DecidableEq ω] in
theorem committed_injective : Injective committed := by
  rintro ⟨a, b, c, d⟩ ⟨a', b', c', d'⟩ h
  simp only [committed, reply, Response.mk.injEq, Json.obj.injEq, List.cons.injEq,
    Prod.mk.injEq, true_and, and_true] at h
  simp [h]

omit [DecidableEq ω] in
/-- An answer that is no committed answer, when nothing of the request is committed. -/
theorem Ready.answered (h : Ready nc opts reqs timely i v w) {resp : Response}
    (hne : ∀ ans, resp ≠ committed ans) :
    Answered nc reqs latest timely recent i v (.ok resp) w where
  beaten ht _ _ _ := h.beaten ht
  attained _ _ ans hans := absurd (Except.ok.inj hans) (hne ans)

theorem answerError_ne {e : Err} {ans : Answer} : answerError e ≠ committed ans := by
  cases e <;> simp [answerError, committed, reply]

theorem getError_ne {e : Err} {ans : Answer} : getError e ≠ committed ans := by
  unfold getError
  split <;> simp [committed, reply]

omit [DecidableEq ω] in
/-- How the end of a write is answered. -/
theorem Written.answered {r : Except Err Answer}
    (hpost : posted (reqs i).2 = some (graph, expected, head))
    (h : Written nc opts reqs latest timely recent i v graph expected head r w) :
    Answered nc reqs latest timely recent i v
      (match r with
        | .ok ans => .ok (committed ans)
        | .error e => .ok (answerError e)) w := by
  cases r with
  | ok ans =>
    refine ⟨fun _ resp hr hs => ?_, fun hl hre ans' hr => ?_⟩
    · cases hr
      cases hs
    · obtain rfl := committed_injective (Except.ok.inj hr)
      exact ⟨graph, expected, head, hpost, h.attained hl hre ans rfl⟩
  | error e =>
    refine ⟨fun ht resp hr hs => ?_, fun _ _ ans hr => ?_⟩
    · cases hr
      cases e with
      | conflict current => exact h.beaten ht current rfl
      | refused msg => cases hs
      | unmeasured msg => cases hs
      | other msg => cases hs
    · exact absurd (Except.ok.inj hr) answerError_ne

/-- The rest of a POST once the writes before it have settled. -/
theorem runs_afterJoin (hsha : Injective nc.sha256) (ho : o.Honest latest)
    {pre : Step ω ι Response → (ω → Memory ι) × Lake ι → Prop}
    (hpost : posted (reqs i).2 = some (graph, expected, head))
    (hh : IsHead nc head graph opts.signer) (h : Ready nc opts reqs timely i v w₀)
    (hl : recent → Recent nc opts reqs i v (afterJoin nc opts (reqs i).1 graph expected head) w₀) :
    Runs nc opts reqs o timely i pre (Answered nc reqs latest timely recent i v)
      (afterJoin nc opts (reqs i).1 graph expected head) w₀ := by
  have hlocked : ∀ {pre : Step ω ι Answer → (ω → Memory ι) × Lake ι → Prop},
      Runs nc opts reqs o timely i pre
        (Written nc opts reqs latest timely recent i v graph expected head)
        (locked nc opts (reqs i).1 graph expected head) w₀ :=
    runs_locked hsha ho hpost hh h fun _ hre c hc hd => hl hre graph expected head c rfl hc hd
  refine Ok.handle (P := fun r w => ∃ r', Written nc opts reqs latest timely recent i v graph
      expected head r' w ∧ r = r'.map committed) (fun a w ha => ?_) (fun e w he => ?_)
    (Ok.bind (fun ans w hw => ?_) (fun e w hw => ⟨.error e, hw, rfl⟩) hlocked)
  · obtain ⟨r', hw, hr⟩ := ha
    cases r' with
    | ok ans =>
      cases hr
      exact hw.answered hpost
    | error e => cases hr
  · obtain ⟨r', hw, hr⟩ := he
    cases r' with
    | ok ans => cases hr
    | error e =>
      cases hr
      exact hw.answered hpost
  · exact ⟨.ok ans, hw, rfl⟩

/-- **A request**, from the world in which it arrives. -/
theorem ok_handler (hsha : Injective nc.sha256) (ho : o.Honest latest)
    (hi : Inv nc opts reqs w₀) (hnone : ∀ m ∈ w₀.2.sent, m.request ≠ i) :
    Ok (exec o) (guard nc opts reqs o timely recent).serve (discipline nc opts reqs) i
      ((guard nc opts reqs o timely recent).turn i w₀)
      (Answered nc reqs latest timely recent i w₀)
      (handler nc opts (reqs i).1 i (reqs i).2) w₀ := by
  have hready : Ready nc opts reqs timely i w₀ w₀ :=
    ⟨hi, .refl _, fun _ m hm hr => absurd hr (hnone m hm)⟩
  unfold handler
  split
  · exact hready.answered (fun ans => by simp [committed, reply])
  split
  · -- a read: it sends nothing
    split
    · refine Ok.handle (P := fun r w => Moved nc opts reqs i w₀ w ∧
        ∀ resp, r = .ok resp → ∀ ans, resp ≠ committed ans) (fun resp w hw => ?_)
        (fun e w hw => ?_) ?_
      · exact (hready.moved hw.1).answered (hw.2 resp rfl)
      · exact (hready.moved hw.1).answered fun ans => getError_ne
      · refine Ok.bind (fun cur w hw => ?_) (fun e w hw => ⟨hw.1, nofun⟩) (runs_current ho (.refl _))
        obtain ⟨hw, hread⟩ := hw
        cases cur with
        | none =>
          refine ⟨hw, fun resp hr ans => ?_⟩
          cases hr
          simp [committed, reply]
        | some c =>
          have hset : Inv nc opts reqs
              (setCache (reqs i).1 ((reqs i).2.graph.getD []) (some c) w.1, w.2) :=
            hw.2.setCache fun c' hc' => by
              cases hc'
              exact (hread c rfl).1
          refine ⟨hset, ⟨rfl, fun _ hm => .inr hm⟩, ⟨hw.1, hset⟩, fun resp hr ans => ?_⟩
          cases hr
          simp [committed, reply, js]
    · exact hready.answered (fun ans => by simp [committed, reply])
  split
  · rename_i hroute
    cases hp : parsed (reqs i).2.body with
    | error msg => exact hready.answered (fun ans => by simp [committed, reply])
    | ok v =>
      obtain ⟨graph, expected, head⟩ := v
      have hpost : posted (reqs i).2 = some (graph, expected, head) := by
        rw [posted, if_pos hroute, hp]
        rfl
      show Ok _ _ _ _ _ _ (((write nc opts (reqs i).1 i graph expected head).bind fun ans =>
        .ret (committed ans)).handle fun e => .ret (answerError e)) w₀
      unfold write
      cases hv : verifyHead nc head graph opts.signer with
      | error e => exact hready.answered (fun ans => answerError_ne)
      | ok record =>
        obtain ⟨-, hh⟩ := verifyHead_ok.mp hv
        have hset : Inv nc opts reqs (setTail (reqs i).1 graph i w₀.1, w₀.2) := hi.setTail
        refine ⟨hset, ⟨rfl, fun _ hm => .inr hm⟩, ?_⟩
        intro w hr hw fin x r e' _ hx
        -- the writes before this one have settled
        obtain ⟨rfl, rfl⟩ : r = () ∧ e' = w.2 := by
          simp only [exec] at hx
          split at hx
          · cases hx
            exact ⟨rfl, rfl⟩
          · cases hx
        refine ⟨hw, ⟨rfl, fun _ hm => .inr hm⟩, fun w' hr' hw' hpre => ?_⟩
        have hm : Moved nc opts reqs i w₀ w' :=
          ⟨(discipline nc opts reqs).rely_trans i _ _ _ hr hr', hw'⟩
        exact runs_afterJoin hsha ho hpost hh (hready.moved hm) hpre
  · exact hready.answered (fun ans => by simp [committed, reply])

end Handler

end

end Writer
