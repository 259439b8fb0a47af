import Yataverse.Writer.Steps

/-!
# The log of a graph

Any number of writers, with whatever is in their caches, and any interleaving of their
requests, of inga's commits and of kills.

- `writers_ok`: a run keeps the invariant, and every answer says what it says.
- **`log_safe`**: the documents of a graph form a chain, and each was proposed by a
  request that named the head before it.
-/

namespace Writer

open Js GraphHead EventLoop LakeHead Function FirstWins

section Runs

variable {ω ι X : Type} [DecidableEq ω] [DecidableEq ι] {nc : NodeCrypto} {opts : Opts}
  {reqs : ι → ω × Request} {o : Outside ι X} {latest timely recent : Prop}

/-- A configuration of the writers. -/
abbrev Writers (ω ι : Type) : Type :=
  Cfg ι (ω → Memory ι) (Lake ι) (Cmd ι) Cmd.Reply Err Response

/-- Every poll of the run is timely. -/
def TimelyStep (opts : Opts) (o : Outside ι X) (c : Writers ω ι) : Label ι X → Prop
  | .serve i x => ∀ cmd k, c.phase i = .waiting cmd k → Timely opts o i c.env cmd x
  | _ => True

/-- Every write of the run that is answered from the cache is answered with a document
that was not behind the log when the request arrived. -/
def RecentStep (nc : NodeCrypto) (opts : Opts) (reqs : ι → ω × Request) (c : Writers ω ι) :
    Label ι X → Prop
  | .turn i => ∀ v t, c.arrived i = some v → c.phase i = .ready t →
      Recent nc opts reqs i v t c.world
  | _ => True

omit [DecidableEq ι] in
theorem allows_of {c : Writers ω ι} {l : Label ι X} (ht : timely → TimelyStep opts o c l)
    (hr : recent → RecentStep nc opts reqs c l) :
    (guard nc opts reqs o timely recent).Allows c l := by
  cases l with
  | turn i => exact fun v t hv hp h => hr h v t hv hp
  | serve i x => exact fun cmd k hw h => ht h cmd k hw
  | arrive i => trivial
  | tick x => trivial
  | kill i => trivial

/-- What inga does by itself keeps the invariant, and every request relies on no less. -/
theorem inv_tick (hsha : Injective nc.sha256) {s : ω → Memory ι} {e e' : Lake ι} {x : X}
    (hi : Inv nc opts reqs (s, e)) (h : (writers o nc opts reqs).tick e x = some e') :
    Inv nc opts reqs (s, e') ∧ ∀ i, (discipline nc opts reqs).Rely i (s, e) (s, e') := by
  obtain ⟨m, -, hc⟩ := Option.bind_eq_some_iff.mp h
  obtain ⟨-, -, hsent, -⟩ := commit_eq_some hc
  refine ⟨hi.commit hsha hc, fun i => ⟨commit_grows hc, fun m hm _ => ?_⟩⟩
  rwa [← hsent]

variable (timely recent) in
/-- **A run of the writers** keeps the invariant, and every answer says what it says. -/
theorem writers_ok (hsha : Injective nc.sha256) (ho : o.Honest latest) {c : Writers ω ι}
    (hr : (writers o nc opts reqs).Reaches (guard nc opts reqs o timely recent).Allows begin c) :
    CfgOk (writers o nc opts reqs) (discipline nc opts reqs)
      (guard nc opts reqs o timely recent) (Answered nc reqs latest timely recent) c := by
  refine sound (fun s e e' x hi h => inv_tick hsha hi h)
    (fun i v r w w' h hr => h.stable hr) (cfgOk_start inv_empty fun i w hr hi => ?_) hr
  refine ok_handler hsha ho hi fun m hm hmi => ?_
  cases hr.2 m hm hmi

end Runs

/-! ## The chain -/

/-- What holds of a graph's log with the documents `docs`: they form a chain, an entry is
the submission of its slot, and whoever submitted the document of a slot was asked for
its head with an expected head that is the one before it: none for the first slot only. -/
structure Safe {ι ω : Type} (nc : NodeCrypto) (opts : Opts) (reqs : ι → ω × Request) (e : Lake ι)
    (graph : JsString) (docs : List Json) : Prop where
  chain : Chain nc opts.signer graph (e.log graph) docs
  committed : ∀ (n : Nat) m, (e.log graph)[n]? = some m →
    m ∈ e.sent ∧ m.graph = graph ∧ m.seq = .int n
  proposed : ∀ (n : Nat) m m' doc, (e.log graph)[n]? = some m → docs[n]? = some doc →
    m' ∈ e.sent → m'.graph = graph → m'.seq = .int n → m'.cid = m.cid →
    ∃ expected, posted (reqs m'.request).2 = some (graph, expected, doc.get (js "head")) ∧
      (expected = .null ↔ n = 0) ∧
      ∀ k before, n = k + 1 → docs[k]? = some before → Names expected (before.get (js "head"))

theorem Inv.safe {ι ω : Type} {nc : NodeCrypto} {opts : Opts} {reqs : ι → ω × Request}
    {w : (ω → Memory ι) × Lake ι} (hsha : Injective nc.sha256) (hi : Inv nc opts reqs w)
    (graph : JsString) : ∃ docs, Safe nc opts reqs w.2 graph docs := by
  obtain ⟨docs, hch⟩ := hi.chain graph
  refine ⟨docs, hch, fun n m hm => ?_, fun n m m' doc hm hd hm' hg hseq hcid => ?_⟩
  · obtain ⟨h₁, h₂, h₃⟩ := hi.ordered graph n m hm
    exact ⟨h₁, h₂, slot_eq_some.mp h₃⟩
  · subst hg
    have hlt := (List.getElem?_eq_some_iff.mp hm).1
    have hshort := hi.short m'.graph
    obtain ⟨expected, head, prev, data, hpost, hh, hdata, hraw, hgr⟩ := hi.proposals m' hm'
    rw [hseq] at hdata
    have hparse := parseJson_mirrorDoc (by omega) (posted_wf hpost) hh hgr.prev hdata
    -- the document of the slot is the one this request has made
    obtain ⟨doc', hd', hdoc'⟩ := hch.get hm
    obtain rfl : doc' = doc := Option.some.inj (hd'.symm.trans hd)
    obtain rfl := hdoc'.unique hsha ⟨data, by rw [hraw, hcid], hparse⟩
    rcases hgr with ⟨h0, -, he⟩ | ⟨k, p, before, hp, hbefore, -, hprev, he, hnames, -⟩
    · have hn : n = 0 := by
        have := Number.int.inj (hseq.symm.trans h0)
        omega
      exact ⟨expected, hpost, by simp [he, hn], fun k _ hk => by omega⟩
    · -- the slot is behind that of the document the submission was decided on
      obtain ⟨j, rfl⟩ : ∃ j, n = j + 1 := by
        cases n with
        | zero =>
          have := hch.first _ hd
          rw [mirrorValue_prev, hprev] at this
          cases this
        | succ j => exact ⟨j, rfl⟩
      obtain ⟨q, hq⟩ : ∃ q, (w.2.log m'.graph)[j]? = some q :=
        ⟨_, List.getElem?_eq_getElem (by omega)⟩
      obtain ⟨dq, hdq, hdocq⟩ := hch.get hq
      have hcidq : q.cid = p.cid := by
        have := hch.prev j q _ hq hd
        rw [mirrorValue_prev, hprev] at this
        exact (Json.str.inj this).symm
      obtain rfl : before = dq := hbefore.unique hsha (m := p) (by
        obtain ⟨d, hd, hp⟩ := hdocq
        exact ⟨d, hd.trans hcidq, hp⟩)
      refine ⟨expected, hpost, by simp [he], fun k' b hk' hb => ?_⟩
      obtain rfl : j = k' := by omega
      rw [hdq] at hb
      rw [← Option.some.inj hb]
      exact hnames

namespace Sample

open GraphHead.Sample

def opts : Opts := ⟨[did], [js "pin"], 1, 1⟩

/-- How a child process that prints one line exits. -/
def exit (code : Int) (line : JsString) : Proc := ⟨some code, utf8 (line ++ [10]), []⟩

/-- The last submission that inga has committed for a graph. -/
def last {ι : Type} (e : Lake ι) (graph : JsString) : Option (Message ι) :=
  (e.log graph).getLast?.filter fun m => m.seq = .int ((e.log graph).length - 1 : Nat)

/-- How `lake_head verify` ends that has proved a head. -/
def proved (seq : Number) (cid : JsString) : Proc :=
  let p := exit 0 (js "VERIFIED yataverse/graph/" ++ graph₀ ++ js " seq " ++ numStr seq ++
    js " cid " ++ cid ++ js " by 5 witnesses")
  if witnessHead p = .ok (some (seq, cid)) then p
  else exit 3 (js "UNMEASURED only 0 witnesses proved a head")

/-- Witnesses that show the last document, a Kubo that holds both documents, and an inga
that commits what is sent. -/
def outside {ι : Type} : Outside ι Unit where
  ask e q _ :=
    match q with
    | .join _ => some ()
    | .verify graph =>
      match last e graph with
      | none => some (exit 4 (js "ABSENT"))
      | some m => some (proved m.seq m.cid)
    | .cat cid => some (if cid = cid₀ then ⟨some 0, doc₀, []⟩ else
        if cid = cid₁ then ⟨some 0, doc₁, []⟩ else exit 1 [])
    | .pin _ data => some (exit 0 (rawCid nodeCrypto data))
    | .send _ _ _ => some (some ())
    | .poll graph _ _ =>
      some (some [((last e graph).map fun m => Report.head m.seq m.cid).getD .noHead])
  pick e _ := e.sent.find? fun m => m.slot = some (e.log m.graph).length

theorem shown_last {ι : Type} {e : Lake ι} {graph : JsString} {m : Message ι}
    (h : last e graph = some m) : Shown True e graph m.seq m.cid := by
  obtain ⟨hl, hs⟩ := Option.filter_eq_some_iff.mp h
  rw [List.getLast?_eq_getElem?] at hl
  have := (List.getElem?_eq_some_iff.mp hl).1
  exact ⟨_, m, of_decide_eq_true hs, hl, rfl, fun _ => by omega⟩

theorem outside_honest {ι : Type} : (outside (ι := ι)).Honest True where
  verify e graph x p seq cid h hw := by
    simp only [outside] at h
    split at h
    · rw [← Option.some.inj h] at hw
      exact absurd (exited_of_witnessHead hw) (by decide)
    · rename_i m hm
      rw [← Option.some.inj h] at hw
      unfold proved at hw
      simp only at hw
      split at hw
      · rename_i hp
        rw [hp] at hw
        obtain ⟨rfl, rfl⟩ := Prod.mk.inj (Option.some.inj (Except.ok.inj hw))
        exact shown_last hm
      · exact absurd (exited_of_witnessHead hw) (by decide)
  poll e graph seq cid x reports seq' cid' h hr := by
    cases h
    cases hm : last e graph with
    | none => simp [hm] at hr
    | some m =>
      obtain ⟨rfl, rfl⟩ : seq' = m.seq ∧ cid' = m.cid := by simpa [hm] using hr
      exact shown_last hm

/-- `POST /v1/graph-head`. -/
def post (expected head : Json) : Request :=
  ⟨js "POST", js "/v1/graph-head", none, utf8 (Json.print stringify
    (.obj [(js "expected", expected), (js "graph", .str graph₀), (js "head", head)]))⟩

-- the writers and the requests are the numerals of `Fin 2` and `Fin 3`
instance neZero_two : NeZero 2 := ⟨by decide⟩
instance neZero_three : NeZero 3 := ⟨by decide⟩

/-- The first head at one writer, the second head at another, and the first again. -/
def reqs : Fin 3 → Fin 2 × Request
  | 0 => (0, post .null head₀)
  | 1 => (1, post (.obj [(js "sequence", .num (.int 1))]) head₁)
  | 2 => (0, post .null head₀)

abbrev service : Loop (Fin 3) (Fin 2 → Memory (Fin 3)) (Lake (Fin 3)) (Cmd (Fin 3)) Unit Cmd.Reply
    Err Response := writers outside nodeCrypto opts reqs

/-- A command of the request is answered and its turn taken, `n` times. -/
def rounds (i : Fin 3) : Nat → List (Label (Fin 3) Unit)
  | 0 => []
  | n + 1 => .serve i () :: .turn i :: rounds i n

/-- One write after the other. -/
def inTurn : List (Label (Fin 3) Unit) :=
  .arrive 0 :: rounds 0 4 ++ .tick () :: rounds 0 1 ++
    .arrive 1 :: rounds 1 5 ++ .tick () :: rounds 1 1

end Sample

end Writer
