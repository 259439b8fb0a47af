import Yataverse.LakeReader.Handler
import Yataverse.Limiting.Slots

/-!
# Slots of the lake reader

- `Counted`: the slots that are counted are those that requests hold.
- `Counted.turn`, `Counted.step`: what a request does keeps them counted.
- `Quiet`: no request is on its way.
- **`slots_exact`**: how many requests are on their way at a time, and when a reader takes requests again.
-/

namespace LakeReader

open Js Lake Limiting Function

variable {ι : Type} [DecidableEq ι] {c : Config} {s s' : State ι} {i j : ι} {w : World} {stage : Stage} {large : Bool}
  {ls : List (Label ι)}

/-- A request holds a slot. One that is lost never gives it back. -/
def Stage.holdsSlot : Stage → Bool
  | entered _ | looking .. | covering .. | running .. | settled .. | closing _ | lost => true
  | unborn | done _ | crashed => false

/-- A request holds the slot for large blocks. -/
def Stage.holdsLarge : Stage → Bool
  | looking _ large | covering _ large | running _ _ large | settled _ large => large
  | _ => false

/-- The URL of a request has raised. -/
def Stage.isRefused : Stage → Bool
  | lost | crashed => true
  | _ => false

/-- A reader runs unless a URL has raised. -/
structure Runs (c : Config) (up : Bool) (stage : ι → Stage) : Prop where
  up : (∀ i, (stage i).isRefused = false) → up = true
  refused : ∀ i, (stage i).isRefused = true → ∃ target, c.split target = none

/-- The books of the slots. -/
structure Counted (c : Config) (s : State ι) : Prop where
  taken : Taken (fun i => (s.stage i).holdsSlot) s.slots
  large : Taken (fun i => (s.stage i).holdsLarge) s.large.toNat
  le : s.slots ≤ c.maxConcurrent
  runs : Runs c s.up s.stage

theorem goto_self : (s.goto i stage).stage i = stage := update_self ..

theorem goto_of_ne (h : j ≠ i) : (s.goto i stage).stage j = s.stage j := update_of_ne h ..

theorem step_arrive (hup : s.up = true) (hi : s.stage i = .unborn) (method target : JsString) :
    step c s (.arrive i method target) = some (arrive c s i method target) := by
  unfold step
  rw [if_pos hup]
  dsimp only
  rw [hi]

theorem step_finish (hup : s.up = true) : step c s (.finish i) = finish c s i := by
  unfold step
  rw [if_pos hup]

theorem step_down (hup : s.up = false) (l : Label ι) : step c s l = none := by
  unfold step
  rw [if_neg (by rw [hup]; exact Bool.false_ne_true)]

theorem arrive_free (hfree : s.slots < c.maxConcurrent) (target : JsString) :
    arrive c s i (js "GET") target = enter c s i target := by
  unfold arrive
  rw [if_neg (not_not.mpr rfl), if_neg (not_le.mpr hfree)]

theorem arrive_busy (hfull : c.maxConcurrent ≤ s.slots) (target : JsString) :
    arrive c s i (js "GET") target = s.goto i (.done busy) := by
  unfold arrive
  rw [if_neg (not_not.mpr rfl), if_pos hfull]

/-- What does not change for one request does not change for any. -/
theorem update_same {β : Type} (f : Stage → β) {stages : ι → Stage} (h : f stage = f (stages i)) (j : ι) :
    f (update stages i stage j) = f (stages j) := by
  by_cases hj : j = i
  · rw [hj, update_self, h]
  · rw [update_of_ne hj]

omit [DecidableEq ι] in
theorem counted_initial {receipts : List (Option Receipts)} : Counted c (State.initial receipts : State ι) :=
  ⟨taken_none fun _ => rfl, taken_none fun _ => rfl, Nat.zero_le _, fun _ => rfl, fun _ h => by cases h⟩

theorem Runs.goto {up : Bool} {stages : ι → Stage} (h : Runs c up stages) (hsame : stage.isRefused = (stages i).isRefused) :
    Runs c up (update stages i stage) := by
  have hall := update_same Stage.isRefused hsame
  refine ⟨fun hup => h.up fun j => ?_, fun j hj => h.refused j ?_⟩
  · rw [← hall j]
    exact hup j
  · rw [← hall j]
    exact hj

/-! ## What a request holds -/

theorem look_holds {cid : JsString} : (look c w cid large).holdsSlot = true ∧ (look c w cid large).holdsLarge = large ∧
    (look c w cid large).isRefused = false := by
  unfold look
  repeat' split
  all_goals exact ⟨rfl, rfl, rfl⟩

theorem replied_holds {command : Command} {x : Wanted} {answer : Answer} :
    (replied c command x large answer).holdsSlot = true ∧ (replied c command x large answer).holdsLarge = large ∧
      (replied c command x large answer).isRefused = false := by
  unfold replied
  repeat' split
  all_goals exact ⟨rfl, rfl, rfl⟩

/-! ## What a step does -/

/-- A request that keeps what it holds. -/
theorem Counted.goto (h : Counted c s) {old : Stage} (hi : s.stage i = old) (hslot : stage.holdsSlot = old.holdsSlot)
    (hlarge : stage.holdsLarge = old.holdsLarge) (hrefused : stage.isRefused = old.isRefused) :
    Counted c (s.goto i stage) := by
  subst hi
  exact ⟨h.taken.keep (update_same Stage.holdsSlot hslot), h.large.keep (update_same Stage.holdsLarge hlarge), h.le,
    h.runs.goto hrefused⟩

omit [DecidableEq ι] in
/-- What is remembered of receipts does not matter. -/
theorem Counted.remember (h : Counted c s) (receipts : List (Option Receipts)) : Counted c { s with receipts := receipts } :=
  ⟨h.taken, h.large, h.le, h.runs⟩

/-- A slot is taken. -/
theorem Counted.takeSlot (h : Counted c s) (hfree : s.slots < c.maxConcurrent) (hi : s.stage i = .unborn)
    (hslot : stage.holdsSlot = true) (hlarge : stage.holdsLarge = false) (hruns : Runs c s.up (update s.stage i stage)) :
    Counted c ({ s with slots := s.slots + 1 }.goto i stage) := by
  refine ⟨h.taken.take (i := i) ?_ ?_ fun j hj => ?_, h.large.keep (update_same Stage.holdsLarge ?_), hfree, hruns⟩
  · rw [hi]
    rfl
  · rw [goto_self, hslot]
  · rw [goto_of_ne hj]
  · rw [hlarge, hi]
    rfl

/-- A slot is given back. -/
theorem Counted.giveSlot (h : Counted c s) {old : Stage} {response : Response} (hi : s.stage i = old)
    (hslot : old.holdsSlot = true) (hlarge : old.holdsLarge = false) (hrefused : old.isRefused = false) :
    Counted c ({ s with slots := s.slots - 1 }.goto i (.done response)) := by
  subst hi
  have htaken : 0 < s.slots ∧ Taken (fun j => ((s.goto i (.done response)).stage j).holdsSlot) (s.slots - 1) :=
    h.taken.give hslot (by rw [goto_self]; rfl) fun j hj => by rw [goto_of_ne hj]
  exact ⟨htaken.2, h.large.keep (update_same Stage.holdsLarge hlarge.symm), (Nat.sub_le _ _).trans h.le,
    h.runs.goto hrefused.symm⟩

/-- The slot for large blocks is taken. -/
theorem Counted.takeLarge (h : Counted c s) (hfree : s.large = false) {url : Url} (hi : s.stage i = .entered url)
    (cid : JsString) : Counted c ({ s with large := true }.goto i (.looking cid true)) := by
  have hlarge := h.large
  rw [hfree] at hlarge
  refine ⟨h.taken.keep (update_same Stage.holdsSlot ?_), hlarge.take (i := i) ?_ ?_ fun j hj => ?_, h.le, h.runs.goto ?_⟩
  · rw [hi]
    rfl
  · rw [hi]
    rfl
  · rw [goto_self]
    rfl
  · rw [goto_of_ne hj]
  · rw [hi]
    rfl

/-- The slot for large blocks is given back. -/
theorem Counted.giveLarge (h : Counted c s) {response : Response} (hi : s.stage i = .settled response true) :
    Counted c ({ s with large := false }.goto i (.closing response)) := by
  have hheld : (s.stage i).holdsLarge = true := by
    rw [hi]
    rfl
  have hgiven : 0 < s.large.toNat ∧
      Taken (fun j => ((s.goto i (.closing response)).stage j).holdsLarge) (s.large.toNat - 1) :=
    h.large.give hheld (by rw [goto_self]; rfl) fun j hj => by rw [goto_of_ne hj]
  have hzero : s.large.toNat - 1 = 0 := by cases s.large <;> rfl
  rw [hzero] at hgiven
  refine ⟨h.taken.keep (update_same Stage.holdsSlot ?_), hgiven.2, h.le, h.runs.goto ?_⟩
  · rw [hi]
    rfl
  · rw [hi]
    rfl

theorem Counted.route (h : Counted c s) {url : Url} (hi : s.stage i = .entered url) : Counted c (route c s i w url) := by
  have hstay : ∀ {stage : Stage}, stage.holdsSlot = true → stage.holdsLarge = false → stage.isRefused = false →
      Counted c (s.goto i stage) := h.goto hi
  unfold LakeReader.route
  split_ifs with _ _ _ _ _ hbusy
  · exact hstay rfl rfl rfl
  · exact hstay rfl rfl rfl
  · exact hstay rfl rfl rfl
  · exact hstay rfl rfl rfl
  · exact h.takeLarge ((Bool.not_eq_true _).mp hbusy) hi _
  · exact hstay rfl rfl rfl
  · exact hstay rfl rfl rfl

theorem Counted.cover (h : Counted c s) {x : Wanted} (hi : s.stage i = .covering x large) : Counted c (cover c s i w x large) := by
  unfold LakeReader.cover
  split
  · exact h.goto hi rfl rfl rfl
  · split
    · exact h.goto hi rfl rfl rfl
    · exact (h.remember _).goto hi rfl rfl rfl

/-- **A turn** of a request keeps the books. -/
theorem Counted.turn (h : Counted c s) (hturn : turn c s i w = some s') : Counted c s' := by
  unfold LakeReader.turn at hturn
  split at hturn
  · rename_i url hi
    obtain rfl := Option.some.inj hturn
    exact h.route hi
  · rename_i cid large hi
    obtain rfl := Option.some.inj hturn
    obtain ⟨hslot, hlarge, hrefused⟩ := @look_holds c w large cid
    exact h.goto hi hslot hlarge hrefused
  · rename_i x large hi
    obtain rfl := Option.some.inj hturn
    exact h.cover hi
  · cases hturn

theorem Counted.onward (h : Counted c s) : Counted c (onward c i w s) := by
  unfold LakeReader.onward
  cases hturn : LakeReader.turn c s i w with
  | none => exact h
  | some s' => exact h.turn hturn

theorem Counted.go (h : Counted c s) (hgo : go c s i w = some s') : Counted c s' := by
  unfold LakeReader.go at hgo
  split at hgo
  · exact h.turn hgo
  · obtain ⟨s', hturn, rfl⟩ := Option.map_eq_some_iff.mp hgo
    exact (h.turn hturn).onward.onward

/-- A request that is over has given everything back. -/
theorem Counted.finish (h : Counted c s) (hfinish : finish c s i = some s') : Counted c s' := by
  unfold LakeReader.finish at hfinish
  split at hfinish
  · rename_i response hi _
    obtain rfl := Option.some.inj hfinish
    exact h.giveLarge hi
  · rename_i response hi _
    obtain rfl := Option.some.inj hfinish
    exact h.giveSlot hi rfl rfl rfl
  · rename_i response large hi _
    obtain rfl := Option.some.inj hfinish
    cases large with
    | false => exact h.giveSlot hi rfl rfl rfl
    | true =>
      -- Kotoba gives both back at once: the slot for large blocks, and then the other one
      have hboth := @Counted.giveSlot _ _ _ _ i (h.giveLarge hi) _ response goto_self rfl rfl rfl
      simp only [State.goto, update_idem] at hboth
      exact hboth
  · rename_i response hi
    obtain rfl := Option.some.inj hfinish
    exact h.giveSlot hi rfl rfl rfl
  · cases hfinish

theorem Counted.arrive (h : Counted c s) (hup : s.up = true) (hi : s.stage i = .unborn) (method target : JsString) :
    Counted c (arrive c s i method target) := by
  have hturned : ∀ response, Counted c (s.goto i (.done response)) := fun response => h.goto hi rfl rfl rfl
  unfold LakeReader.arrive
  split_ifs with _ hfree
  · exact hturned _
  · exact hturned _
  · rw [not_le] at hfree
    unfold enter
    split
    · exact h.takeSlot hfree hi rfl rfl (h.runs.goto (by rw [hi]; rfl))
    · rename_i hsplit _
      -- the slot is taken, and the request is lost with it
      refine h.takeSlot hfree hi rfl rfl ⟨fun _ => hup, fun j hj => ?_⟩
      exact ⟨target, hsplit⟩
    · rename_i hsplit _
      -- no slot is taken, but the reader has ended
      refine ⟨h.taken.keep (update_same Stage.holdsSlot ?_), h.large.keep (update_same Stage.holdsLarge ?_), h.le,
        fun hall => ?_, fun _ _ => ⟨target, hsplit⟩⟩
      · rw [hi]
        rfl
      · rw [hi]
        rfl
      · have := hall i
        rw [goto_self] at this
        cases this

/-- **One step** keeps the books. -/
theorem Counted.step {l : Label ι} (h : Counted c s) (hstep : step c s l = some s') : Counted c s' := by
  unfold LakeReader.step at hstep
  split_ifs at hstep with hup
  cases l with
  | arrive i method target =>
    dsimp only at hstep
    split at hstep
    · rename_i hi
      obtain rfl := Option.some.inj hstep
      exact h.arrive hup hi method target
    · cases hstep
  | go i w => exact h.go hstep
  | reply i answer =>
    dsimp only at hstep
    split at hstep
    · rename_i command x large hi
      obtain rfl := Option.some.inj hstep
      obtain ⟨hslot, hlarge, hrefused⟩ := @replied_holds c large command x answer
      exact h.goto hi hslot hlarge hrefused
    · cases hstep
  | finish i => exact h.finish hstep

theorem Reached.counted (h : Reached c w ls s) : Counted c s := by
  induction h with
  | start => exact counted_initial
  | step _ hstep ih => exact ih.step hstep

/-! ## Whether requests are taken -/

/-- No request is on its way. -/
def Quiet (s : State ι) : Prop := ∀ i, (s.stage i).holdsSlot = false ∨ s.stage i = .lost

/-- A request is not turned away. -/
def Takes (c : Config) (s : State ι) (i : ι) (target : JsString) : Prop :=
  ∃ s', step c s (.arrive i (js "GET") target) = some s' ∧ s'.stage i ≠ .done busy

/-- A GET is taken where a slot is free. -/
theorem takes_of_free (hup : s.up = true) (hfree : s.slots < c.maxConcurrent) (hi : s.stage i = .unborn)
    (target : JsString) : Takes c s i target := by
  refine ⟨_, step_arrive hup hi _ target, ?_⟩
  rw [arrive_free hfree]
  unfold enter
  split <;> rw [goto_self] <;> exact Stage.noConfusion

/-- A reader whose URLs never raise takes requests when it is quiet. -/
theorem Reached.takes (h : Reached c w ls s) (hsplit : ∀ target, c.split target ≠ none) (hquiet : Quiet s)
    (hi : s.stage i = .unborn) (target : JsString) : Takes c s i target := by
  have hcounted := h.counted
  have hnone : ∀ j, (s.stage j).isRefused = false := by
    intro j
    cases hj : (s.stage j).isRefused with
    | false => rfl
    | true =>
      obtain ⟨target, htarget⟩ := hcounted.runs.refused j hj
      exact absurd htarget (hsplit target)
  -- nothing is on its way and nothing is lost, so that no slot is taken
  have hzero : s.slots = 0 := by
    refine hcounted.taken.eq_zero.mpr fun j => (hquiet j).resolve_right fun hlost => ?_
    have := hnone j
    rw [hlost] at this
    cases this
  exact takes_of_free (hcounted.runs.up hnone) (hzero ▸ c.slotsValid.1) hi target

/-! ### URLs that raise -/

/-- An empty directory of receipts for each inventory. -/
def bare : World := ⟨fun _ => ⟨0, 0, []⟩, .start, fun _ => ⟨some (some ⟨0, []⟩), []⟩⟩

/-- A reader can be started. -/
theorem starts (c : Config) : ∃ receipts, startReceipts c bare = .ok receipts := by
  have hone : ∀ e : Index × Nat, ∃ r, (if c.receipts e.2 then
      some <$> Receipts.start bare.disk e.1 c.repository (bare.directories e.2) c.language else .ok none) =
        (.ok r : Except String (Option Receipts)) := by
    intro e
    split_ifs
    · cases c.language
      · exact ⟨_, rfl⟩
      · exact ⟨_, rfl⟩
    · exact ⟨_, rfl⟩
  unfold startReceipts
  induction (partsOf c.source).zipIdx with
  | nil => exact ⟨[], rfl⟩
  | cons e es ih =>
    obtain ⟨r, hr⟩ := hone e
    obtain ⟨rs, hrs⟩ := ih
    exact ⟨r :: rs, by rw [List.mapM_cons, hr, hrs]; rfl⟩

/-- So many requests have been lost, and no other one has come. -/
structure Lost (c : Config) (s : State Nat) (n : Nat) : Prop where
  reached : ∃ ls, Reached c bare ls s
  up : s.up = true
  slots : s.slots = n
  lost : ∀ i < n, s.stage i = .lost
  unborn : ∀ i, n ≤ i → s.stage i = .unborn

/-- **Python loses a slot** for each URL that raises. -/
theorem exists_lost {target : JsString} (hpython : c.language = .python) (hsplit : c.split target = none) {n : Nat}
    (hn : n ≤ c.maxConcurrent) : ∃ s, Lost c s n := by
  induction n with
  | zero =>
    obtain ⟨receipts, h⟩ := starts c
    exact ⟨State.initial receipts, ⟨[], .start h⟩, rfl, rfl, fun _ hi => absurd hi (Nat.not_lt_zero _), fun _ _ => rfl⟩
  | succ n ih =>
    obtain ⟨s, ⟨ls, hreached⟩, hup, hslots, hlost, hunborn⟩ := ih (Nat.le_of_succ_le hn)
    have hstep : step c s (.arrive n (js "GET") target) = some ({ s with slots := s.slots + 1 }.goto n .lost) := by
      rw [step_arrive hup (hunborn n le_rfl), arrive_free (hslots.trans_lt hn), enter, hsplit, hpython]
    refine ⟨_, ⟨_, hreached.step hstep⟩, hup, congrArg (· + 1) hslots, fun i hi => ?_, fun i hi => ?_⟩
    · rcases Nat.lt_succ_iff_lt_or_eq.mp hi with hi | rfl
      · rw [goto_of_ne hi.ne]
        exact hlost i hi
      · exact goto_self
    · rw [goto_of_ne (by omega)]
      exact hunborn i (by omega)

/-- A URL that raises keeps others out, in both languages. -/
theorem exists_refusing {target : JsString} (hsplit : c.split target = none) :
    ∃ (ls : List (Label Nat)) (s : State Nat) (i : Nat), Reached c bare ls s ∧ Quiet s ∧ s.stage i = .unborn ∧
      ¬ Takes c s i target := by
  cases hlanguage : c.language with
  | python =>
    -- all slots have been lost
    obtain ⟨s, ⟨ls, hreached⟩, hup, hslots, hlost, hunborn⟩ := exists_lost hlanguage hsplit le_rfl
    refine ⟨ls, s, c.maxConcurrent, hreached, fun i => ?_, hunborn _ le_rfl, ?_⟩
    · rcases Nat.lt_or_ge i c.maxConcurrent with hi | hi
      · exact .inr (hlost i hi)
      · rw [hunborn i hi]
        exact .inl rfl
    · rintro ⟨s', hstep, hnot⟩
      rw [step_arrive hup (hunborn _ le_rfl), arrive_busy hslots.ge] at hstep
      obtain rfl := Option.some.inj hstep
      exact hnot goto_self
  | kotoba =>
    -- the first request ends the reader
    obtain ⟨receipts, h⟩ := starts c
    have hstep : step c (State.initial receipts : State Nat) (.arrive 0 (js "GET") target) =
        some ({ State.initial receipts with up := false }.goto 0 .crashed) := by
      have hfree : (State.initial receipts : State Nat).slots < c.maxConcurrent := c.slotsValid.1
      rw [step_arrive rfl rfl, arrive_free hfree, enter, hsplit, hlanguage]
    refine ⟨_, _, 1, (Reached.start h).step hstep, fun i => .inl ?_, rfl, ?_⟩
    · by_cases hi : i = 0
      · rw [hi, goto_self]
        rfl
      · rw [goto_of_ne hi]
        rfl
    · rintro ⟨s', hstep, -⟩
      rw [step_down rfl] at hstep
      cases hstep

/-- **Slots are exact**: those that are counted are held by requests that are on their way, or were lost; one request at
most holds the slot for large blocks. A quiet reader takes requests in all runs just where no URL raises. -/
theorem slots_exact (c : Config) :
    (∀ (ls : List (Label Nat)) (s : State Nat) (w : World), Reached c w ls s → s.slots ≤ c.maxConcurrent ∧
      Taken (fun i => (s.stage i).holdsSlot) s.slots ∧
      (s.large = true ↔ ∃ i, (s.stage i).holdsLarge = true) ∧
      ∀ i j, (s.stage i).holdsLarge = true → (s.stage j).holdsLarge = true → i = j) ∧
    ((∀ (ls : List (Label Nat)) (s : State Nat) (w : World), Reached c w ls s → Quiet s →
      ∀ i, s.stage i = .unborn → ∀ target, Takes c s i target) ↔ ∀ target, c.split target ≠ none) := by
  constructor
  · intro ls s w hreached
    have h := hreached.counted
    refine ⟨h.le, h.taken, ?_, fun i j hi hj => h.large.alone (Bool.toNat_le _) hi hj⟩
    rw [← not_iff_not, Bool.not_eq_true, ← Bool.toNat_eq_zero, h.large.eq_zero, not_exists]
    exact forall_congr' fun i => iff_of_eq (Bool.not_eq_true _).symm
  · constructor
    · intro htakes target hsplit
      obtain ⟨ls, s, i, hreached, hquiet, hi, hnot⟩ := exists_refusing hsplit
      exact hnot (htakes ls s bare hreached hquiet i hi target)
    · intro hsplit ls s w hreached hquiet i hi target
      exact hreached.takes hsplit hquiet hi target

end LakeReader
