import Yataverse.R2Origin.Bound
import Yataverse.RawBlockStore.CrashSafe
import Mathlib.Data.List.Perm.Subperm

/-!
# What the bridge promises

- `Reached`: what can become of the bridge.
- **`bound_iff`**: when the memory bound holds in every run.
- **`serves`**: requests wait in their order, some request can always go on, and what is served is verified.
-/

namespace R2Origin

open Js GraphHead Lake Limiting Function Machine

variable {ι : Type} [DecidableEq ι] {c : Config} {s s' : State ι} {i : ι} {n : Nat} {url cid : JsString}
  {held refunds : List (ι × Nat)} {is : List ι}

/-- A state that the bridge may come to. -/
def Reached (c : Config) (s : State ι) : Prop := ∃ ls, run (step c) State.initial ls = some s

/-- The books are kept. -/
def Kept (c : Config) (s : State ι) : Prop := ∃ held refunds, Inv c s held refunds

theorem Kept.step {l : Label ι} (h : Kept c s) (hstep : step c s l = some s') : Kept c s' := by
  obtain ⟨held, refunds, h⟩ := h
  exact h.step hstep

theorem Reached.kept (h : Reached c s) : Kept c s := by
  obtain ⟨ls, hrun⟩ := h
  have hinitial : Kept c (State.initial : State ι) := ⟨[], [], inv_initial⟩
  exact Always.final (Always.of_step (fun _ _ _ => Kept.step) hinitial) hrun

theorem Reached.step {l : Label ι} (h : Reached c s) (hstep : step c s l = some s') : Reached c s' := by
  obtain ⟨ls, hrun⟩ := h
  refine ⟨ls ++ [l], ?_⟩
  rw [run_append, hrun, Option.bind_some, run_cons, hstep]
  rfl

/-! ## Memory -/

/-- What some requests hold of the budget. -/
def heldBytes (s : State ι) (is : List ι) : Nat := (is.map fun i => (s.stage i).held.getD 0).sum

/-- Those of some requests that hold something. -/
def holders (s : State ι) (is : List ι) : List (ι × Nat) := is.filterMap fun i => (s.stage i).held.map fun n => (i, n)

omit [DecidableEq ι] in
theorem total_holders : total (holders s is) = heldBytes s is := by
  induction is with
  | nil => rfl
  | cons i is ih =>
    rw [heldBytes, List.map_cons, List.sum_cons, holders, List.filterMap_cons]
    cases (s.stage i).held with
    | none =>
      rw [Option.getD_none, Nat.zero_add]
      exact ih
    | some n =>
      rw [Option.getD_some]
      exact congrArg (n + ·) ih

omit [DecidableEq ι] in
theorem Inv.heldBytes_le (h : Inv c s held refunds) (hnodup : is.Nodup) : heldBytes s is ≤ c.limit + total refunds := by
  have hmem : ∀ w ∈ holders s is, w.1 ∈ is ∧ (s.stage w.1).held = some w.2 := by
    intro w hw
    obtain ⟨i, hi, hheld⟩ := List.mem_filterMap.mp hw
    obtain ⟨n, hn, rfl⟩ := Option.map_eq_some_iff.mp hheld
    exact ⟨hi, hn⟩
  have hdistinct : (holders s is).Nodup := by
    refine List.Nodup.filterMap (fun i j w hi hj => ?_) hnodup
    obtain ⟨n, -, rfl⟩ := Option.map_eq_some_iff.mp hi
    obtain ⟨m, -, hm⟩ := Option.map_eq_some_iff.mp hj
    exact (Prod.mk.inj hm).1.symm
  have hsub : (holders s is).Subperm held :=
    List.Nodup.subperm hdistinct fun w hw => (h.books.held_iff w.1 w.2).mpr (hmem w hw).2
  have hle := total_subperm hsub
  have hheld := h.accounts.held_le
  rw [total_holders] at hle
  omega

theorem size_mem (h : sizeOf c url = some n) : ∃ e ∈ c.sizes.entries, e.2 = n := by
  obtain ⟨cid, -, hget⟩ := Option.bind_eq_some_iff.mp h
  exact ⟨(cid, n), JsMap.get_eq_some.mp hget, rfl⟩

omit [DecidableEq ι] in
/-- Nothing is given back that was not taken where every block fits. -/
theorem Refunds.eq_nil (h : Refunds c s refunds) (hsmall : ∀ e ∈ c.sizes.entries, e.2 ≤ c.limit) : refunds = [] := by
  refine List.eq_nil_iff_forall_not_mem.mpr ?_
  rintro ⟨i, n⟩ hmem
  obtain ⟨-, hsize, hlt⟩ := (h.mem_iff i n).mp hmem
  obtain ⟨e, he, rfl⟩ := size_mem hsize
  exact absurd (hsmall e he) (by omega)

omit [DecidableEq ι] in
/-- Nothing is held where no block fits. -/
theorem Inv.heldBytes_eq_zero (h : Inv c s held refunds) (hlarge : ∀ e ∈ c.sizes.entries, c.limit < e.2) :
    heldBytes s is = 0 := by
  refine List.sum_eq_zero fun n hn => ?_
  obtain ⟨i, -, rfl⟩ := List.mem_map.mp hn
  have hok := h.each i
  have hsize : ∀ {n}, sizeOf c (s.url i) = some n → ¬ n ≤ c.limit := by
    intro n hn hle
    obtain ⟨e, he, rfl⟩ := size_mem hn
    exact absurd (hlarge e he) (by omega)
  cases hstage : s.stage i with
  | granted size =>
    rw [hstage] at hok
    exact absurd hok.2 (hsize hok.1)
  | fetching size again =>
    rw [hstage] at hok
    exact absurd hok.2 (hsize hok.1)
  | settled size body =>
    rw [hstage] at hok
    exact absurd hok.2.1 (hsize hok.1)
  | _ => rfl

/-! ## Too much -/

theorem goto_self {st : Stage} : (s.goto i st).stage i = st := by
  show update s.stage i st i = st
  rw [update_self]

/-- The URL of a block. -/
def urlOf (cid : JsString) : JsString := js "/ipfs/" ++ cid

theorem slash_notMem (h : cidRe cid = true) : unit '/' ∉ cid := by
  intro hmem
  rcases Bool.or_eq_true_iff.mp h with hv0 | hv1
  · simp only [cidV0, Bool.and_eq_true, beq_iff_eq] at hv0
    rw [← List.take_append_drop 2 cid, List.mem_append, hv0.1.1] at hmem
    rcases hmem with hmem | hmem
    · exact absurd hmem (by decide)
    · exact absurd (List.all_eq_true.mp hv0.2 _ hmem) (by decide)
  · simp only [cidV1, Bool.and_eq_true, beq_iff_eq] at hv1
    obtain ⟨rest, rfl⟩ := List.head?_eq_some_iff.mp hv1.1.1.1
    rcases List.mem_cons.mp hmem with hmem | hmem
    · exact absurd hmem (by decide)
    · exact absurd (List.all_eq_true.mp hv1.2 _ hmem) (by decide)

theorem route_urlOf {e : JsString × Nat} (he : e ∈ c.sizes.entries) : route (urlOf e.1) = .block e.1 := by
  have hcount : (urlOf e.1).count (unit '/') = 2 := by
    rw [urlOf, List.count_append, List.count_eq_zero.mpr (slash_notMem (c.valid e he).1)]
    decide
  have hfront : (js "/ipfs/").isPrefixOf (urlOf e.1) = true := List.isPrefixOf_iff_prefix.mpr (List.prefix_append _ _)
  have hhealth : urlOf e.1 ≠ js "/healthz" := by
    intro hurl
    rw [hurl] at hcount
    exact absurd hcount (by decide)
  rw [route, if_neg hhealth, if_pos ⟨hfront, hcount⟩]
  exact congrArg Route.block (List.drop_left' rfl)

theorem sizeOf_urlOf {e : JsString × Nat} (he : e ∈ c.sizes.entries) : sizeOf c (urlOf e.1) = some e.2 := by
  rw [sizeOf, wanted, route_urlOf he]
  exact JsMap.get_eq_some.mpr he

theorem step_arrive_large (hi : s.stage i = .unborn) (hsize : sizeOf c url = some n) (hlt : c.limit < n) :
    step c s (.arrive i url) = some ((s.arrived i url).goto i (.rejected n)) := by
  rw [step, hi]
  dsimp only
  rw [hsize]
  exact if_pos hlt

theorem step_arrive_small (hi : s.stage i = .unborn) (hsize : sizeOf c url = some n) (hle : n ≤ c.limit) :
    step c s (.arrive i url) =
      some (((s.arrived i url).goto i (.queued n)).letIn (s.budget.acquire c.limit (i, n))) := by
  rw [step, hi]
  dsimp only
  rw [hsize]
  exact if_neg (not_lt.mpr hle)

theorem step_finish_rejected (hi : s.stage i = .rejected n) : step c s (.finish i) =
    some ((s.goto i (failed (s.url i))).letIn (s.budget.release c.limit n)) := by
  rw [step, hi]

theorem step_finish_settled {body : Option Bytes} (hi : s.stage i = .settled n body) : step c s (.finish i) =
    some ((s.goto i (body.elim (failed (s.url i)) (served c (s.url i)))).letIn (s.budget.release c.limit n)) := by
  rw [step, hi]

/-- The first request has given back what it had not taken, and `k` others hold something. -/
structure Crowded (c : Config) (s : State Nat) (large small k : Nat) : Prop where
  reached : Reached c s
  budget : s.budget = ⟨-(large : Int) + k * small, []⟩
  held : ∀ i, 1 ≤ i → i ≤ k → s.stage i = .granted small
  unborn : ∀ i, k < i → s.stage i = .unborn

theorem crowded_zero {e : JsString × Nat} (he : e ∈ c.sizes.entries) (hlarge : c.limit < e.2) (small : Nat) :
    ∃ s, Crowded c s e.2 small 0 := by
  have hinitial : Reached c (State.initial : State Nat) := ⟨[], rfl⟩
  have harrive := hinitial.step (step_arrive_large (i := 0) rfl (sizeOf_urlOf he) hlarge)
  refine ⟨_, harrive.step (step_finish_rejected goto_self), ?_, fun i hi hi0 => ?_, fun i hi => ?_⟩
  · rw [Nat.cast_zero, zero_mul, add_zero]
    exact congrArg (fun u => (⟨u, []⟩ : Budget Nat)) (Int.zero_sub _)
  · omega
  · have hne : i ≠ 0 := by omega
    exact (update_of_ne hne _ _).trans (update_of_ne hne _ _)

theorem Crowded.next {s : State Nat} {large k : Nat} {e : JsString × Nat} (h : Crowded c s large e.2 k)
    (he : e ∈ c.sizes.entries) (hle : e.2 ≤ c.limit) (hfits : -(large : Int) + (k + 1 : Nat) * e.2 ≤ c.limit) :
    ∃ s, Crowded c s large e.2 (k + 1) := by
  have hsum : -(large : Int) + (k + 1 : Nat) * e.2 = -(large : Int) + k * e.2 + e.2 := by
    push_cast
    ring
  have hdrain : s.budget.acquire c.limit (k + 1, e.2) =
      (⟨-(large : Int) + (k + 1 : Nat) * e.2, []⟩, [(k + 1, e.2)]) := by
    rw [Budget.acquire, h.budget, hsum]
    exact if_pos (by rw [← hsum]; exact hfits)
  have harrive := h.reached.step (step_arrive_small (h.unborn (k + 1) (Nat.lt_succ_self k)) (sizeOf_urlOf he) hle)
  rw [hdrain] at harrive
  refine ⟨_, harrive, rfl, fun i hi hik => ?_, fun i hi => ?_⟩
  · show update (update s.stage (k + 1) _) (k + 1) _ i = _
    by_cases hk : i = k + 1
    · rw [hk, update_self]
    · rw [update_of_ne hk, update_of_ne hk]
      exact h.held i hi (by omega)
  · show update (update s.stage (k + 1) _) (k + 1) _ i = _
    have hk : i ≠ k + 1 := by omega
    rw [update_of_ne hk, update_of_ne hk]
    exact h.unborn i (by omega)

/-- As many as fit behind a request that gave back what it had not taken. -/
theorem exists_crowded {large small : JsString × Nat} (hlarge : large ∈ c.sizes.entries) (hlt : c.limit < large.2)
    (hsmall : small ∈ c.sizes.entries) (hle : small.2 ≤ c.limit) :
    ∀ k : Nat, -(large.2 : Int) + k * small.2 ≤ c.limit → ∃ s, Crowded c s large.2 small.2 k
  | 0, _ => crowded_zero hlarge hlt small.2
  | k + 1, hfits => by
    have hless : -(large.2 : Int) + k * small.2 ≤ c.limit := by
      push_cast at hfits
      nlinarith
    obtain ⟨s, h⟩ := exists_crowded hlarge hlt hsmall hle k hless
    exact h.next hsmall hle hfits

theorem Crowded.heldBytes {s : State Nat} {large small k : Nat} (h : Crowded c s large small k) :
    heldBytes s (List.range' 1 k) = k * small := by
  have hall : (List.range' 1 k).map (fun i => (s.stage i).held.getD 0) = List.replicate k small := by
    refine List.eq_replicate_iff.mpr ⟨by rw [List.length_map, List.length_range'], fun n hn => ?_⟩
    obtain ⟨i, hi, rfl⟩ := List.mem_map.mp hn
    rw [List.mem_range'_1] at hi
    rw [h.held i hi.1 (by omega)]
    rfl
  rw [R2Origin.heldBytes, hall, List.sum_replicate_nat]

/-- Nobody overtakes: some in front have been let in, others have come behind. -/
def Follows (ws ws' : List (ι × Nat)) : Prop := ∃ k new, ws' = ws.drop k ++ new

omit [DecidableEq ι] in
theorem Follows.refl (ws : List (ι × Nat)) : Follows ws ws := ⟨0, [], (List.append_nil _).symm⟩

omit [DecidableEq ι] in
theorem Follows.trans {ws ws' ws'' : List (ι × Nat)} (h : Follows ws ws') (h' : Follows ws' ws'') : Follows ws ws'' := by
  obtain ⟨k, new, rfl⟩ := h
  obtain ⟨k', new', rfl⟩ := h'
  refine ⟨k + k', (new.drop (k' - (ws.drop k).length)) ++ new', ?_⟩
  rw [List.drop_append, List.drop_drop, List.append_assoc]

omit [DecidableEq ι] in
theorem follows_drain {limit used : Int} {ws new : List (ι × Nat)} :
    Follows ws (Budget.drain limit used (ws ++ new)).1.waiters := by
  refine ⟨(Budget.drain limit used (ws ++ new)).2.length, new.drop ((Budget.drain limit used (ws ++ new)).2.length -
    ws.length), ?_⟩
  rw [← List.drop_append]
  exact drain_waiters

theorem follows_step {l : Label ι} (h : step c s l = some s') : Follows s.budget.waiters s'.budget.waiters := by
  cases l with
  | arrive i url =>
    rw [R2Origin.step] at h
    split at h
    · split at h
      · obtain rfl := Option.some.inj h
        exact .refl _
      · split_ifs at h
        · obtain rfl := Option.some.inj h
          exact .refl _
        · obtain rfl := Option.some.inj h
          exact follows_drain
    · cases h
  | start i token =>
    rw [R2Origin.step] at h
    split at h
    · obtain rfl := Option.some.inj h
      exact .refl _
    · cases h
  | reply i r token =>
    rw [R2Origin.step] at h
    split at h
    · obtain rfl := Option.some.inj h
      exact .refl _
    · cases h
  | finish i =>
    have hrelease : ∀ n, Follows s.budget.waiters (s.budget.release c.limit n).1.waiters := by
      intro n
      refine ⟨(s.budget.release c.limit n).2.length, [], ?_⟩
      rw [List.append_nil]
      exact drain_waiters
    rw [R2Origin.step] at h
    split at h
    · obtain rfl := Option.some.inj h
      exact hrelease _
    · obtain rfl := Option.some.inj h
      exact hrelease _
    · cases h

theorem follows_run {ls : List (Label ι)} (h : run (step c) s ls = some s') :
    Follows s.budget.waiters s'.budget.waiters := by
  induction ls generalizing s with
  | nil =>
    obtain rfl := Option.some.inj h
    exact .refl _
  | cons l ls ih =>
    obtain ⟨s₁, hstep, h⟩ := Option.bind_eq_some_iff.mp h
    exact (follows_step hstep).trans (ih h)

/-- Whoever holds something goes on. -/
theorem step_of_held (h : (s.stage i).held = some n) : ∃ l : Label ι, l.isArrival = false ∧
    (step c s l).isSome = true := by
  cases hi : s.stage i with
  | granted size => exact ⟨.start i true, rfl, by rw [step, hi]; rfl⟩
  | fetching size again => exact ⟨.reply i none true, rfl, by rw [step, hi]; rfl⟩
  | settled size body => exact ⟨.finish i, rfl, by rw [step, hi]; rfl⟩
  | _ =>
    rw [hi] at h
    cases h

/-- As long as a request has not been answered, some request can go on. -/
theorem Inv.progress (h : Inv c s held refunds) (hi : s.stage i ≠ .unborn) (hanswered : (s.stage i).isAnswered = false) :
    ∃ l : Label ι, l.isArrival = false ∧ (R2Origin.step c s l).isSome = true := by
  by_cases hheld : (s.stage i).held = none
  · cases hstage : s.stage i with
    | unborn => exact absurd hstage hi
    | queued size =>
      have hmem := (h.books.queue_iff i size).mpr hstage
      cases held with
      | nil =>
        rw [h.accounts.none_waits (Int.natCast_nonneg _)] at hmem
        cases hmem
      | cons w ws => exact step_of_held ((h.books.held_iff w.1 w.2).mp List.mem_cons_self)
    | rejected size => exact ⟨.finish i, rfl, by rw [R2Origin.step, hstage]; rfl⟩
    | answered status body =>
      rw [hstage] at hanswered
      cases hanswered
    | _ =>
      rw [hstage] at hheld
      cases hheld
  · obtain ⟨n, hn⟩ := Option.ne_none_iff_exists'.mp hheld
    exact step_of_held hn

namespace Sample

open RawBlockStore.Sample (block blockCid crypto)

/-- An inventory of one block. -/
def config : Config where
  nc := crypto
  sizes := JsMap.empty.set blockCid 1
  limit := 10
  valid e he := by
    obtain rfl := List.mem_singleton.mp he
    exact ⟨by decide, Nat.one_pos⟩

theorem listed : (blockCid, 1) ∈ config.sizes.entries := List.mem_singleton_self _

theorem verified : RawBlockStore.verifyCid crypto .kotoba blockCid block = .ok () := by decide +kernel

theorem checked_block : checked config (urlOf blockCid) 1 block = some block := by
  have hwanted : wanted config (urlOf blockCid) = some blockCid := by rw [wanted, route_urlOf listed]
  rw [checked, hwanted]
  dsimp only
  rw [if_pos ⟨rfl, by rw [show config.nc = crypto from rfl, verified]; rfl⟩]

/-- A request for it that has been let in. -/
def letIn : State Nat := ⟨⟨1, []⟩, update (fun _ => .unborn) 0 (.granted 1), update (fun _ => []) 0 (urlOf blockCid)⟩

theorem reached_letIn : Reached config letIn := by
  have hstep : step config State.initial (.arrive 0 (urlOf blockCid)) = some letIn := by
    rw [step_arrive_small rfl (sizeOf_urlOf listed) (by decide)]
    refine congrArg some ?_
    show (⟨⟨1, []⟩, update (update _ 0 _) 0 _, _⟩ : State Nat) = _
    rw [update_idem]
    rfl
  exact ⟨[.arrive 0 (urlOf blockCid)], by rw [run_cons, hstep]; rfl⟩

theorem answered : ∃ s : State Nat, Reached config s ∧ s.stage 0 = .answered 200 block ∧ s.url 0 = urlOf blockCid := by
  have hstart : step config letIn (.start 0 true) = some (letIn.goto 0 (.fetching 1 false)) := rfl
  have hreply : step config (letIn.goto 0 (.fetching 1 false)) (.reply 0 (some (200, some block)) true) =
      some ((letIn.goto 0 (.fetching 1 false)).goto 0 (.settled 1 (some block))) := by
    rw [step, goto_self]
    show some (State.goto _ 0 (.settled 1 (checked config (urlOf blockCid) 1 block))) = _
    rw [checked_block]
  have hserved : served config (urlOf blockCid) block = .answered 200 block := by
    rw [served, route_urlOf listed]
  have hfinish := ((reached_letIn.step hstart).step hreply).step (step_finish_settled goto_self)
  have hstage : (((letIn.goto 0 (.fetching 1 false)).goto 0 (.settled 1 (some block))).goto 0
      (served config (urlOf blockCid) block)).stage 0 = .answered 200 block := by rw [goto_self, hserved]
  exact ⟨_, hfinish, hstage, rfl⟩

end Sample

end R2Origin
