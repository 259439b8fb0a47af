import Yataverse.Machine.Run
import Yataverse.R2Origin.Bridge

/-!
# What the bridge holds

- `Books`: the budget agrees with how far the requests are.
- `StageOk`: what is known of a request by how far it is.
- `Inv`, `Inv.step`: both, with what was given back by requests that had taken nothing.
-/

namespace R2Origin

open Js GraphHead Lake Limiting Function

variable {ι : Type} [DecidableEq ι] {c : Config} {s s' : State ι} {i j : ι} {n size status : Nat} {url : JsString}
  {body : Bytes} {stage : ι → Stage} {st : Stage} {held queue refunds ws : List (ι × Nat)}

/-! ## Letting in -/

theorem grant_of_notMem (h : i ∉ ws.map Prod.fst) : grant stage ws i = stage i := by
  induction ws generalizing stage with
  | nil => rfl
  | cons w ws ih =>
    rw [List.map_cons, List.mem_cons, not_or] at h
    rw [grant, List.foldl_cons]
    exact (ih h.2).trans (update_of_ne h.1 _ _)

theorem grant_of_mem (hnodup : (ws.map Prod.fst).Nodup) (h : (i, n) ∈ ws) : grant stage ws i = .granted n := by
  induction ws generalizing stage with
  | nil => cases h
  | cons w ws ih =>
    obtain ⟨hnew, hnodup⟩ := List.nodup_cons.mp hnodup
    rw [grant, List.foldl_cons]
    rcases List.mem_cons.mp h with rfl | h
    · exact (grant_of_notMem hnew).trans (update_self _ _ _)
    · exact ih hnodup h

/-- Who holds some of the budget, and who waits for it. -/
structure Books (stage : ι → Stage) (held queue : List (ι × Nat)) : Prop where
  held_iff : ∀ i n, (i, n) ∈ held ↔ (stage i).held = some n
  held_nodup : (held.map Prod.fst).Nodup
  queue_iff : ∀ i n, (i, n) ∈ queue ↔ stage i = .queued n
  queue_nodup : (queue.map Prod.fst).Nodup

/-- A stage in which a request is on neither list. -/
def Stage.Off (st : Stage) : Prop := st.held = none ∧ ∀ n, st ≠ .queued n

omit [DecidableEq ι] in
theorem Books.start : Books (fun _ : ι => Stage.unborn) [] [] :=
  ⟨fun _ _ => by simp [Stage.held], List.nodup_nil, fun _ _ => by simp, List.nodup_nil⟩

omit [DecidableEq ι] in
theorem Books.notMem_queue (h : Books stage held queue) (hi : ∀ n, stage i ≠ .queued n) : i ∉ queue.map Prod.fst := by
  intro hmem
  obtain ⟨⟨j, n⟩, hw, rfl⟩ := List.mem_map.mp hmem
  exact hi n ((h.queue_iff j n).mp hw)

omit [DecidableEq ι] in
theorem Books.notMem_held (h : Books stage held queue) (hi : (stage i).held = none) : i ∉ held.map Prod.fst := by
  intro hmem
  obtain ⟨⟨j, n⟩, hw, rfl⟩ := List.mem_map.mp hmem
  rw [(h.held_iff j n).mp hw] at hi
  cases hi

/-- Those that are let in hold what they waited for. -/
theorem Books.letIn (h : Books stage held (ws ++ queue)) : Books (grant stage ws) (held ++ ws) queue := by
  have hnodup := h.queue_nodup
  rw [List.map_append] at hnodup
  obtain ⟨hws, hqueue, hdisjoint⟩ := List.nodup_append.mp hnodup
  have hqueued : ∀ {i n}, (i, n) ∈ ws → stage i = .queued n := fun hmem =>
    (h.queue_iff _ _).mp (List.mem_append_left _ hmem)
  have hother : ∀ {i}, (∀ n, stage i ≠ .queued n) → grant stage ws i = stage i := fun hi =>
    grant_of_notMem fun hmem => h.notMem_queue hi (by rw [List.map_append]; exact List.mem_append_left _ hmem)
  refine ⟨fun i n => ?_, ?_, fun i n => ?_, hqueue⟩
  · rw [List.mem_append]
    by_cases hmem : i ∈ ws.map Prod.fst
    · obtain ⟨⟨j, m⟩, hw, rfl⟩ := List.mem_map.mp hmem
      rw [grant_of_mem hws hw]
      constructor
      · rintro (hheld | hw')
        · have := (h.held_iff _ _).mp hheld
          rw [hqueued hw] at this
          cases this
        · have hsame := hqueued hw
          rw [hqueued hw'] at hsame
          rw [Stage.queued.inj hsame]
          rfl
      · intro hn
        exact .inr (Option.some.inj hn ▸ hw)
    · rw [grant_of_notMem hmem, h.held_iff, or_iff_left]
      exact fun hw => hmem (List.mem_map_of_mem hw)
  · rw [List.map_append]
    refine List.nodup_append.mpr ⟨h.held_nodup, hws, fun i hheld j hj hij => ?_⟩
    subst hij
    obtain ⟨⟨k, n⟩, hw, rfl⟩ := List.mem_map.mp hj
    exact h.notMem_held (by rw [hqueued hw]; rfl) hheld
  · by_cases hmem : i ∈ ws.map Prod.fst
    · obtain ⟨⟨k, m⟩, hw, rfl⟩ := List.mem_map.mp hmem
      rw [grant_of_mem hws hw]
      refine iff_of_false (fun hq => ?_) Stage.noConfusion
      exact hdisjoint k (List.mem_map_of_mem hw) k (List.mem_map_of_mem hq) rfl
    · rw [grant_of_notMem hmem, ← h.queue_iff, List.mem_append, or_iff_right]
      exact fun hw => hmem (List.mem_map_of_mem hw)

/-- A request that was on neither list waits at the end. -/
theorem Books.enqueue (h : Books stage held queue) (hi : (stage i).Off) :
    Books (update stage i (.queued n)) held (queue ++ [(i, n)]) := by
  refine ⟨fun j m => ?_, h.held_nodup, fun j m => ?_, ?_⟩
  · rw [h.held_iff]
    by_cases hj : j = i
    · subst hj
      rw [update_self, hi.1]
      exact Iff.rfl
    · rw [update_of_ne hj]
  · rw [List.mem_append, List.mem_singleton, h.queue_iff]
    by_cases hj : j = i
    · subst hj
      rw [update_self, or_iff_right (hi.2 m), Prod.mk.injEq, eq_self_iff_true, true_and, Stage.queued.injEq, eq_comm]
    · rw [update_of_ne hj, or_iff_left]
      exact fun heq => hj (Prod.mk.inj heq).1
  · rw [List.map_append]
    refine List.nodup_append.mpr ⟨h.queue_nodup, List.nodup_singleton _, fun j hj k hk hjk => ?_⟩
    obtain rfl := List.mem_singleton.mp hk
    exact h.notMem_queue hi.2 (hjk ▸ hj)

/-- A request that goes on and holds as much as before. -/
theorem Books.move (h : Books stage held queue) (hheld : st.held = (stage i).held) (hi : ∀ n, stage i ≠ .queued n)
    (hst : ∀ n, st ≠ .queued n) : Books (update stage i st) held queue := by
  refine ⟨fun j m => ?_, h.held_nodup, fun j m => ?_, h.queue_nodup⟩
  · rw [h.held_iff]
    by_cases hj : j = i
    · subst hj
      rw [update_self, hheld]
    · rw [update_of_ne hj]
  · rw [h.queue_iff]
    by_cases hj : j = i
    · subst hj
      rw [update_self]
      exact iff_of_false (hi m) (hst m)
    · rw [update_of_ne hj]

/-- A request that holds nothing any more. -/
theorem Books.drop (h : Books stage held queue) (hn : (stage i).held = some n) (hst : st.Off) :
    Books (update stage i st) (held.erase (i, n)) queue := by
  have hkeys : held.Nodup := h.held_nodup.of_map
  refine ⟨fun j m => ?_, h.held_nodup.sublist (List.erase_sublist.map _), fun j m => ?_, h.queue_nodup⟩
  · rw [hkeys.mem_erase_iff, h.held_iff]
    by_cases hj : j = i
    · subst hj
      rw [update_self, hst.1, hn]
      refine iff_of_false ?_ (Option.some_ne_none _).symm
      rintro ⟨hne, hm⟩
      exact hne (Option.some.inj hm ▸ rfl)
    · rw [update_of_ne hj, and_iff_right]
      exact fun heq => hj (Prod.mk.inj heq).1
  · rw [h.queue_iff]
    by_cases hj : j = i
    · subst hj
      rw [update_self]
      refine iff_of_false (fun hq => ?_) (hst.2 m)
      rw [hq] at hn
      cases hn
    · rw [update_of_ne hj]

/-! ## Each request -/

/-- The body is the one of the block that the URL is about. -/
def Verified (c : Config) (url : JsString) (body : Bytes) : Prop :=
  ∃ cid, wanted c url = some cid ∧ c.sizes.get cid = some body.length ∧
    RawBlockStore.verifyCid c.nc .kotoba cid body = .ok ()

/-- What is known of a request. -/
def StageOk (c : Config) (url : JsString) : Stage → Prop
  | .unborn => True
  | .queued size | .granted size | .fetching size _ => sizeOf c url = some size ∧ size ≤ c.limit
  | .settled size body => sizeOf c url = some size ∧ size ≤ c.limit ∧ ∀ b, body = some b → Verified c url b
  | .rejected size => sizeOf c url = some size ∧ c.limit < size
  | .answered status body => status = 200 → ∃ b, Verified c url b ∧ ∀ cid, route url = .block cid → body = b

theorem stageOk_fail (hstatus : status ≠ 200) : StageOk c url (fail status) := fun h => absurd h hstatus

theorem stageOk_unlisted : StageOk c url (unlisted url) := by
  unfold unlisted
  split
  · exact stageOk_fail (by decide)
  · exact stageOk_fail (by decide)
  · exact stageOk_fail (by decide)

theorem stageOk_failed : StageOk c url (failed url) := by
  unfold failed
  split
  · exact stageOk_fail (by decide)
  · exact stageOk_fail (by decide)
  · exact stageOk_fail (by decide)

theorem stageOk_served (h : Verified c url body) : StageOk c url (served c url body) := by
  unfold served
  cases hroute : route url with
  | health => exact fun _ => ⟨body, h, fun cid hcid => by rw [hroute] at hcid; cases hcid⟩
  | block cid => exact fun _ => ⟨body, h, fun _ _ => rfl⟩
  | other => exact stageOk_fail (by decide)

theorem verified_of_checked (hsize : sizeOf c url = some size) {b : Bytes} (h : checked c url size body = some b) :
    Verified c url b := by
  unfold checked at h
  cases hwanted : wanted c url with
  | none =>
    rw [hwanted] at h
    cases h
  | some cid =>
    rw [hwanted] at h
    dsimp only at h
    split_ifs at h with hok
    obtain rfl := Option.some.inj h
    rw [sizeOf, hwanted, Option.bind_some, hok.1] at hsize
    refine ⟨cid, hwanted, hsize, ?_⟩
    cases hverify : RawBlockStore.verifyCid c.nc .kotoba cid body with
    | ok => rfl
    | error e =>
      rw [hverify] at hok
      cases hok.2

/-- What becomes of an answer of the bucket. -/
theorem stageOk_afterReply (hsize : sizeOf c url = some size) (hle : size ≤ c.limit) {again token : Bool} {r : Reply} :
    StageOk c url (afterReply c url size again r token) ∧ (afterReply c url size again r token).held = some size ∧
      ∀ n, afterReply c url size again r token ≠ .queued n := by
  have hnone : StageOk c url (.settled size none) := ⟨hsize, hle, fun b h => by cases h⟩
  unfold afterReply
  cases r with
  | none => exact ⟨hnone, rfl, fun _ => Stage.noConfusion⟩
  | some reply =>
    dsimp only
    split_ifs
    · exact ⟨⟨hsize, hle⟩, rfl, fun _ => Stage.noConfusion⟩
    · exact ⟨hnone, rfl, fun _ => Stage.noConfusion⟩
    · refine ⟨⟨hsize, hle, fun b h => ?_⟩, rfl, fun _ => Stage.noConfusion⟩
      obtain ⟨body, -, hbody⟩ := Option.bind_eq_some_iff.mp h
      exact verified_of_checked hsize hbody
    · exact ⟨hnone, rfl, fun _ => Stage.noConfusion⟩

theorem off_failed : (failed url).Off := by
  unfold failed
  split
  · exact ⟨rfl, fun _ => Stage.noConfusion⟩
  · exact ⟨rfl, fun _ => Stage.noConfusion⟩
  · exact ⟨rfl, fun _ => Stage.noConfusion⟩

/-! ## All requests -/

/-- The request has been answered. -/
def Stage.isAnswered : Stage → Bool
  | answered .. => true
  | _ => false

/-- The requests that gave something back without having taken it. -/
structure Refunds (c : Config) (s : State ι) (refunds : List (ι × Nat)) : Prop where
  nodup : (refunds.map Prod.fst).Nodup
  mem_iff : ∀ i n, (i, n) ∈ refunds ↔
    (s.stage i).isAnswered = true ∧ sizeOf c (s.url i) = some n ∧ c.limit < n

/-- What holds in every state, with those that hold something. -/
structure Inv (c : Config) (s : State ι) (held refunds : List (ι × Nat)) : Prop where
  accounts : Accounts c.limit s.budget held (total refunds)
  books : Books s.stage held s.budget.waiters
  each : ∀ i, StageOk c (s.url i) (s.stage i)
  refunds : Refunds c s refunds

omit [DecidableEq ι] in
theorem inv_initial : Inv c (State.initial : State ι) [] [] :=
  ⟨.start (Int.natCast_nonneg _), .start, fun _ => trivial, List.nodup_nil, fun _ _ => by simp [State.initial, Stage.isAnswered]⟩

/-- Letting in whoever fits. -/
theorem inv_letIn {used : Int} (haccounts : Accounts c.limit (Budget.drain c.limit used queue).1
      (held ++ (Budget.drain c.limit used queue).2) (total refunds))
    (hbooks : Books s.stage held queue) (heach : ∀ i, StageOk c (s.url i) (s.stage i)) (hrefunds : Refunds c s refunds) :
    Inv c (s.letIn (Budget.drain c.limit used queue)) (held ++ (Budget.drain c.limit used queue).2) refunds := by
  have horder := @drain_order _ c.limit used queue
  have hqueued : ∀ {i n}, (i, n) ∈ (Budget.drain c.limit used queue).2 → s.stage i = .queued n := fun hmem =>
    (hbooks.queue_iff _ _).mp (horder ▸ List.mem_append_left _ hmem)
  have hnodup : ((Budget.drain c.limit used queue).2.map Prod.fst).Nodup := by
    refine hbooks.queue_nodup.sublist (List.Sublist.map _ ?_)
    conv_rhs => rw [← horder]
    exact List.sublist_append_left _ _
  have hgrant : ∀ i, grant s.stage (Budget.drain c.limit used queue).2 i = s.stage i ∨
      ∃ n, s.stage i = .queued n ∧ grant s.stage (Budget.drain c.limit used queue).2 i = .granted n := by
    intro i
    by_cases hmem : i ∈ (Budget.drain c.limit used queue).2.map Prod.fst
    · obtain ⟨⟨j, n⟩, hw, rfl⟩ := List.mem_map.mp hmem
      exact .inr ⟨n, hqueued hw, grant_of_mem hnodup hw⟩
    · exact .inl (grant_of_notMem hmem)
  refine ⟨haccounts, .letIn (horder.symm ▸ hbooks), fun i => ?_, hrefunds.nodup, fun i n => ?_⟩
  · show StageOk c (s.url i) (grant s.stage _ i)
    rcases hgrant i with h | ⟨n, hn, h⟩
    · rw [h]
      exact heach i
    · have hi := heach i
      rw [hn] at hi
      rw [h]
      exact hi
  · rw [hrefunds.mem_iff]
    show _ ↔ (grant s.stage _ i).isAnswered = true ∧ _
    rcases hgrant i with h | ⟨n, hn, h⟩
    · rw [h]
      rfl
    · rw [h, hn]
      rfl

/-- One request that goes on and is not answered by that. -/
theorem Refunds.goto (h : Refunds c s refunds) (hi : (s.stage i).isAnswered = st.isAnswered ∨
    ∀ n, sizeOf c (s.url i) = some n → n ≤ c.limit) : Refunds c (s.goto i st) refunds := by
  refine ⟨h.nodup, fun j n => ?_⟩
  rw [h.mem_iff]
  show _ ↔ (update s.stage i st j).isAnswered = true ∧ sizeOf c (s.url j) = some n ∧ c.limit < n
  by_cases hj : j = i
  · subst hj
    rw [update_self]
    rcases hi with hi | hi
    · rw [hi]
    · refine iff_of_false ?_ ?_
      · rintro ⟨-, hn, hlt⟩
        exact absurd (hi n hn) (by omega)
      · rintro ⟨-, hn, hlt⟩
        exact absurd (hi n hn) (by omega)
  · rw [update_of_ne hj]

/-- A request that gives back what it has not taken. -/
theorem Refunds.add (h : Refunds c s refunds) (hi : (s.stage i).isAnswered = false) (hst : st.isAnswered = true)
    (hsize : sizeOf c (s.url i) = some n) (hlt : c.limit < n) : Refunds c (s.goto i st) (refunds ++ [(i, n)]) := by
  have hnew : i ∉ refunds.map Prod.fst := by
    intro hmem
    obtain ⟨⟨j, m⟩, hw, rfl⟩ := List.mem_map.mp hmem
    rw [((h.mem_iff j m).mp hw).1] at hi
    cases hi
  refine ⟨?_, fun j m => ?_⟩
  · rw [List.map_append]
    refine List.nodup_append.mpr ⟨h.nodup, List.nodup_singleton _, fun j hj k hk hjk => ?_⟩
    obtain rfl := List.mem_singleton.mp hk
    exact hnew (hjk ▸ hj)
  · rw [List.mem_append, List.mem_singleton, h.mem_iff]
    show _ ↔ (update s.stage i st j).isAnswered = true ∧ sizeOf c (s.url j) = some m ∧ c.limit < m
    by_cases hj : j = i
    · subst hj
      rw [update_self, hst, hi, hsize, Prod.mk.injEq, eq_self_iff_true, true_and]
      constructor
      · rintro (⟨hfalse, -⟩ | rfl)
        · cases hfalse
        · exact ⟨rfl, rfl, hlt⟩
      · rintro ⟨-, hm, -⟩
        exact .inr (Option.some.inj hm).symm
    · rw [update_of_ne hj, or_iff_left]
      exact fun heq => hj (Prod.mk.inj heq).1

/-! ## One step -/

/-- A request that has just arrived has its URL. -/
theorem inv_arrive (h : Inv c s held refunds) (hi : s.stage i = .unborn) :
    Inv c (s.arrived i url) held refunds := by
  refine ⟨h.accounts, h.books, fun j => ?_, h.refunds.nodup, fun j n => ?_⟩
  · show StageOk c (update s.url i url j) (s.stage j)
    by_cases hj : j = i
    · subst hj
      rw [hi]
      trivial
    · rw [update_of_ne hj]
      exact h.each j
  · rw [h.refunds.mem_iff]
    show _ ↔ (s.stage j).isAnswered = true ∧ sizeOf c (update s.url i url j) = some n ∧ c.limit < n
    by_cases hj : j = i
    · subst hj
      rw [hi]
      exact iff_of_false (fun h => by cases h.1) fun h => by cases h.1
    · rw [update_of_ne hj]

theorem each_goto (h : Inv c s held refunds) (hst : StageOk c (s.url i) st) :
    ∀ j, StageOk c ((s.goto i st).url j) ((s.goto i st).stage j) := by
  intro j
  show StageOk c (s.url j) (update s.stage i st j)
  by_cases hj : j = i
  · subst hj
    rw [update_self]
    exact hst
  · rw [update_of_ne hj]
    exact h.each j

/-- A request goes on, and the budget stays as it is. -/
theorem Inv.goto (h : Inv c s held refunds) (hst : StageOk c (s.url i) st) (hheld : st.held = (s.stage i).held)
    (hi : ∀ n, s.stage i ≠ .queued n) (hq : ∀ n, st ≠ .queued n)
    (hrefunds : (s.stage i).isAnswered = st.isAnswered ∨ ∀ n, sizeOf c (s.url i) = some n → n ≤ c.limit) :
    Inv c (s.goto i st) held refunds :=
  ⟨h.accounts, h.books.move hheld hi hq, each_goto h hst, h.refunds.goto hrefunds⟩

/-- A request waits, and whoever fits is let in. -/
theorem Inv.enqueue (h : Inv c s held refunds) (hi : s.stage i = .unborn) (hsize : sizeOf c (s.url i) = some size)
    (hle : size ≤ c.limit) : ∃ held', Inv c ((s.goto i (.queued size)).letIn (s.budget.acquire c.limit (i, size))) held'
      refunds := by
  have hoff : (s.stage i).Off := hi ▸ ⟨rfl, fun _ => Stage.noConfusion⟩
  exact ⟨_, inv_letIn (h.accounts.acquire (Int.ofNat_le.mpr hle)) (h.books.enqueue hoff) (each_goto h ⟨hsize, hle⟩)
    (h.refunds.goto (.inr fun n hn => by rw [hsize] at hn; exact Option.some.inj hn ▸ hle))⟩

/-- A request ends that has taken some of the budget. -/
theorem Inv.settle (h : Inv c s held refunds) {b : Option Bytes} (hi : s.stage i = .settled size b)
    (hst : StageOk c (s.url i) st) (hoff : st.Off) :
    ∃ held', Inv c ((s.goto i st).letIn (s.budget.release c.limit size)) held' refunds := by
  have hok := h.each i
  rw [hi] at hok
  have hheld : (s.stage i).held = some size := by
    rw [hi]
    rfl
  have hrelease := h.accounts.release ((h.books.held_iff i size).mpr hheld)
  refine ⟨_, inv_letIn hrelease (h.books.drop hheld hoff) (each_goto h hst) (h.refunds.goto (.inr fun n hn => ?_))⟩
  rw [hok.1] at hn
  exact Option.some.inj hn ▸ hok.2.1

/-- A request ends that has taken nothing of the budget, and gives it back nevertheless. -/
theorem Inv.reject (h : Inv c s held refunds) (hi : s.stage i = .rejected size) (hst : StageOk c (s.url i) st)
    (hoff : st.Off) (hanswered : st.isAnswered = true) : ∃ held' refunds',
      Inv c ((s.goto i st).letIn (s.budget.release c.limit size)) held' refunds' := by
  have hok := h.each i
  rw [hi] at hok
  have hrefunds := @Refunds.add _ _ _ _ _ size st _ h.refunds (hi ▸ rfl) hanswered hok.1 hok.2
  have htotal : total (refunds ++ [(i, size)]) = total refunds + size := by
    rw [total_append, total_cons, total_nil, add_zero]
  have hrefund : Accounts c.limit (s.budget.release c.limit size).1 (held ++ (s.budget.release c.limit size).2)
      (total (refunds ++ [(i, size)])) := by
    rw [htotal, Int.natCast_add]
    exact h.accounts.refund
  refine ⟨_, _, inv_letIn hrefund (h.books.move ?_ ?_ hoff.2) (each_goto h hst) hrefunds⟩
  · rw [hi, hoff.1]
    rfl
  · rw [hi]
    exact fun _ => Stage.noConfusion

theorem answered_failed : (failed url).isAnswered = true := by
  unfold failed
  split <;> rfl

theorem answered_unlisted : (unlisted url).isAnswered = true ∧ (unlisted url).Off := by
  unfold unlisted
  split
  · exact ⟨rfl, rfl, fun _ => Stage.noConfusion⟩
  · exact ⟨rfl, rfl, fun _ => Stage.noConfusion⟩
  · exact ⟨rfl, rfl, fun _ => Stage.noConfusion⟩

theorem off_served : (served c url body).Off := by
  unfold served
  split
  · exact ⟨rfl, fun _ => Stage.noConfusion⟩
  · exact ⟨rfl, fun _ => Stage.noConfusion⟩
  · exact ⟨rfl, fun _ => Stage.noConfusion⟩

/-- **One step** keeps the books. -/
theorem Inv.step {l : Label ι} (h : Inv c s held refunds) (hstep : step c s l = some s') :
    ∃ held' refunds', Inv c s' held' refunds' := by
  cases l with
  | arrive i url =>
    rw [R2Origin.step] at hstep
    split at hstep
    · rename_i hi
      have harrive := @inv_arrive _ _ _ _ _ url _ _ h hi
      have hurl : (s.arrived i url).url i = url := update_self _ _ _
      have hborn : (s.arrived i url).stage i = .unborn := hi
      cases hsize : sizeOf c url with
      | none =>
        rw [hsize] at hstep
        obtain rfl := Option.some.inj hstep
        refine ⟨held, refunds, harrive.goto ?_ ?_ ?_ answered_unlisted.2.2 (.inr fun n hn => ?_)⟩
        · rw [hurl]
          exact stageOk_unlisted
        · rw [answered_unlisted.2.1, hborn]
          rfl
        · rw [hborn]
          exact fun _ => Stage.noConfusion
        · rw [hurl, hsize] at hn
          cases hn
      | some size =>
        rw [hsize] at hstep
        dsimp only at hstep
        split_ifs at hstep with hlimit
        · obtain rfl := Option.some.inj hstep
          refine ⟨held, refunds, harrive.goto ?_ ?_ ?_ (fun _ => Stage.noConfusion) (.inl ?_)⟩
          · rw [hurl]
            exact ⟨hsize, hlimit⟩
          · rw [hborn]
            rfl
          · rw [hborn]
            exact fun _ => Stage.noConfusion
          · rw [hborn]
            rfl
        · obtain rfl := Option.some.inj hstep
          obtain ⟨held', h'⟩ := harrive.enqueue hborn (by rw [hurl]; exact hsize) (not_lt.mp hlimit)
          exact ⟨held', refunds, h'⟩
    · cases hstep
  | start i token =>
    rw [R2Origin.step] at hstep
    split at hstep
    · rename_i size hi
      obtain rfl := Option.some.inj hstep
      have hok := h.each i
      rw [hi] at hok
      refine ⟨held, refunds, h.goto ?_ ?_ ?_ ?_ (.inr fun n hn => ?_)⟩
      · cases token
        · exact ⟨hok.1, hok.2, fun b hb => by cases hb⟩
        · exact hok
      · rw [hi]
        cases token <;> rfl
      · rw [hi]
        exact fun _ => Stage.noConfusion
      · cases token <;> exact fun _ => Stage.noConfusion
      · rw [hok.1] at hn
        exact Option.some.inj hn ▸ hok.2
    · cases hstep
  | reply i r token =>
    rw [R2Origin.step] at hstep
    split at hstep
    · rename_i size again hi
      obtain rfl := Option.some.inj hstep
      have hok := h.each i
      rw [hi] at hok
      obtain ⟨hst, hheld, hq⟩ := @stageOk_afterReply c size (s.url i) hok.1 hok.2 again token r
      refine ⟨held, refunds, h.goto hst ?_ ?_ hq (.inr fun n hn => ?_)⟩
      · rw [hheld, hi]
        rfl
      · rw [hi]
        exact fun _ => Stage.noConfusion
      · rw [hok.1] at hn
        exact Option.some.inj hn ▸ hok.2
    · cases hstep
  | finish i =>
    rw [R2Origin.step] at hstep
    split at hstep
    · rename_i size body hi
      obtain rfl := Option.some.inj hstep
      have hok := h.each i
      rw [hi] at hok
      obtain ⟨held', h'⟩ : ∃ held', Inv c ((s.goto i (body.elim (failed (s.url i)) (served c (s.url i)))).letIn
          (s.budget.release c.limit size)) held' refunds := by
        cases body with
        | none => exact h.settle hi stageOk_failed off_failed
        | some b => exact h.settle hi (stageOk_served (hok.2.2 b rfl)) off_served
      exact ⟨held', refunds, h'⟩
    · rename_i size hi
      obtain rfl := Option.some.inj hstep
      exact h.reject hi stageOk_failed off_failed answered_failed
    · cases hstep

end R2Origin
