import Yataverse.LakeCapture.Walked

/-!
# A capture goes on where it was stopped

- `OnDisk W`: the files that runs leave, where `W` is how far they may have come.
- `Steps W G`: runs go on from `G`, and stay in `W`.
- `safe_walk`, `safe_resume`, `safe_report`, **`safe_capture`**: every file operation leaves such files.
- `history_onDisk`: so does every history.
- `Ended`: a run that reports a complete capture has made it.
-/

namespace LakeCapture

open Js GraphHead Lake LakeDiff EventLoop Fallible

variable {nc : NodeCrypto} {args : Args} {serve : Option JsString → Except JsString Bytes} {maxPages : Option Nat}
  {fuel k bound : Nat} {p q : Progress} {d : Disk} {rows : List Row} {s : Checkpoint} {content extra : Bytes}
  {oldRows : Nat}

/-- The checkpoint of a completed walk. -/
def completed (s : Checkpoint) (oldRows : Nat) : Checkpoint := { s with status := .complete, oldRows := some oldRows }

section

variable (nc args) (W : Progress → Prop)

/-- The files that runs leave. `extra` is what a killed run has appended without a checkpoint. -/
inductive OnDisk : Disk → Prop
  | empty : OnDisk .empty
  | created : OnDisk ⟨some [], none, none⟩
  | walking {p : Progress} (extra : Bytes) (walked : W p) : OnDisk ⟨some (p.content ++ extra), some p.state, none⟩
  | moved {p : Progress} {oldRows : Nat} (walked : W p) (last : p.more = false)
      (superset : requireSuperset nc args.oldFile p.content args.oldSha256 = .ok oldRows) :
      OnDisk ⟨none, some p.state, some p.content⟩
  | done {p : Progress} {oldRows : Nat} (walked : W p) (last : p.more = false)
      (superset : requireSuperset nc args.oldFile p.content args.oldSha256 = .ok oldRows) :
      OnDisk ⟨none, some (completed p.state oldRows), some p.content⟩

/-- A run that reports a complete capture has made it, with so many pages. -/
def Ended (bound : Nat) (r : Except JsString Result) (d : Disk) : Prop :=
  ∀ rows bytes sha256 oldRows pages, r = .ok (.complete rows bytes sha256 oldRows pages) →
    ∃ p oldRows, W p ∧ p.more = false ∧ requireSuperset nc args.oldFile p.content args.oldSha256 = .ok oldRows ∧
      d = ⟨none, some (completed p.state oldRows), some p.content⟩ ∧ r = .ok (completeResult p.state (some oldRows)) ∧
      p.pages.length ≤ bound

/-- From `G`, runs go on. -/
structure Steps (nc : NodeCrypto) (args : Args) (serve : Option JsString → Except JsString Bytes)
    (W G : Progress → Prop) : Prop where
  start : W (.start nc args)
  goes : G (.start nc args)
  path : ∀ p, W p → Path nc args serve p
  page : ∀ p q, W p → G p → p.take nc args serve = .ok q → W q
  truncated : ∀ p, W p → p.more = true → G p

end

variable {W G : Progress → Prop} {E : Disk → Prop} {Q : Except JsString Result → Disk → Prop}

theorem ended_error (e : JsString) : Ended nc args W bound (.error e) d := by
  rintro rows bytes sha256 oldRows pages h
  cases h

theorem ended_inProgress {rows pages : Nat} {cursor : Option JsString} :
    Ended nc args W bound (.ok (.inProgress rows pages cursor)) d := by
  rintro rows bytes sha256 oldRows pages h
  cases h

theorem ended_complete (hp : W p) (last : p.more = false)
    (superset : requireSuperset nc args.oldFile p.content args.oldSha256 = .ok oldRows) (hbound : p.pages.length ≤ bound) :
    Ended nc args W bound (.ok (completeResult p.state (some oldRows)))
      ⟨none, some (completed p.state oldRows), some p.content⟩ := by
  rintro rows bytes sha256 old pages -
  exact ⟨p, oldRows, hp, last, superset, rfl, rfl, hbound⟩

theorem OnDisk.now (h : W p) : OnDisk nc args W ⟨some p.content, some p.state, none⟩ := by
  have hwalking := @OnDisk.walking nc args W _ [] h
  rwa [List.append_nil] at hwalking

/-! ## The pages -/

theorem safe_ofExcept {α β : Type} {Q : Except JsString β → Disk → Prop} {x : Except JsString α}
    {f : α → Prog β} (hE : E d) (herror : ∀ e, x = .error e → Q (.error e) d)
    (hok : ∀ a, x = .ok a → (f a).Safe E Q d) : ((ofExcept x).bind f).Safe E Q d := by
  cases x with
  | error e => exact ⟨hE, herror e rfl⟩
  | ok a => exact hok a rfl

/-- A page that a run takes is the next one. -/
theorem nextPage_eq_ok {s' : Checkpoint} {payload : Bytes} {more : Bool} :
    nextPage nc args serve p.content p.state = .ok (more, payload, s') ↔ ∃ l,
      p.take nc args serve = .ok ⟨p.pages ++ [l], more, s', p.content ++ payload⟩ := by
  simp only [nextPage, bind_eq_ok, take_eq_ok]
  constructor
  · rintro ⟨l, hfetch, ⟨payload', s''⟩, htake, h⟩
    obtain ⟨rfl, heq⟩ := Prod.mk.inj (Except.ok.inj h)
    obtain ⟨rfl, rfl⟩ := Prod.mk.inj heq
    exact ⟨l, l, payload', s'', hfetch, htake, rfl⟩
  · rintro ⟨l, l', payload', s'', hfetch, htake, h⟩
    obtain ⟨hl, rfl, rfl, hcontent⟩ := Progress.mk.inj h
    obtain rfl := List.append_cancel_left hcontent
    exact ⟨l', hfetch, (payload, s'), htake, rfl⟩

/-- **The loop over the pages** leaves such files. -/
theorem safe_walk (hsteps : Steps nc args serve W G) (hp : W p) (hg : G p) (hbound : p.pages.length + fuel ≤ bound) :
    (walk nc args serve maxPages fuel p.state p.content k).Safe (OnDisk nc args W) (Ended nc args W bound)
      ⟨some p.content, some p.state, none⟩ := by
  induction fuel generalizing p k with
  | zero => exact ⟨.now hp, ended_error _⟩
  | succ fuel ih =>
    rw [walk]
    by_cases hstop : maxPages.any (· ≤ k) = true
    · rw [if_pos hstop]
      exact ⟨.now hp, ended_inProgress⟩
    · rw [if_neg hstop]
      refine safe_ofExcept (.now hp) (fun e _ => ended_error e) ?_
      rintro ⟨more, payload, s'⟩ hnext
      obtain ⟨l, htake⟩ := nextPage_eq_ok.mp hnext
      have hq := hsteps.page p _ hp hg htake
      have hlen : (p.pages ++ [l]).length = p.pages.length + 1 := List.length_append
      refine ⟨.now hp, OnDisk.walking payload hp, ?_⟩
      dsimp only
      cases more with
      | true => exact ih hq (hsteps.truncated _ hq rfl) (by rw [hlen]; omega)
      | false =>
        refine safe_ofExcept (.now hq) (fun e _ => ended_error e) fun oldRows hsuperset => ?_
        refine ⟨.now hq, OnDisk.moved hq rfl hsuperset, OnDisk.done hq rfl hsuperset, ?_⟩
        exact ended_complete hq rfl hsuperset (by rw [hlen]; omega)

/-! ## Before the pages -/

theorem safe_scanPart (h : Sound nc args rows s content) (hE : E ⟨some (content ++ extra), some s, none⟩)
    (hE' : E ⟨some content, some s, none⟩) : (scanPart nc s.size).Safe E
      (fun r d => d = ⟨some content, some s, none⟩ ∧ r = .ok ⟨s.sha256, s.rows, addSizes rows (.int 0), s.lastCid⟩)
      ⟨some (content ++ extra), some s, none⟩ := by
  have hlen : ¬ (content ++ extra).length < s.size := by
    rw [h.size, List.length_append]
    omega
  have hcut : truncatePart s.size ⟨some (content ++ extra), some s, none⟩ = ⟨some content, some s, none⟩ := by
    rw [truncatePart, h.size, Option.map_some, List.take_left]
  refine Task.Safe.get ?_
  dsimp only
  rw [if_neg hlen]
  refine ⟨hE, ?_⟩
  rw [hcut]
  refine Task.Safe.get ?_
  rw [Option.getD_some, h.scan_eq]
  exact ⟨hE', rfl, rfl⟩

/-- **From a checkpoint on.** The file is cut, and read again. -/
theorem safe_resume (h : Sound nc args rows s content) (hE : E ⟨some (content ++ extra), some s, none⟩)
    (hE' : E ⟨some content, some s, none⟩)
    (hwalk : addSizes rows (.int 0) = s.bytes →
      (walk nc args serve maxPages fuel s content 0).Safe E Q ⟨some content, some s, none⟩)
    (hrefuse : addSizes rows (.int 0) ≠ s.bytes →
      Q (.error (js "partial inventory differs from checkpoint")) ⟨some content, some s, none⟩) :
    (resume nc args serve maxPages fuel s).Safe E Q ⟨some (content ++ extra), some s, none⟩ := by
  refine Task.Safe.bind (safe_scanPart h hE hE') (fun e d hd => by cases hd.2) ?_
  rintro scanned d - ⟨rfl, hscanned⟩
  obtain rfl := Except.ok.inj hscanned
  have hseen : ¬ s.seen < s.lastCid := Std.not_lt_of_ge h.seen
  by_cases hsum : addSizes rows (.int 0) = s.bytes
  · refine safe_ofExcept hE' (fun e he => ?_) fun _ _ => hwalk hsum
    rcases bind_eq_error.mp he with he | ⟨_, -, he⟩
    · exact absurd ⟨rfl, rfl, hsum, rfl⟩ (require_eq_error.mp he).1
    · exact absurd hseen (require_eq_error.mp he).1
  · refine safe_ofExcept hE' (fun e he => ?_) fun _ hok => ?_
    · rcases bind_eq_error.mp he with he | ⟨_, hok, -⟩
      · obtain ⟨-, rfl⟩ := require_eq_error.mp he
        exact hrefuse hsum
      · exact absurd (require_eq_ok.mp hok).2.2.1 hsum
    · obtain ⟨_, hok, -⟩ := bind_eq_ok.mp hok
      exact absurd (require_eq_ok.mp hok).2.2.1 hsum

/-! ## A run -/

/-- **With an output**, a run completes the checkpoint, if it has not been completed. -/
theorem safe_report {s₀ : Checkpoint} (h : Sound nc args rows s₀ content)
    (superset : requireSuperset nc args.oldFile content args.oldSha256 = .ok oldRows)
    (hs : s = s₀ ∨ s = completed s₀ oldRows) (hE : E ⟨none, some s, some content⟩)
    (hE' : E ⟨none, some (completed s₀ oldRows), some content⟩)
    (hQ : Q (.ok (completeResult s₀ (some oldRows))) ⟨none, some (completed s₀ oldRows), some content⟩) :
    (report nc args content ⟨none, some s, some content⟩).Safe E Q ⟨none, some s, some content⟩ := by
  rw [report]
  dsimp only
  rcases hs with rfl | rfl
  · rw [if_neg (not_not.mpr ⟨h.identity, h.size.symm, h.sha256.symm⟩), h.status]
    dsimp only
    rw [superset]
    exact ⟨hE, hE', hQ⟩
  · have hsame : SameIdentity args (completed s₀ oldRows) ∧ content.length = (completed s₀ oldRows).size ∧
        hexdigest (nc.sha256 content) = (completed s₀ oldRows).sha256 := ⟨h.identity, h.size.symm, h.sha256.symm⟩
    rw [if_neg (not_not.mpr hsame), completed]
    exact ⟨hE', hQ⟩

/-- From a checkpoint on, with what is on the disk. -/
theorem safe_runOn (hsteps : Steps nc args serve W G) (hp : W p) (hg : G p) (hbound : p.pages.length + fuel ≤ bound)
    (extra : Bytes) : (resume nc args serve maxPages fuel p.state).Safe (OnDisk nc args W) (Ended nc args W bound)
      ⟨some (p.content ++ extra), some p.state, none⟩ :=
  safe_resume (sound_path (hsteps.path p hp)) (.walking extra hp) (.now hp) (fun _ => safe_walk hsteps hp hg hbound)
    fun _ => ended_error _

theorem safe_capture_empty (hsteps : Steps nc args serve W G) :
    (capture nc args serve maxPages fuel).Safe (OnDisk nc args W) (Ended nc args W fuel) .empty := by
  have hstart : OnDisk nc args W ⟨some [], some (firstCheckpoint nc args), none⟩ := .now hsteps.start
  refine safe_ofExcept .empty (fun e _ => ended_error e) fun _ _ => ?_
  refine ⟨.empty, OnDisk.created, ?_⟩
  exact safe_runOn hsteps hsteps.start hsteps.goes (Nat.zero_add fuel).le []

/-- **A run** leaves such files after every operation, where it may go on from those that it finds. -/
theorem safe_capture (hsteps : Steps nc args serve W G) (hd : OnDisk nc args W d)
    (hgo : ∀ p, W p → d.state = some p.state → d.output = none → G p) :
    ∃ bound, (capture nc args serve maxPages fuel).Safe (OnDisk nc args W) (Ended nc args W bound) d := by
  cases hd with
  | empty => exact ⟨fuel, safe_capture_empty hsteps⟩
  | created =>
    exact ⟨0, safe_ofExcept .created (fun e _ => ended_error e) fun _ _ => ⟨OnDisk.created, ended_error _⟩⟩
  | @walking p extra walked =>
    have hsound := sound_path (hsteps.path p walked)
    refine ⟨p.pages.length + fuel, safe_ofExcept (.walking extra walked) (fun e _ => ended_error e) fun _ _ => ?_⟩
    refine Task.Safe.get ?_
    dsimp only
    rw [runOn]
    dsimp only
    rw [if_neg (not_not.mpr ⟨hsound.identity, hsound.status⟩), if_neg (by simp)]
    exact safe_runOn hsteps walked (hgo p walked rfl rfl) le_rfl extra
  | @moved p oldRows walked last superset =>
    exact ⟨p.pages.length, safe_ofExcept (.moved walked last superset) (fun e _ => ended_error e) fun _ _ =>
      safe_report (sound_path (hsteps.path p walked)) superset (.inl rfl) (.moved walked last superset)
        (.done walked last superset) (ended_complete walked last superset le_rfl)⟩
  | @done p oldRows walked last superset =>
    exact ⟨p.pages.length, safe_ofExcept (.done walked last superset) (fun e _ => ended_error e) fun _ _ =>
      safe_report (sound_path (hsteps.path p walked)) superset (.inr rfl) (.done walked last superset)
        (.done walked last superset) (ended_complete walked last superset le_rfl)⟩

/-! ## Runs -/

/-- **What runs leave**, where each of them may go on. -/
theorem history_onDisk (hsteps : Steps nc args serve W G) (calls : List Call)
    (hgo : ∀ k p, W p → (history nc args serve fuel (calls.take k)).state = some p.state →
      (history nc args serve fuel (calls.take k)).output = none → G p) :
    OnDisk nc args W (history nc args serve fuel calls) := by
  induction calls using List.reverseRecOn with
  | nil => exact .empty
  | append_singleton calls c ih =>
    have hbefore : OnDisk nc args W (history nc args serve fuel calls) := by
      refine ih fun k p hp hstate houtput => ?_
      have htake : (calls ++ [c]).take (min k calls.length) = calls.take k := by
        rw [List.take_append_of_le_length (Nat.min_le_right _ _), List.take_eq_take_iff]
        omega
      exact hgo (min k calls.length) p hp (by rw [htake]; exact hstate) (by rw [htake]; exact houtput)
    have hhere : ∀ p, W p → (history nc args serve fuel calls).state = some p.state →
        (history nc args serve fuel calls).output = none → G p := by
      have hall := hgo calls.length
      rwa [List.take_left] at hall
    obtain ⟨bound, hsafe⟩ := @safe_capture nc args serve c.maxPages fuel _ W G hsteps hbefore hhere
    rw [history, List.foldl_append, List.foldl_cons, List.foldl_nil]
    change OnDisk nc args W (Call.run nc args serve fuel (history nc args serve fuel calls) c)
    rw [Call.run]
    cases c.kill with
    | none => exact hsafe.finish.1
    | some n => exact hsafe.upTo.1

end LakeCapture
