import Yataverse.LakeCapture.Readers

/-!
# A capture that was stopped ends as it would have

- `Resumable`: the files from which a run goes on. Those that a run leaves between creating the partial file and its first
  checkpoint, or between the checkpoint of the last page and the rename, are not among them.
- `walk_completes`, `capture_completes`: the pages that are left.
- `resumable_of_checkpoint`: up to `2 ^ 53` bytes, the sizes add up the same page by page and row by row.
- **`capture_resumes`**: after any runs, an uninterrupted one ends as the first would have.
-/

namespace LakeCapture

open Js GraphHead Lake LakeDiff EventLoop Fallible

variable {nc : NodeCrypto} {args : Args} {serve : Option JsString → Except JsString Bytes} {maxPages : Option Nat}
  {fuel k n N : Nat} {p P : Progress} {d : Disk} {oldRows : Nat} {extra : Bytes}

section

variable (nc args serve)

/-- A run goes on from these files: a partial file has a checkpoint, which is not that of the last page, and the sizes of
which add up. -/
def Resumable (d : Disk) : Prop :=
  ¬ (d.part.isSome = true ∧ d.state = none) ∧
    ∀ n p, walkTo nc args serve n = .ok p → d.state = some p.state → d.output = none →
      p.more = true ∧ addSizes (capturedRows args p.pages) (.int 0) = p.state.bytes

/-- The listing ends here, and the capture is complete. -/
structure Completes (N : Nat) (P : Progress) (oldRows : Nat) : Prop where
  walked : walkTo nc args serve N = .ok P
  last : P.more = false
  superset : requireSuperset nc args.oldFile P.content args.oldSha256 = .ok oldRows

/-- How such a capture ends. -/
def Completed (P : Progress) (oldRows : Nat) (r : Except JsString Result) (d : Disk) : Prop :=
  d = ⟨none, some (completed P.state oldRows), some P.content⟩ ∧ r = .ok (completeResult P.state (some oldRows))

/-- The way that the pages go. -/
theorem steps_walkTo : Steps nc args serve (fun p => ∃ n, walkTo nc args serve n = .ok p) fun p => p.more = true where
  start := ⟨0, rfl⟩
  goes := rfl
  path := by
    rintro p ⟨n, hp⟩
    exact (path_walkTo hp).1
  page := by
    rintro p q ⟨n, hp⟩ hmore htake
    exact ⟨n + 1, bind_eq_ok.mpr ⟨p, hp, next_eq_ok.mpr ⟨hmore, htake⟩⟩⟩
  truncated p _ hmore := hmore

end

/-! ## The pages that are left -/

/-- Where the listing goes on, its end is ahead. -/
theorem Completes.ahead (h : Completes nc args serve N P oldRows) (hp : walkTo nc args serve n = .ok p)
    (hmore : p.more = true) : n < N := by
  by_contra hle
  obtain ⟨q, hq, -, hgoes⟩ := walkTo_of_le hp (Nat.le_of_not_lt hle)
  obtain rfl := Except.ok.inj (hq.symm.trans h.walked)
  rcases Nat.lt_or_eq_of_le (Nat.le_of_not_lt hle) with hlt | rfl
  · rw [h.last] at hgoes
    exact absurd (hgoes hlt) Bool.false_ne_true
  · obtain rfl := Except.ok.inj (hp.symm.trans hq)
    rw [h.last] at hmore
    exact absurd hmore Bool.false_ne_true

/-- There is one end. -/
theorem Completes.unique (h : Completes nc args serve N P oldRows) (hp : walkTo nc args serve n = .ok p)
    (hlast : p.more = false) : p = P := by
  have hle : n ≤ N := by
    by_contra hlt
    obtain ⟨q, hq, -, hgoes⟩ := walkTo_of_le hp (Nat.le_of_lt (Nat.lt_of_not_le hlt))
    obtain rfl := Except.ok.inj (hq.symm.trans h.walked)
    rw [h.last] at hgoes
    exact absurd (hgoes (Nat.lt_of_not_le hlt)) Bool.false_ne_true
  obtain ⟨q, hq, -, hgoes⟩ := walkTo_of_le h.walked hle
  obtain rfl := Except.ok.inj (hq.symm.trans hp)
  rcases Nat.lt_or_eq_of_le hle with hlt | rfl
  · rw [hlast] at hgoes
    exact absurd (hgoes hlt) Bool.false_ne_true
  · exact Except.ok.inj (hp.symm.trans h.walked)

/-- **The pages that are left** are taken to the end. -/
theorem walk_completes (h : Completes nc args serve N P oldRows) (hp : walkTo nc args serve n = .ok p)
    (hmore : p.more = true) (hfuel : N ≤ n + fuel) :
    (walk nc args serve none fuel p.state p.content k).Safe (fun _ => True) (Completed P oldRows)
      ⟨some p.content, some p.state, none⟩ := by
  induction fuel generalizing n p k with
  | zero =>
    have := h.ahead hp hmore
    omega
  | succ fuel ih =>
    obtain ⟨q, hq, -, hgoes⟩ := walkTo_of_le h.walked (h.ahead hp hmore)
    obtain ⟨p', hp', hnext⟩ := bind_eq_ok.mp hq
    obtain rfl := Except.ok.inj (hp'.symm.trans hp)
    obtain ⟨l, payload, s, hfetch, htake, rfl⟩ := take_eq_ok.mp (next_eq_ok.mp hnext).2
    have hpage : nextPage nc args serve p'.content p'.state = .ok (l.truncated, payload, s) :=
      nextPage_eq_ok.mpr ⟨l, (next_eq_ok.mp hnext).2⟩
    have hstop : ¬ (none : Option Nat).any (· ≤ k) = true := Bool.false_ne_true
    rw [walk, if_neg hstop, hpage]
    refine ⟨trivial, trivial, ?_⟩
    dsimp only
    cases htruncated : l.truncated with
    | true =>
      rw [htruncated] at hq
      exact ih hq rfl (by omega)
    | false =>
      have hend : n + 1 = N := by
        by_contra hne
        have hlt := h.ahead hp hmore
        rw [htruncated] at hgoes
        exact absurd (hgoes (by omega)) Bool.false_ne_true
      subst hend
      obtain rfl := Except.ok.inj (hq.symm.trans h.walked)
      refine Task.Safe.get ?_
      have hsuperset := h.superset
      dsimp only at hsuperset
      change ((ofExcept (requireSuperset nc args.oldFile (p'.content ++ payload) args.oldSha256)).bind _).Safe _ _ _
      rw [hsuperset]
      exact ⟨trivial, trivial, trivial, rfl, rfl⟩

/-! ## A run to its end -/

/-- A checkpoint that the pages lead to, where the listing goes on and the sizes add up. -/
theorem resume_completes (h : Completes nc args serve N P oldRows) (hp : walkTo nc args serve n = .ok p)
    (hmore : p.more = true) (hsum : addSizes (capturedRows args p.pages) (.int 0) = p.state.bytes) (hfuel : N ≤ fuel)
    (extra : Bytes) : (resume nc args serve none fuel p.state).Safe (fun _ => True) (Completed P oldRows)
      ⟨some (p.content ++ extra), some p.state, none⟩ :=
  safe_resume (sound_path (path_walkTo hp).1) trivial trivial
    (fun _ => walk_completes h hp hmore (hfuel.trans (Nat.le_add_left _ _))) fun hne => absurd hsum hne

/-- **From what runs leave**, an uninterrupted run completes the capture. -/
theorem capture_completes (h : Completes nc args serve N P oldRows) (hfuel : N ≤ fuel)
    (hold : hexdigest (nc.sha256 args.oldFile) = args.oldSha256)
    (hd : OnDisk nc args (fun p => ∃ n, walkTo nc args serve n = .ok p) d) (hgo : Resumable nc args serve d) :
    (capture nc args serve none fuel).Safe (fun _ => True) (Completed P oldRows) d := by
  obtain ⟨hcreated, hwalking⟩ := hgo
  refine safe_ofExcept trivial (fun e he => ?_) fun _ _ => ?_
  · exact absurd hold (require_eq_error.mp he).1
  cases hd with
  | empty =>
    refine ⟨trivial, trivial, ?_⟩
    exact resume_completes h (rfl : walkTo nc args serve 0 = .ok (.start nc args)) rfl rfl hfuel []
  | created => exact absurd ⟨rfl, rfl⟩ hcreated
  | @walking p extra walked =>
    obtain ⟨n, hp⟩ := walked
    have hsound := sound_path (path_walkTo hp).1
    obtain ⟨hmore, hsum⟩ := hwalking n p hp rfl rfl
    refine Task.Safe.get ?_
    dsimp only
    rw [runOn]
    dsimp only
    rw [if_neg (not_not.mpr ⟨hsound.identity, hsound.status⟩), if_neg (by simp)]
    exact resume_completes h hp hmore hsum hfuel extra
  | @moved p old walked last superset =>
    obtain ⟨n, hp⟩ := walked
    obtain rfl := h.unique hp last
    obtain rfl := Except.ok.inj (superset.symm.trans h.superset)
    exact safe_report (sound_path (path_walkTo hp).1) superset (.inl rfl) trivial trivial ⟨rfl, rfl⟩
  | @done p old walked last superset =>
    obtain ⟨n, hp⟩ := walked
    obtain rfl := h.unique hp last
    obtain rfl := Except.ok.inj (superset.symm.trans h.superset)
    exact safe_report (sound_path (path_walkTo hp).1) superset (.inr rfl) trivial trivial ⟨rfl, rfl⟩

/-! ## Runs -/

/-- An uninterrupted run that completes has come to the end of the listing, within its fuel. -/
theorem completes_of_finish {rows pages : Nat} {bytes : Number} {sha256 : JsString} {old : Option Nat}
    (hrun : finish nc args serve none fuel .empty = (d, .ok (.complete rows bytes sha256 old pages))) :
    ∃ N P oldRows, Completes nc args serve N P oldRows ∧ N ≤ fuel ∧ hexdigest (nc.sha256 args.oldFile) = args.oldSha256 ∧
      Completed P oldRows (.ok (.complete rows bytes sha256 old pages)) d := by
  have hsafe := @safe_capture_empty nc args serve none fuel _ _ (steps_walkTo nc args serve)
  have hended := (@EventLoop.Task.Safe.finish _ _ _ _ _ _ _ _ _ noAnswer 0 hsafe).2
  change Ended nc args _ fuel (finish nc args serve none fuel .empty).2 (finish nc args serve none fuel .empty).1 at hended
  rw [hrun] at hended
  obtain ⟨P, oldRows, ⟨N, hP⟩, hlast, hsuperset, hd, hresult, hlen⟩ := hended rows bytes sha256 old pages rfl
  rw [(path_walkTo hP).2] at hlen
  refine ⟨N, P, oldRows, ⟨hP, hlast, hsuperset⟩, hlen, ?_, hd, hresult⟩
  by_contra hne
  have hrefused : finish nc args serve none fuel .empty = (.empty, .error (js "old inventory digest differs")) := by
    rw [finish, capture, require, if_neg hne]
    rfl
  rw [hrefused] at hrun
  cases (Prod.mk.inj hrun).2

/-- **A capture is resumable.** Of a listing on which an uninterrupted run completes, after any runs that were stopped or
killed, an uninterrupted run leaves the same files and reports the same, where each of the runs left files from which a
run goes on. From a partial file without a checkpoint, every run is refused and changes nothing. -/
theorem capture_resumes (nc : NodeCrypto) (args : Args) (serve : Option JsString → Except JsString Bytes) (fuel : Nat)
    (d : Disk) (rows pages : Nat) (bytes : Number) (sha256 : JsString) (oldRows : Option Nat)
    (hrun : finish nc args serve none fuel .empty = (d, .ok (.complete rows bytes sha256 oldRows pages))) :
    (∀ calls : List Call, (∀ k, Resumable nc args serve (history nc args serve fuel (calls.take k))) →
      finish nc args serve none fuel (history nc args serve fuel calls) =
        (d, .ok (.complete rows bytes sha256 oldRows pages))) ∧
      ∀ part maxPages, finish nc args serve maxPages fuel ⟨some part, none, none⟩ =
        (⟨some part, none, none⟩, .error (js "uncheckpointed partial inventory exists")) := by
  obtain ⟨N, P, old, hcompletes, hfuel, hold, hd, hresult⟩ := completes_of_finish hrun
  constructor
  · intro calls hgo
    have hdisk := @history_onDisk nc args serve fuel _ _ (steps_walkTo nc args serve) calls ?_
    · have hhere := hgo calls.length
      rw [List.take_length] at hhere
      have hsafe := capture_completes hcompletes hfuel hold hdisk hhere
      obtain ⟨hd', hresult'⟩ := (@EventLoop.Task.Safe.finish _ _ _ _ _ _ _ _ _ noAnswer 0 hsafe).2
      exact Prod.ext (hd'.trans hd.symm) (hresult'.trans hresult.symm)
    · rintro k p ⟨n, hp⟩ hstate houtput
      exact ((hgo k).2 n p hp hstate houtput).1
  · intro part maxPages
    rw [finish, capture, require, if_pos hold]
    rfl

/-! ## Files from which a run goes on -/

theorem pages_walkTo (hp : walkTo nc args serve n = .ok p) : p.state.pages = n := by
  induction n generalizing p with
  | zero =>
    obtain rfl := Except.ok.inj hp
    rfl
  | succ n ih =>
    obtain ⟨q, hq, hnext⟩ := bind_eq_ok.mp hp
    obtain ⟨l, payload, s, -, htake, rfl⟩ := take_eq_ok.mp (next_eq_ok.mp hnext).2
    simp only [takePage, bind_eq_ok] at htake
    obtain ⟨-, -, acc, -, hs⟩ := htake
    obtain ⟨-, rfl⟩ := Prod.mk.inj (Except.ok.inj hs)
    exact congrArg Nat.succ (ih hq)

/-- A checkpoint before the last page, of at most `2 ^ 53` bytes. -/
theorem resumable_of_checkpoint (hp : walkTo nc args serve n = .ok p) (hmore : p.more = true)
    (htotal : totalSize (capturedRows args p.pages) ≤ 2 ^ 53) (extra : Bytes) :
    Resumable nc args serve ⟨some (p.content ++ extra), some p.state, none⟩ := by
  refine ⟨fun hcreated => (Option.some_ne_none _ hcreated.2).elim, fun m q hq hstate _ => ?_⟩
  have hpages := congrArg Checkpoint.pages (Option.some.inj hstate)
  rw [pages_walkTo hp, pages_walkTo hq] at hpages
  subst hpages
  obtain rfl := Except.ok.inj (hp.symm.trans hq)
  exact ⟨hmore, (sound_path (path_walkTo hp).1).sum_eq htotal⟩

theorem resumable_empty : Resumable nc args serve .empty := by
  refine ⟨fun hcreated => ?_, fun n p _ hstate _ => ?_⟩
  · cases hcreated.1
  · cases hstate

namespace Sample

/-- A run that is stopped before its first page, and one that is killed between a page and its checkpoint. -/
def stopped : List Call := [⟨some 0, none⟩, ⟨none, some 2⟩]

end Sample

theorem resumable_stopped (k : Nat) : Resumable Sample.crypto Sample.request (Sample.listing Sample.usual)
    (history Sample.crypto Sample.request (Sample.listing Sample.usual) 1 (Sample.stopped.take k)) := by
  have hstart : walkTo Sample.crypto Sample.request (Sample.listing Sample.usual) 0 =
      .ok (.start Sample.crypto Sample.request) := rfl
  have hwalking (extra : Bytes) := resumable_of_checkpoint hstart rfl (Nat.zero_le _) extra
  obtain ⟨hone, htwo⟩ : history Sample.crypto Sample.request (Sample.listing Sample.usual) 1 (Sample.stopped.take 1) =
        ⟨some [], some (firstCheckpoint Sample.crypto Sample.request), none⟩ ∧
      history Sample.crypto Sample.request (Sample.listing Sample.usual) 1 Sample.stopped =
        ⟨some (Sample.written Sample.usual), some (firstCheckpoint Sample.crypto Sample.request), none⟩ := by
    decide +kernel
  rcases k with _ | _ | k
  · exact resumable_empty
  · rw [hone]
    exact hwalking []
  · rw [List.take_of_length_le (by rw [Sample.stopped, List.length_cons, List.length_singleton]; omega), htwo]
    exact hwalking (Sample.written Sample.usual)

theorem capture_resumes_sample :
    finish Sample.crypto Sample.request (Sample.listing Sample.usual) none 1
        (history Sample.crypto Sample.request (Sample.listing Sample.usual) 1 Sample.stopped) =
      (Sample.disk Sample.usual, .ok (Sample.result Sample.usual)) := by
  obtain ⟨hresult, hdisk⟩ : (finish Sample.crypto Sample.request (Sample.listing Sample.usual) none 1 .empty).2.toOption =
        some (Sample.result Sample.usual) ∧
      (finish Sample.crypto Sample.request (Sample.listing Sample.usual) none 1 .empty).1 = Sample.disk Sample.usual := by
    decide +kernel
  exact (capture_resumes Sample.crypto Sample.request (Sample.listing Sample.usual) 1 (Sample.disk Sample.usual) 1 1 (.int 1)
    (hexdigest (Sample.written Sample.usual)) (some 0) (Prod.ext hdisk (ok_of_toOption hresult))).1 Sample.stopped
    resumable_stopped

/-- **A capture that is killed between the partial file and its first checkpoint, or between the checkpoint of the last
page and the rename, is never completed.** -/
theorem killed_not_resumed :
    (finish Sample.crypto Sample.request (Sample.listing Sample.usual) none 1 .empty).2.toOption =
        some (Sample.result Sample.usual) ∧
      (finish Sample.crypto Sample.request (Sample.listing Sample.usual) none 1
        (history Sample.crypto Sample.request (Sample.listing Sample.usual) 1 [⟨none, some 1⟩])).2.toOption = none ∧
      (finish Sample.crypto Sample.request (Sample.listing Sample.usual) none 1
        (history Sample.crypto Sample.request (Sample.listing Sample.usual) 1 [⟨none, some 5⟩])).2.toOption = none := by
  decide +kernel

end LakeCapture
