import Yataverse.Carv2.Publish
import Mathlib.Data.List.Infix

/-!
# When publishing an archive is all or nothing

The archive and its receipt are published one after the other. A call that raises takes the
archive back only where the receipt was to be written, and never a receipt.

- `Makable`, `Reached`: which directories a call makes.
- `Synced`: the operations after a link succeed.
- `Written`: a receipt gets its path.
- **`restored_iff`**: when a call that raises leaves both paths as they were.
-/

namespace Carv2.Publish

open EventLoop EventLoop.Task Fallible

variable {α : Type} {ok : Op → Bool} {s : Files} {op : Op} {stage : Stage} {ps : List Path}
  {p x path output receiptPath : Path} {content : Bytes}

/-! ## Operations -/

@[simp] theorem eval_perform :
    (perform op).eval ok s = (s, if ok op = true then .ok () else .error (.os op)) := eval_attempt

theorem perform_eq_ok {u : Unit} : ((perform op).eval ok s).2 = .ok u ↔ ok op = true := by
  rw [eval_perform]
  cases ok op <;> simp

theorem eval_lift {x : Except Error α} : ((lift x).eval ok s).1 = s := by
  cases x <;> rfl

theorem lift_eq_ok {x : Except Error α} {a : α} : ((lift x).eval ok s).2 = .ok a ↔ x = .ok a := by
  cases x with
  | ok b => exact ⟨fun h => congrArg Except.ok (Except.ok.inj h), fun h => congrArg Except.ok (Except.ok.inj h)⟩
  | error e => exact ⟨fun h => (by cases h), fun h => (by cases h)⟩

theorem eval_lift_require {c : Prop} [Decidable c] {e : Error} : (lift (require c e)).eval ok s =
    (s, if c then .ok () else .error (.archive e)) := by
  by_cases h : c <;> simp only [require, h, if_true, if_false] <;> rfl

/-! ## Directories -/

/-- The path is a directory, or one is made there. -/
def Makable (ok : Op → Bool) (stage : Stage) (s : Files) (p : Path) : Prop :=
  s p = some .directory ∨ s p = none ∧ ok (.mkdir stage p) = true

/-- The call gets as far as to make the directory `x`. -/
def Reached (ok : Op → Bool) (stage : Stage) (s : Files) (x : Path) : List Path → Prop
  | [] => False
  | p :: ps => Makable ok stage s p ∧ (p = x ∨ Reached ok stage s x ps)

theorem Reached.mem (h : Reached ok stage s x ps) : x ∈ ps := by
  induction ps with
  | nil => exact h.elim
  | cons p ps ih =>
    rcases h.2 with rfl | h
    · exact List.mem_cons_self
    · exact List.mem_cons_of_mem _ (ih h)

theorem reached_of_makable (h : ∀ p ∈ ps, Makable ok stage s p) (hx : x ∈ ps) : Reached ok stage s x ps := by
  induction ps with
  | nil => cases hx
  | cons p ps ih =>
    obtain ⟨hp, hps⟩ := List.forall_mem_cons.mp h
    refine ⟨hp, ?_⟩
    rcases List.mem_cons.mp hx with rfl | hx
    · exact .inl rfl
    · exact .inr (ih hps hx)

/-- A directory that has been made is one that could be made. -/
theorem makable_update (hp : Makable ok stage s p) :
    Makable ok stage (Function.update s p (some .directory)) x ↔ Makable ok stage s x := by
  by_cases hx : x = p
  · subst hx
    exact ⟨fun _ => hp, fun _ => .inl (Function.update_self ..)⟩
  · rw [Makable, Makable, Function.update_of_ne hx]

theorem reached_update (hp : Makable ok stage s p) :
    Reached ok stage (Function.update s p (some .directory)) x ps ↔ Reached ok stage s x ps := by
  induction ps with
  | nil => exact Iff.rfl
  | cons q ps ih => rw [Reached, Reached, makable_update hp, ih]

/-- One directory after the other. -/
theorem mkdir_cons : (mkdir stage (p :: ps)).eval ok s =
    match s p with
    | some .directory => (mkdir stage ps).eval ok s
    | some (.file _) => (s, .error .fileExists)
    | none => if ok (.mkdir stage p) = true then
        (mkdir stage ps).eval ok (Function.update s p (some .directory))
      else (s, .error (.os (.mkdir stage p))) := by
  rw [mkdir, eval_get]
  cases s p with
  | none =>
    rw [bind_eq, eval_bind, eval_perform]
    cases ok (.mkdir stage p) <;> rfl
  | some e => cases e <;> rfl

/-- The directories are made, and nothing else. -/
theorem mkdir_apply : (s x = none → Reached ok stage s x ps →
      ((mkdir stage ps).eval ok s).1 x = some .directory) ∧
    (¬(s x = none ∧ Reached ok stage s x ps) → ((mkdir stage ps).eval ok s).1 x = s x) := by
  induction ps generalizing s with
  | nil => exact ⟨fun _ h => h.elim, fun _ => rfl⟩
  | cons p ps ih =>
    rw [mkdir_cons]
    cases hp : s p with
    | none =>
      dsimp only
      by_cases hop : ok (.mkdir stage p) = true
      · have hm : Makable ok stage s p := .inr ⟨hp, hop⟩
        rw [if_pos hop]
        by_cases hx : x = p
        · subst hx
          have hkept := (ih (s := Function.update s x (some .directory))).2
            (fun h => by rw [Function.update_self] at h; cases h.1)
          rw [Function.update_self] at hkept
          exact ⟨fun _ _ => hkept, fun h => absurd ⟨hp, hm, .inl rfl⟩ h⟩
        · have hs : Function.update s p (some .directory) x = s x := Function.update_of_ne hx ..
          have h := ih (s := Function.update s p (some .directory))
          rw [hs, reached_update hm] at h
          refine ⟨fun hn hr => h.1 hn (hr.2.resolve_left (Ne.symm hx)), fun hn => h.2 ?_⟩
          rintro ⟨hn', hr⟩
          exact hn ⟨hn', hm, .inr hr⟩
      · rw [if_neg hop]
        refine ⟨fun _ hr => ?_, fun _ => rfl⟩
        rcases hr.1 with h | ⟨-, h⟩
        · rw [hp] at h
          cases h
        · exact absurd h hop
    | some e =>
      cases e with
      | directory =>
        dsimp only
        refine ⟨fun hn hr => ih.1 hn ?_, fun hn => ih.2 ?_⟩
        · rcases hr.2 with rfl | hr
          · rw [hp] at hn
            cases hn
          · exact hr
        · rintro ⟨hn', hr⟩
          exact hn ⟨hn', .inl hp, .inr hr⟩
      | file c =>
        refine ⟨fun _ hr => ?_, fun _ => rfl⟩
        rcases hr.1 with h | ⟨h, -⟩ <;>
        · rw [hp] at h
          cases h

theorem mkdir_made (hn : s x = none) (hr : Reached ok stage s x ps) :
    ((mkdir stage ps).eval ok s).1 x = some .directory := mkdir_apply.1 hn hr

theorem mkdir_kept (h : ¬(s x = none ∧ Reached ok stage s x ps)) :
    ((mkdir stage ps).eval ok s).1 x = s x := mkdir_apply.2 h

theorem mkdir_eq_ok {u : Unit} :
    ((mkdir stage ps).eval ok s).2 = .ok u ↔ ∀ p ∈ ps, Makable ok stage s p := by
  induction ps generalizing s with
  | nil => exact ⟨fun _ _ h => (by cases h), fun _ => rfl⟩
  | cons p ps ih =>
    rw [mkdir_cons, List.forall_mem_cons]
    cases hp : s p with
    | none =>
      dsimp only
      by_cases hop : ok (.mkdir stage p) = true
      · have hm : Makable ok stage s p := .inr ⟨hp, hop⟩
        rw [if_pos hop, ih]
        simp only [makable_update hm, hm, true_and]
      · rw [if_neg hop]
        refine ⟨fun h => (by cases h), ?_⟩
        rintro ⟨h | ⟨-, h⟩, -⟩
        · rw [hp] at h
          cases h
        · exact absurd h hop
    | some e =>
      cases e with
      | directory =>
        dsimp only
        rw [ih]
        exact ⟨fun h => ⟨.inl hp, h⟩, fun h => h.2⟩
      | file c =>
        refine ⟨fun h => (by cases h), ?_⟩
        rintro ⟨h | ⟨h, -⟩, -⟩ <;>
        · rw [hp] at h
          cases h

/-- Where all directories are there, none is made. -/
theorem mkdir_ready (h : ∀ p ∈ ps, s p = some .directory) :
    (mkdir stage ps).eval ok s = (s, .ok ()) := by
  induction ps with
  | nil => rfl
  | cons p ps ih =>
    obtain ⟨hp, hps⟩ := List.forall_mem_cons.mp h
    rw [mkdir_cons, hp]
    exact ih hps

/-- A path is not above itself. -/
theorem not_mem_parents : path ∉ parents path := by
  intro h
  rw [parents] at h
  have hp : path <+: path.dropLast := (List.mem_inits _ _).mp (List.mem_of_mem_tail h)
  have hl := hp.length_le
  rw [List.length_dropLast] at hl
  obtain rfl : path = [] := List.length_eq_zero_iff.mp (by omega)
  cases h

/-! ## Linking -/

/-- The operations after a link succeed. -/
def Synced (ok : Op → Bool) (op : Linking → Op) : Prop :=
  ok (op .openDirectory) = true ∧ ok (op .fsync) = true ∧ ok (op .close) = true ∧
    ok (op .unlinkTemporary) = true

/-- A refusal to replace a file is told in other words. -/
theorem eval_refuseExisting {message : String} {t : Call Unit} :
    ((refuseExisting message t).eval ok s).1 = (t.eval ok s).1 ∧
      (((refuseExisting message t).eval ok s).2 = .ok () ↔ (t.eval ok s).2 = .ok ()) := by
  rw [refuseExisting, eval_handle]
  cases ht : (t.eval ok s).2 with
  | ok u => exact ⟨rfl, Iff.rfl⟩
  | error e =>
    cases e <;>
    · exact ⟨rfl, fun h => (by cases h), fun h => (by cases h)⟩

/-- A task with clean-up that leaves the files as they are. -/
theorem eval_ensure_perform (t : Call α) : ((t.ensure (perform op)).eval ok s).1 = (t.eval ok s).1 ∧
    ∀ a, ((t.ensure (perform op)).eval ok s).2 = .ok a ↔ (t.eval ok s).2 = .ok a ∧ ok op = true := by
  rw [eval_ensure, eval_perform]
  refine ⟨rfl, fun a => ?_⟩
  by_cases h : ok op = true
  · simp only [h, if_true, and_true]
  · rw [if_neg h]
    exact ⟨fun h' => (by cases h'), fun h' => absurd h'.2 h⟩

/-- A link is made where the operation succeeds and nothing is there. -/
theorem eval_link : (link op path content).eval ok s =
    if ok op = true ∧ s path = none then (Function.update s path (some (.file content)), .ok ())
    else (s, .error (if ok op = true then .fileExists else .os op)) := by
  rw [link, bind_eq, eval_bind, eval_perform]
  by_cases h : ok op = true
  · by_cases hn : s path = none <;> simp [h, hn, files, Task.reads, Task.modify]
  · simp [h]

theorem eval_unlink : (unlink op path).eval ok s =
    if ok op = true then (Function.update s path none, .ok ()) else (s, .error (.os op)) := by
  rw [unlink, bind_eq, eval_bind, eval_perform]
  cases ok op <;> rfl

variable {step : Linking → Op}

theorem eval_linkDurably : ((linkDurably step path content).eval ok s).1 =
      (if ok (step .link) = true ∧ s path = none then Function.update s path (some (.file content)) else s) ∧
    (((linkDurably step path content).eval ok s).2 = .ok () ↔ (ok (step .link) = true ∧ s path = none) ∧
      ok (step .openDirectory) = true ∧ ok (step .fsync) = true ∧ ok (step .close) = true) := by
  rw [linkDurably, bind_eq, eval_bind, eval_link]
  by_cases hl : ok (step .link) = true ∧ s path = none
  · rw [if_pos hl, if_pos hl]
    dsimp only
    rw [bind_eq, eval_bind, eval_perform]
    by_cases ho : ok (step .openDirectory) = true
    · simp only [ho, if_true, hl, true_and]
      rw [eval_ensure, eval_perform, eval_perform]
      cases ok (step .fsync) <;> cases ok (step .close) <;> simp
    · simp [ho]
  · rw [if_neg hl, if_neg hl]
    exact ⟨rfl, fun h => (by cases h), fun h => absurd h.1 hl⟩

/-- The archive gets its path where the link is made, and the call goes on where the rest
succeeds too. -/
theorem eval_publishNoReplace (hp : ∀ p ∈ parents output, s p = some .directory) :
    ((publishNoReplace content output).eval ok s).1 =
      (if ok (.publish .link) = true ∧ s output = none then
        Function.update s output (some (.file content)) else s) ∧
    (((publishNoReplace content output).eval ok s).2 = .ok () ↔
      (ok (.publish .link) = true ∧ s output = none) ∧ Synced ok .publish) := by
  rw [publishNoReplace, bind_eq, eval_bind_ok _ (mkdir_ready hp)]
  rw [(eval_ensure_perform _).1, (eval_ensure_perform _).2, eval_refuseExisting.1, eval_refuseExisting.2, eval_linkDurably.1, eval_linkDurably.2,
    Synced]
  refine ⟨rfl, ?_⟩
  simp only [and_assoc]

/-! ## The receipt -/

/-- A receipt gets its path. -/
def Written (ok : Op → Bool) (s : Files) (path : Path) : Prop :=
  (∀ p ∈ parents path, Makable ok .receipt s p) ∧ ok .writeReceipt = true ∧
    ok (.receipt .link) = true ∧ s path = none

variable {dumps : Receipt → Bytes} {value : Receipt}

/-- The receipt's temporary file is written, and linked. -/
theorem eval_linkWritten : ((perform .writeReceipt >>= fun _ => linkDurably .receipt path content).eval ok s).1 =
      (if ok .writeReceipt = true ∧ ok (.receipt .link) = true ∧ s path = none then
        Function.update s path (some (.file content)) else s) ∧
    (((perform .writeReceipt >>= fun _ => linkDurably .receipt path content).eval ok s).2 = .ok () ↔
      (ok .writeReceipt = true ∧ ok (.receipt .link) = true ∧ s path = none) ∧
        ok (.receipt .openDirectory) = true ∧ ok (.receipt .fsync) = true ∧ ok (.receipt .close) = true) := by
  rw [bind_eq, eval_bind, eval_perform]
  by_cases hw : ok .writeReceipt = true
  · rw [if_pos hw]
    dsimp only
    rw [eval_linkDurably.1, eval_linkDurably.2]
    simp only [hw, true_and, and_self]
  · rw [if_neg hw, if_neg fun h => hw h.1]
    exact ⟨rfl, fun h => (by cases h), fun h => absurd h.1.1 hw⟩

/-- What `write_json_no_replace` leaves. -/
theorem eval_writeJsonNoReplace {r : Files × Except Failure Unit}
    (hr : (writeJsonNoReplace dumps path value).eval ok s = r) :
    (Written ok s path → r.1 path = some (.file (dumps value))) ∧
    (¬Written ok s path → r.1 path = s path) ∧
    (r.2 = .ok () ↔ Written ok s path ∧ Synced ok .receipt) ∧
    ∀ x, s x ≠ none → x ≠ path → r.1 x = s x := by
  have hpath : ((mkdir .receipt (parents path)).eval ok s).1 path = s path :=
    mkdir_kept fun h => not_mem_parents h.2.mem
  have hothers : ∀ x, s x ≠ none → ((mkdir .receipt (parents path)).eval ok s).1 x = s x :=
    fun x hx => mkdir_kept fun h => hx h.1
  subst hr
  rw [writeJsonNoReplace, bind_eq, eval_bind]
  cases hm : ((mkdir .receipt (parents path)).eval ok s).2 with
  | error e =>
    have hw : ¬Written ok s path := by
      intro h
      have h' := mkdir_eq_ok (u := ()) |>.mpr h.1
      rw [hm] at h'
      cases h'
    exact ⟨fun h => absurd h hw, fun _ => hpath, ⟨fun h => (by cases h), fun h => absurd h.1 hw⟩,
      fun x hx _ => hothers x hx⟩
  | ok u =>
    have hparents := mkdir_eq_ok.mp hm
    dsimp only
    generalize hs : ((mkdir .receipt (parents path)).eval ok s).1 = s₁ at hpath hothers ⊢
    have hiff : Written ok s path ↔
        ok .writeReceipt = true ∧ ok (.receipt .link) = true ∧ s₁ path = none := by
      rw [Written, hpath]
      exact ⟨fun h => h.2, fun h => ⟨hparents, h⟩⟩
    rw [(eval_ensure_perform _).1, (eval_ensure_perform _).2, eval_refuseExisting.1, eval_refuseExisting.2, eval_linkWritten.1, eval_linkWritten.2]
    refine ⟨fun h => ?_, fun h => ?_, ?_, fun x hx hne => ?_⟩
    · rw [if_pos (hiff.mp h), Function.update_self]
    · rw [if_neg fun h' => h (hiff.mpr h'), hpath]
    · rw [← hiff, Synced]
      simp only [and_assoc]
    · split
      · rw [Function.update_of_ne hne, hothers x hx]
      · exact hothers x hx

/-! ## The pair -/

variable {receipt : Call Receipt} {described : Prop}

/-- The archive stands at its path, and the receipt is still to be written. -/
theorem eval_writeOrRemove (hs : s output = some (.file content)) {r : Files × Except Failure Unit}
    (hr : (writeOrRemove dumps output receiptPath value).eval ok s = r) :
    (r.1 output = none ↔ ¬(Written ok s receiptPath ∧ Synced ok .receipt) ∧ ok .unlinkOutput = true) ∧
    (receiptPath ≠ output → (r.1 receiptPath = s receiptPath ↔ ¬Written ok s receiptPath)) := by
  have hne : Written ok s receiptPath → output ≠ receiptPath := by
    rintro hw rfl
    rw [hw.2.2.2] at hs
    cases hs
  obtain ⟨hwritten, hkept, hok, hothers⟩ :=
    eval_writeJsonNoReplace (r := (writeJsonNoReplace dumps receiptPath value).eval ok s) rfl
  have hthere : ((writeJsonNoReplace dumps receiptPath value).eval ok s).1 output ≠ none := by
    by_cases ho : output = receiptPath
    · rw [ho, hkept fun hw => hne hw ho, ← ho, hs]
      simp
    · rw [hothers output (by simp [hs]) ho, hs]
      simp
  have hreceipt : ((writeJsonNoReplace dumps receiptPath value).eval ok s).1 receiptPath = s receiptPath ↔
      ¬Written ok s receiptPath := by
    refine ⟨fun h hw => ?_, hkept⟩
    rw [hwritten hw, hw.2.2.2] at h
    cases h
  rw [writeOrRemove, eval_handle] at hr
  cases hw : ((writeJsonNoReplace dumps receiptPath value).eval ok s).2 with
  | ok u =>
    rw [hw] at hr
    subst hr
    have hboth := hok.mp hw
    exact ⟨⟨fun h => absurd h hthere, fun h => absurd hboth h.1⟩, fun _ => hreceipt⟩
  | error e =>
    have hboth : ¬(Written ok s receiptPath ∧ Synced ok .receipt) := by
      intro h
      rw [hok.mpr h] at hw
      cases hw
    rw [hw] at hr
    dsimp only at hr
    rw [bind_eq, eval_bind, eval_unlink] at hr
    by_cases hu : ok .unlinkOutput = true
    · rw [if_pos hu] at hr
      subst hr
      refine ⟨⟨fun _ => ⟨hboth, hu⟩, fun _ => Function.update_self ..⟩, fun hro => ?_⟩
      rw [← hreceipt]
      exact (congrArg (· = s receiptPath) (Function.update_of_ne hro ..)).to_iff
    · rw [if_neg hu] at hr
      subst hr
      exact ⟨⟨fun h => absurd h hthere, fun h => absurd h.2 hu⟩, fun _ => hreceipt⟩

/-- The three ways of a call that publishes onto made directories: the archive is not linked,
it stands without a receipt to write, or the receipt is to be written. -/
theorem publishBoth_cases (hp : ∀ p ∈ parents output, s p = some .directory) (hn : s output = none)
    (hkeeps : receipt.Keeps (fun _ => True) (· = ·))
    (hd : ∀ s, (∃ v, (receipt.eval ok s).2 = .ok v) ↔ described)
    {r : Files × Except Failure Receipt}
    (hr : (publishBoth dumps output receiptPath content receipt).eval ok s = r) :
    (¬ok (.publish .link) = true ∧ r.1 = s) ∨
    (ok (.publish .link) = true ∧ ¬(Synced ok .publish ∧ described) ∧
      r.1 = Function.update s output (some (.file content))) ∨
    (ok (.publish .link) = true ∧ Synced ok .publish ∧ described ∧ ∃ value, r.1 =
      ((writeOrRemove dumps output receiptPath value).eval ok
        (Function.update s output (some (.file content)))).1) := by
  have hpublish := @eval_publishNoReplace ok s output content hp
  obtain ⟨hstate, hok⟩ := hpublish
  rw [publishBoth, bind_eq, eval_bind, hstate] at hr
  by_cases hl : ok (.publish .link) = true
  · rw [if_pos ⟨hl, hn⟩] at hr
    refine .inr ?_
    generalize Function.update s output (some (.file content)) = s₂ at hr ⊢
    cases hpub : ((publishNoReplace content output).eval ok s).2 with
    | error e =>
      rw [hpub] at hr hok
      dsimp only at hr
      refine .inl ⟨hl, fun h => ?_, by rw [← hr]⟩
      have h' := hok.mpr ⟨⟨hl, hn⟩, h.1⟩
      cases h'
    | ok u =>
      rw [hpub] at hr hok
      have hsync : Synced ok .publish := (hok.mp rfl).2
      dsimp only at hr
      rw [bind_eq, eval_bind, hkeeps.eval] at hr
      cases hv : (receipt.eval ok s₂).2 with
      | error e =>
        rw [hv] at hr
        dsimp only at hr
        refine .inl ⟨hl, fun h => ?_, by rw [← hr]⟩
        obtain ⟨v, hv'⟩ := (hd s₂).mpr h.2
        rw [hv] at hv'
        cases hv'
      | ok v =>
        rw [hv] at hr
        dsimp only at hr
        refine .inr ⟨hl, hsync, (hd s₂).mp ⟨v, hv⟩, v, ?_⟩
        rw [← hr, bind_eq, eval_bind]
        cases ((writeOrRemove dumps output receiptPath v).eval ok s₂).2 <;> rfl
  · rw [if_neg fun h => hl h.1] at hr
    refine .inl ⟨hl, ?_⟩
    cases hpub : ((publishNoReplace content output).eval ok s).2 with
    | error e =>
      rw [hpub] at hr
      exact congrArg Prod.fst hr.symm
    | ok u => exact absurd (hok.mp hpub).1.1 hl

/-- When the two files of a call are as before: the archive has not been linked, or everything
up to the writing of the receipt succeeds, the receipt is not linked, and the archive is
removed. -/
def TakenBack (ok : Op → Bool) (s : Files) (output receiptPath : Path) (described : Prop) : Prop :=
  ok (.publish .link) = true → Synced ok .publish ∧ described ∧ ¬Written ok s receiptPath ∧
    ok .unlinkOutput = true

/-- The two files are published onto made directories. -/
theorem publishBoth_kept (hp : ∀ p ∈ parents output, s p = some .directory) (hn : s output = none)
    (hkeeps : receipt.Keeps (fun _ => True) (· = ·))
    (hd : ∀ s, (∃ v, (receipt.eval ok s).2 = .ok v) ↔ described)
    {r : Files × Except Failure Receipt}
    (hr : (publishBoth dumps output receiptPath content receipt).eval ok s = r) :
    ((r.1 output = none ∧ r.1 receiptPath = s receiptPath) ↔
      TakenBack ok (Function.update s output (some (.file content))) output receiptPath described) ∧
    (s receiptPath ≠ none → r.1 receiptPath = s receiptPath) := by
  have hs : Function.update s output (some (.file content)) output = some (.file content) :=
    Function.update_self ..
  have hother : receiptPath ≠ output →
      Function.update s output (some (.file content)) receiptPath = s receiptPath :=
    fun h => Function.update_of_ne h ..
  have hro : s receiptPath ≠ none → receiptPath ≠ output := by
    rintro h rfl
    exact h hn
  rcases publishBoth_cases hp hn hkeeps hd hr with ⟨hl, h⟩ | ⟨hl, hnot, h⟩ | ⟨hl, hsync, hdesc, v, h⟩ <;>
    rw [h]
  · exact ⟨⟨fun _ h => absurd h hl, fun _ => ⟨hn, rfl⟩⟩, fun _ => rfl⟩
  · refine ⟨⟨fun h => ?_, fun h => absurd ⟨(h hl).1, (h hl).2.1⟩ hnot⟩, fun h => hother (hro h)⟩
    cases hs.symm.trans h.1
  · generalize Function.update s output (some (.file content)) = s₂ at hs hother ⊢
    obtain ⟨houtput, hreceipt⟩ := eval_writeOrRemove hs
      (r := (writeOrRemove dumps output receiptPath v).eval ok s₂) rfl
    refine ⟨⟨?_, fun h => ?_⟩, fun h => ?_⟩
    · rintro ⟨hremoved, hreceiptPath⟩ -
      refine ⟨hsync, hdesc, fun hw => ?_, (houtput.mp hremoved).2⟩
      by_cases hro : receiptPath = output
      · have h' := hw.2.2.2
        rw [hro, hs] at h'
        cases h'
      · exact (hreceipt hro).mp (hreceiptPath.trans (hother hro).symm) hw
    · obtain ⟨-, -, hw, hu⟩ := h hl
      have hremoved := houtput.mpr ⟨fun h => hw h.1, hu⟩
      refine ⟨hremoved, ?_⟩
      by_cases hro : receiptPath = output
      · subst hro
        exact hremoved.trans hn.symm
      · rw [(hreceipt hro).mpr hw, hother hro]
    · rw [(hreceipt (hro h)).mpr ?_, hother (hro h)]
      intro hw
      rw [← hother (hro h)] at h
      exact h hw.2.2.2

/-! ## A call that finds neither file -/

/-- The directories above the output are made, and the archive stands there. -/
def afterLink (s : Files) (output : Path) (content : Bytes) : Files := fun path =>
  if path = output then some (.file content)
  else if path ∈ parents output then some .directory
  else s path

theorem mkdir_all (h : ∀ p ∈ ps, Makable ok stage s p) (x : Path) :
    ((mkdir stage ps).eval ok s).1 x = if x ∈ ps then some .directory else s x := by
  by_cases hx : x ∈ ps
  · rw [if_pos hx]
    rcases h x hx with hd | ⟨hn, -⟩
    · have hthere : ¬(s x = none ∧ Reached ok stage s x ps) := by
        rintro ⟨hn, -⟩
        rw [hd] at hn
        cases hn
      rw [mkdir_kept hthere, hd]
    · exact mkdir_made hn (reached_of_makable h hx)
  · rw [if_neg hx]
    exact mkdir_kept fun h' => hx h'.2.mem

variable {check clean : Call Unit} {prepare : Call α} {contents : α → Bytes} {receipts : α → Call Receipt}
  {checked : Prop} {Prepared Described : α → Prop}

/-- A call stops before it publishes anything, or publishes onto the directories it has made. -/
theorem fresh_cases (hcheck : check.Keeps (fun _ => True) (· = ·))
    (hchecked : ∀ s, (check.eval ok s).2 = .ok () ↔ checked)
    (hprepare : prepare.Keeps (fun _ => True) (· = ·))
    (hprepared : ∀ s a, (prepare.eval ok s).2 = .ok a ↔ Prepared a)
    (hclean : clean.Keeps (fun _ => True) (· = ·)) {r : Files × Except Failure Receipt}
    (hr : (fresh dumps output receiptPath check prepare contents receipts clean).eval ok s = r) :
    (r.1 = ((mkdir .call (parents output)).eval ok s).1 ∧
      ∀ a, ¬((∀ p ∈ parents output, Makable ok .call s p) ∧ checked ∧ ok .makeTemporary = true ∧ Prepared a)) ∨
    ∃ a, ((∀ p ∈ parents output, Makable ok .call s p) ∧ checked ∧ ok .makeTemporary = true ∧ Prepared a) ∧
      r.1 = ((publishBoth dumps output receiptPath (contents a) (receipts a)).eval ok
        ((mkdir .call (parents output)).eval ok s).1).1 := by
  rw [fresh, bind_eq, eval_bind] at hr
  cases hm : ((mkdir .call (parents output)).eval ok s).2 with
  | error e =>
    rw [hm] at hr
    refine .inl ⟨by rw [← hr], fun a ha => ?_⟩
    have h := mkdir_eq_ok (u := ()) |>.mpr ha.1
    rw [hm] at h
    cases h
  | ok u =>
    have hmakable := mkdir_eq_ok.mp hm
    rw [hm] at hr
    dsimp only at hr
    generalize ((mkdir .call (parents output)).eval ok s).1 = s₁ at hr ⊢
    rw [bind_eq, eval_bind, hcheck.eval] at hr
    cases hc : (check.eval ok s₁).2 with
    | error e =>
      rw [hc] at hr
      refine .inl ⟨by rw [← hr], fun a ha => ?_⟩
      have h := (hchecked s₁).mpr ha.2.1
      rw [hc] at h
      cases h
    | ok u =>
      have hch := (hchecked s₁).mp hc
      rw [hc] at hr
      dsimp only at hr
      rw [bind_eq, eval_bind, eval_perform] at hr
      by_cases ht : ok .makeTemporary = true
      · rw [if_pos ht] at hr
        dsimp only at hr
        rw [eval_ensure, hclean.eval, bind_eq, eval_bind, hprepare.eval] at hr
        cases hp : (prepare.eval ok s₁).2 with
        | error e =>
          rw [hp] at hr
          refine .inl ⟨by rw [← hr], fun a ha => ?_⟩
          have h := (hprepared s₁ a).mpr ha.2.2.2
          rw [hp] at h
          cases h
        | ok a =>
          rw [hp] at hr
          exact .inr ⟨a, ⟨hmakable, hch, ht, (hprepared s₁ a).mp hp⟩, by rw [← hr]⟩
      · rw [if_neg ht] at hr
        exact .inl ⟨by rw [← hr], fun a ha => ht ha.2.2.1⟩

/-- When a call that finds neither file leaves neither. -/
def LeavesNeither (ok : Op → Bool) (s : Files) (output receiptPath : Path) (contents : α → Bytes)
    (checked : Prop) (Prepared Described : α → Prop) : Prop :=
  ¬Reached ok .call s receiptPath (parents output) ∧
    ∀ a, (∀ p ∈ parents output, Makable ok .call s p) ∧ checked ∧ ok .makeTemporary = true ∧ Prepared a →
      TakenBack ok (afterLink s output (contents a)) output receiptPath (Described a)

theorem fresh_kept_iff (hn : s output = none) (hrn : s receiptPath = none)
    (hcheck : check.Keeps (fun _ => True) (· = ·))
    (hchecked : ∀ s, (check.eval ok s).2 = .ok () ↔ checked)
    (hprepare : prepare.Keeps (fun _ => True) (· = ·))
    (hprepared : ∀ s a, (prepare.eval ok s).2 = .ok a ↔ Prepared a)
    (hreceipts : ∀ a, (receipts a).Keeps (fun _ => True) (· = ·))
    (hdescribed : ∀ s a, (∃ v, ((receipts a).eval ok s).2 = .ok v) ↔ Described a)
    (hclean : clean.Keeps (fun _ => True) (· = ·)) {r : Files × Except Failure Receipt}
    (hr : (fresh dumps output receiptPath check prepare contents receipts clean).eval ok s = r) :
    (r.1 output = none ∧ r.1 receiptPath = none) ↔
      LeavesNeither ok s output receiptPath contents checked Prepared Described := by
  have houtput : ((mkdir .call (parents output)).eval ok s).1 output = none := by
    rw [mkdir_kept fun h => not_mem_parents h.2.mem, hn]
  have hreceipt : ((mkdir .call (parents output)).eval ok s).1 receiptPath = none ↔
      ¬Reached ok .call s receiptPath (parents output) := by
    by_cases h : Reached ok .call s receiptPath (parents output)
    · rw [mkdir_made hrn h]
      simp [h]
    · rw [mkdir_kept fun h' => h h'.2, hrn]
      simp [h]
  rcases fresh_cases hcheck hchecked hprepare hprepared hclean hr with ⟨h, hnot⟩ | ⟨a, ha, h⟩ <;> rw [h]
  · rw [houtput, hreceipt]
    exact ⟨fun h => ⟨h.2, fun a ha => absurd ha (hnot a)⟩, fun h => ⟨rfl, h.1⟩⟩
  · have hparents : ∀ p ∈ parents output, ((mkdir .call (parents output)).eval ok s).1 p = some .directory :=
      fun p hp => by rw [mkdir_all ha.1, if_pos hp]
    have hlinked : Function.update ((mkdir .call (parents output)).eval ok s).1 output
        (some (.file (contents a))) = afterLink s output (contents a) := by
      funext x
      by_cases hx : x = output
      · subst hx
        rw [Function.update_self, afterLink, if_pos rfl]
      · rw [Function.update_of_ne hx, afterLink, if_neg hx, mkdir_all ha.1]
    obtain ⟨hboth, hkept⟩ := publishBoth_kept hparents houtput (hreceipts a) (hdescribed · a)
      (r := (publishBoth dumps output receiptPath (contents a) (receipts a)).eval ok
        ((mkdir .call (parents output)).eval ok s).1) rfl
    rw [hlinked] at hboth
    by_cases hreached : Reached ok .call s receiptPath (parents output)
    · have hthere := mkdir_made hrn hreached
      refine ⟨fun h => ?_, fun h => absurd hreached h.1⟩
      rw [hkept (by rw [hthere]; simp), hthere] at h
      cases h.2
    · rw [hreceipt.mpr hreached] at hboth
      rw [hboth]
      -- the temporaries of a call have one outcome
      refine ⟨fun h => ⟨hreached, fun a' ha' => ?_⟩, fun h => h.2 a ha⟩
      have h₁ := (hprepared s a).mpr ha.2.2.2
      rw [(hprepared s a').mpr ha'.2.2.2] at h₁
      obtain rfl := Except.ok.inj h₁
      exact h

/-! ## The calls -/

section Tool

variable {sha256 : Bytes → Bytes} {loads : Bytes → Option Receipt} {compress decompress : Bytes → Option Bytes}
  {free maxBlocks declaredSize : Nat} {carv1 compressed : Bytes}

theorem keeps_perform : (perform op).Keeps (fun _ => True) (· = ·) := keeps_attempt

theorem keeps_nothing : (Task.ret () : Call Unit).Keeps (fun _ => True) (· = ·) := trivial

theorem keeps_lift {x : Except Error α} : (lift x).Keeps (fun _ => True) (· = ·) := by
  cases x <;> trivial

theorem keeps_saved {missing : String} {f : Bytes → Receipt → Except Error Receipt} :
    (saved loads s output receiptPath missing f).Keeps (fun _ => True) (· = ·) := by
  unfold saved
  split
  · refine keeps_perform.bind fun _ => ?_
    split
    · exact keeps_lift
    · trivial
  · trivial

/-- The temporary files of `pack` get written, and hold `packed`. -/
def PackedFrom (sha256 : Bytes → Bytes) (compress : Bytes → Option Bytes) (ok : Op → Bool) (carv1 : Bytes)
    (maxBlocks : Nat) (packed : Packed) : Prop :=
  (ok .writeTemporary = true ∧ ok .validate = true ∧ ok .digest = true ∧ ok .zstd = true ∧
    ok .measure = true) ∧
  ∃ rows checked, wrap sha256 carv1 maxBlocks = .ok (packed.carv2, rows) ∧
    validateCarv2 sha256 packed.carv2 maxBlocks = .ok checked ∧ checked.blocks = rows.length ∧
    compress packed.carv2 = some packed.compressed ∧ packed.blocks = rows.length

theorem runZstd_eq_ok {x : Option Bytes} {out : Bytes} : runZstd x = .ok out ↔ x = some out := by
  cases x with
  | none => exact ⟨fun h => (by cases h), fun h => (by cases h)⟩
  | some b => exact ⟨fun h => congrArg some (Except.ok.inj h), fun h => congrArg Except.ok (Option.some.inj h)⟩

theorem packTemporaries_keeps : (packTemporaries sha256 compress carv1 maxBlocks).Keeps (fun _ => True) (· = ·) :=
  keeps_perform.bind fun _ => keeps_lift.bind fun _ => keeps_perform.bind fun _ => keeps_lift.bind fun _ =>
    keeps_lift.bind fun _ => keeps_perform.bind fun _ => keeps_perform.bind fun _ => keeps_lift.bind fun _ =>
    keeps_perform.bind fun _ => trivial

theorem packTemporaries_eq_ok (s : Files) (packed : Packed) :
    ((packTemporaries sha256 compress carv1 maxBlocks).eval ok s).2 = .ok packed ↔
      PackedFrom sha256 compress ok carv1 maxBlocks packed := by
  simp only [packTemporaries, bind_eq, eval_bind_eq_ok, perform_eq_ok, lift_eq_ok, runZstd_eq_ok, exists_const,
    Prod.exists, PackedFrom, require_eq_ok, pure_eq, eval_ret]
  constructor
  · rintro ⟨hw, carv2, rows, hwrap, hv, checked, hvalid, hblocks, hd, hz, out, hc, hm, h⟩
    obtain rfl := Except.ok.inj h
    exact ⟨⟨hw, hv, hd, hz, hm⟩, rows, checked, hwrap, hvalid, hblocks, hc, rfl⟩
  · rintro ⟨⟨hw, hv, hd, hz, hm⟩, rows, checked, hwrap, hvalid, hblocks, hc, hlen⟩
    refine ⟨hw, packed.carv2, rows, hwrap, hv, checked, hvalid, hblocks, hd, hz, packed.compressed, hc, hm, ?_⟩
    rw [← hlen]

theorem describePacked_keeps (packed : Packed) :
    (describePacked sha256 carv1 packed).Keeps (fun _ => True) (· = ·) :=
  keeps_perform.bind fun _ => keeps_lift.bind fun _ => trivial

theorem describePacked_ok (s : Files) (packed : Packed) :
    (∃ v, ((describePacked sha256 carv1 packed).eval ok s).2 = .ok v) ↔
      ok .readBack = true ∧ packed.compressed ≠ [] := by
  simp only [describePacked, bind_eq, eval_bind_eq_ok, perform_eq_ok, lift_eq_ok, exists_const, require_eq_ok,
    pure_eq, eval_ret]
  constructor
  · rintro ⟨_, hread, hz, -⟩
    exact ⟨hread, hz⟩
  · rintro ⟨hread, hz⟩
    exact ⟨_, hread, hz, rfl⟩

theorem reserve_keeps : (reserve free carv1).Keeps (fun _ => True) (· = ·) :=
  keeps_perform.bind fun _ => keeps_lift

theorem reserve_eq_ok (s : Files) : ((reserve free carv1).eval ok s).2 = .ok () ↔
    ok .diskUsage = true ∧ 2 * carv1.length + 64 * 1024 * 1024 ≤ free := by
  simp only [reserve, bind_eq, eval_bind_eq_ok, perform_eq_ok, lift_eq_ok, require_eq_ok, exists_const]

/-- When `pack` leaves both paths as they were. -/
def PackArgs.Restores (args : PackArgs) (sha256 : Bytes → Bytes) (compress : Bytes → Option Bytes) (free : Nat)
    (ok : Op → Bool) (s : Files) : Prop :=
  ∀ carv1, ok .inspect = true → s.read args.carv1 = some carv1 →
    (1 ≤ args.maxBlocks ∧ args.maxBlocks ≤ 1000 ∧ 1 ≤ carv1.length ∧ carv1.length ≤ args.maxBytes) →
    s args.output = none → s (args.receipt.getD (sidecar args.output)) = none →
    LeavesNeither ok s args.output (args.receipt.getD (sidecar args.output)) Packed.compressed
      (ok .diskUsage = true ∧ 2 * carv1.length + 64 * 1024 * 1024 ≤ free)
      (PackedFrom sha256 compress ok carv1 args.maxBlocks)
      fun packed => ok .readBack = true ∧ packed.compressed ≠ []

theorem pack_kept_iff {args : PackArgs} {r : Files × Except Failure Receipt}
    (hr : (pack sha256 dumps loads compress free args).eval ok s = r) :
    (r.1 args.output = s args.output ∧
        r.1 (args.receipt.getD (sidecar args.output)) = s (args.receipt.getD (sidecar args.output))) ↔
      args.Restores sha256 compress free ok s := by
  rw [PackArgs.Restores]
  generalize hpath : args.receipt.getD (sidecar args.output) = receiptPath at hr ⊢
  rw [pack, hpath, bind_eq, eval_bind, eval_perform] at hr
  by_cases hi : ok .inspect = true
  · rw [if_pos hi] at hr
    dsimp only at hr
    rw [bind_eq, files, Task.reads, bind_get, eval_get, bind_ret] at hr
    dsimp only [id] at hr
    cases hread : s.read args.carv1 with
    | none =>
      rw [hread] at hr
      subst hr
      exact ⟨fun _ _ _ h => (by cases h), fun _ => ⟨rfl, rfl⟩⟩
    | some carv1 =>
      rw [hread] at hr
      dsimp only at hr
      rw [bind_eq, eval_bind, eval_lift_require] at hr
      by_cases hb : 1 ≤ args.maxBlocks ∧ args.maxBlocks ≤ 1000 ∧ 1 ≤ carv1.length ∧ carv1.length ≤ args.maxBytes
      · rw [if_pos hb] at hr
        dsimp only at hr
        by_cases hs : s args.output ≠ none ∨ s receiptPath ≠ none
        · rw [if_pos hs] at hr
          have hkept : r.1 = s := by rw [← hr, keeps_saved.eval]
          rw [hkept]
          refine ⟨fun _ _ _ _ _ ho hrn => ?_, fun _ => ⟨rfl, rfl⟩⟩
          exact (hs.elim (fun h => h ho) fun h => h hrn).elim
        · rw [if_neg hs] at hr
          simp only [not_or, not_not] at hs
          rw [hs.1, hs.2, fresh_kept_iff hs.1 hs.2 reserve_keeps reserve_eq_ok packTemporaries_keeps
            packTemporaries_eq_ok describePacked_keeps describePacked_ok
            (keeps_perform.bind fun _ => keeps_perform) hr]
          refine ⟨fun h carv1' _ h' _ _ _ => ?_, fun h => h carv1 hi rfl hb rfl rfl⟩
          obtain rfl := Option.some.inj h'
          exact h
      · rw [if_neg hb] at hr
        subst hr
        refine ⟨fun _ _ _ h hb' => ?_, fun _ => ⟨rfl, rfl⟩⟩
        obtain rfl := Option.some.inj h
        exact absurd hb' hb
  · rw [if_neg hi] at hr
    subst hr
    exact ⟨fun _ _ h => absurd h hi, fun _ => ⟨rfl, rfl⟩⟩

/-- The temporary file of `unpack` gets written, and holds `unpacked`. -/
def UnpackedFrom (sha256 : Bytes → Bytes) (decompress : Bytes → Option Bytes) (ok : Op → Bool)
    (compressed : Bytes) (declaredSize : Nat) (args : UnpackArgs) (unpacked : Bytes × Validation) : Prop :=
  (ok .writeTemporary = true ∧ ok .zstd = true ∧ ok .measure = true ∧ ok .validate = true ∧
    ok .digest = true) ∧
  decompress compressed = some unpacked.1 ∧ unpacked.1.length = declaredSize ∧
    validateCarv2 sha256 unpacked.1 args.maxBlocks = .ok unpacked.2 ∧
    (args.expectedCarv2Sha256 = "" ∨ sha256File sha256 unpacked.1 = args.expectedCarv2Sha256)

theorem unpackTemporary_keeps {args : UnpackArgs} :
    (unpackTemporary sha256 decompress compressed declaredSize args).Keeps (fun _ => True) (· = ·) :=
  keeps_perform.bind fun _ => keeps_perform.bind fun _ => keeps_lift.bind fun _ => keeps_perform.bind fun _ =>
    keeps_lift.bind fun _ => keeps_perform.bind fun _ => keeps_lift.bind fun _ => keeps_perform.bind fun _ =>
    keeps_lift.bind fun _ => trivial

theorem unpackTemporary_eq_ok {args : UnpackArgs} (s : Files) (unpacked : Bytes × Validation) :
    ((unpackTemporary sha256 decompress compressed declaredSize args).eval ok s).2 = .ok unpacked ↔
      UnpackedFrom sha256 decompress ok compressed declaredSize args unpacked := by
  simp only [unpackTemporary, bind_eq, eval_bind_eq_ok, perform_eq_ok, lift_eq_ok, runZstd_eq_ok, exists_const,
    UnpackedFrom, require_eq_ok, pure_eq, eval_ret]
  constructor
  · rintro ⟨hw, hz, carv2, hc, hm, hsize, hv, validation, hvalid, hd, hsha, h⟩
    obtain rfl := Except.ok.inj h
    exact ⟨⟨hw, hz, hm, hv, hd⟩, hc, hsize, hvalid, hsha⟩
  · rintro ⟨⟨hw, hz, hm, hv, hd⟩, hc, hsize, hvalid, hsha⟩
    exact ⟨hw, hz, unpacked.1, hc, hm, hsize, hv, unpacked.2, hvalid, hd, hsha, rfl⟩

theorem describeUnpacked_keeps (unpacked : Bytes × Validation) :
    (describeUnpacked sha256 compressed unpacked).Keeps (fun _ => True) (· = ·) :=
  keeps_perform.bind fun _ => trivial

theorem describeUnpacked_ok (s : Files) (unpacked : Bytes × Validation) :
    (∃ v, ((describeUnpacked sha256 compressed unpacked).eval ok s).2 = .ok v) ↔ ok .readBack = true := by
  simp only [describeUnpacked, bind_eq, eval_bind_eq_ok, perform_eq_ok, exists_const, pure_eq, eval_ret]
  constructor
  · rintro ⟨_, h, -⟩
    exact h
  · intro h
    exact ⟨_, h, rfl⟩

/-- When `unpack` leaves both paths as they were. -/
def UnpackCall.Restores (call : UnpackCall) (sha256 : Bytes → Bytes) (decompress : Bytes → Option Bytes)
    (ok : Op → Bool) (s : Files) : Prop :=
  ∀ compressed declaredSize, ok .inspect = true → s.read call.compressed = some compressed →
    (call.args.expectedCompressedSha256 = "" ∨
      sha256File sha256 compressed = call.args.expectedCompressedSha256) →
    s call.output = none → s (call.receipt.getD (sidecar call.output)) = none →
    zstdFrameContentSize compressed = .ok declaredSize →
    declaredSize ≤ call.args.maxBytes + 128 * call.args.maxBlocks + 1024 →
    LeavesNeither ok s call.output (call.receipt.getD (sidecar call.output)) Prod.fst True
      (UnpackedFrom sha256 decompress ok compressed declaredSize call.args) fun _ => ok .readBack = true

theorem unpack_kept_iff {call : UnpackCall} {r : Files × Except Failure Receipt}
    (hr : (unpack sha256 dumps loads decompress call).eval ok s = r) :
    (r.1 call.output = s call.output ∧
        r.1 (call.receipt.getD (sidecar call.output)) = s (call.receipt.getD (sidecar call.output))) ↔
      call.Restores sha256 decompress ok s := by
  rw [UnpackCall.Restores]
  generalize hpath : call.receipt.getD (sidecar call.output) = receiptPath at hr ⊢
  rw [unpack, hpath, bind_eq, eval_bind, eval_perform] at hr
  by_cases hi : ok .inspect = true
  · rw [if_pos hi] at hr
    dsimp only at hr
    rw [bind_eq, files, Task.reads, bind_get, eval_get, bind_ret] at hr
    dsimp only [id] at hr
    cases hread : s.read call.compressed with
    | none =>
      rw [hread] at hr
      subst hr
      exact ⟨fun _ _ _ _ h => (by cases h), fun _ => ⟨rfl, rfl⟩⟩
    | some compressed =>
      rw [hread] at hr
      dsimp only at hr
      rw [bind_eq, eval_bind, eval_lift_require] at hr
      by_cases he : call.args.expectedCompressedSha256 = "" ∨
          sha256File sha256 compressed = call.args.expectedCompressedSha256
      · rw [if_pos he] at hr
        dsimp only at hr
        by_cases hs : s call.output ≠ none ∨ s receiptPath ≠ none
        · rw [if_pos hs] at hr
          have hkept : r.1 = s := by rw [← hr, keeps_saved.eval]
          rw [hkept]
          refine ⟨fun _ _ _ _ _ _ ho hrn => ?_, fun _ => ⟨rfl, rfl⟩⟩
          exact (hs.elim (fun h => h ho) fun h => h hrn).elim
        · rw [if_neg hs] at hr
          simp only [not_or, not_not] at hs
          cases hsize : zstdFrameContentSize compressed with
          | error e =>
            have hl : (lift (zstdFrameContentSize compressed)).eval ok s = (s, .error (.archive e)) := by
              rw [hsize]
              rfl
            rw [bind_eq, eval_bind_error _ hl] at hr
            subst hr
            refine ⟨fun _ _ _ _ h _ _ _ hsize' => ?_, fun _ => ⟨rfl, rfl⟩⟩
            obtain rfl := Option.some.inj h
            rw [hsize] at hsize'
            cases hsize'
          | ok size =>
            have hl : (lift (zstdFrameContentSize compressed)).eval ok s = (s, .ok size) := by
              rw [hsize]
              rfl
            rw [bind_eq, eval_bind_ok _ hl, bind_eq, eval_bind, eval_lift_require] at hr
            by_cases hb : size ≤ call.args.maxBytes + 128 * call.args.maxBlocks + 1024
            · rw [if_pos hb] at hr
              rw [hs.1, hs.2, fresh_kept_iff hs.1 hs.2 keeps_nothing (fun s => iff_of_true rfl trivial)
                unpackTemporary_keeps unpackTemporary_eq_ok describeUnpacked_keeps describeUnpacked_ok
                keeps_perform hr]
              refine ⟨fun h compressed' size' _ h' _ _ _ hsize' _ => ?_,
                fun h => h compressed size hi rfl he rfl rfl hsize hb⟩
              obtain rfl := Option.some.inj h'
              rw [hsize] at hsize'
              obtain rfl := Except.ok.inj hsize'
              exact h
            · rw [if_neg hb] at hr
              subst hr
              refine ⟨fun _ _ _ _ h _ _ _ hsize' hb' => ?_, fun _ => ⟨rfl, rfl⟩⟩
              obtain rfl := Option.some.inj h
              rw [hsize] at hsize'
              obtain rfl := Except.ok.inj hsize'
              exact absurd hb' hb
      · rw [if_neg he] at hr
        subst hr
        refine ⟨fun _ _ _ _ h he' => ?_, fun _ => ⟨rfl, rfl⟩⟩
        obtain rfl := Option.some.inj h
        exact absurd he' he
  · rw [if_neg hi] at hr
    subst hr
    exact ⟨fun _ _ _ h => absurd h hi, fun _ => ⟨rfl, rfl⟩⟩

end Tool

/-- When a call leaves both paths as they were. -/
def Command.Restores (command : Command) (host : Host) (ok : Op → Bool) (s : Files) : Prop :=
  match command with
  | .pack args => args.Restores host.sha256 host.compress host.free ok s
  | .unpack call => call.Restores host.sha256 host.decompress ok s

theorem command_kept_iff (command : Command) (host : Host) (ok : Op → Bool) (s : Files) :
    ((command.run host ok s).1 command.output = s command.output ∧
        (command.run host ok s).1 command.receiptPath = s command.receiptPath) ↔
      command.Restores host ok s := by
  cases command with
  | pack args => exact pack_kept_iff rfl
  | unpack call => exact unpack_kept_iff rfl

/-- **All or nothing**: a call that raises leaves both paths as they were exactly when it makes
no directory at the receipt's path and, if it links the archive, takes it back. -/
theorem restored_iff (command : Command) (host : Host) (ok : Op → Bool) (s : Files) (e : Failure)
    (_ : (command.run host ok s).2 = .error e) :
    ((command.run host ok s).1 command.output = s command.output ∧
        (command.run host ok s).1 command.receiptPath = s command.receiptPath) ↔
      command.Restores host ok s :=
  command_kept_iff command host ok s

namespace Sample

def host : Host where
  sha256 := Carv2.Sample.sha256
  compress := Carv2.Sample.store
  decompress := Carv2.Sample.restore
  free := 2 ^ 30
  dumps _ := []
  loads _ := none

def before : Files := fun path => if path = ["car"] then some (.file Carv2.Sample.car) else none

def packCar : Command := .pack ⟨["car"], ["out"], none, 1, 40⟩

theorem error_of {r : Files × Except Failure Receipt} {e : Failure}
    (h : (match r.2 with | .error e' => decide (e' = e) | .ok _ => false) = true) : r.2 = .error e := by
  cases hr : r.2 with
  | error e' =>
    rw [hr] at h
    exact congrArg Except.error (of_decide_eq_true h)
  | ok a =>
    rw [hr] at h
    cases h

end Sample

/-- The receipt cannot be written, and the archive is taken back. -/
theorem restored_iff_writeReceipt :
    ((Sample.packCar.run Sample.host (· != .writeReceipt) Sample.before).1 ["out"] = none ∧
        (Sample.packCar.run Sample.host (· != .writeReceipt) Sample.before).1 ["out.json"] = none) ↔
      Sample.packCar.Restores Sample.host (· != .writeReceipt) Sample.before :=
  restored_iff Sample.packCar Sample.host (· != .writeReceipt) Sample.before (.os .writeReceipt)
    (Sample.error_of (by decide +kernel))

/-- **A failing directory fsync**: the archive stays without a receipt. -/
theorem not_restored : ¬ ∀ (command : Command) (host : Host) (ok : Op → Bool) (s : Files) (e : Failure),
    (command.run host ok s).2 = .error e →
      (command.run host ok s).1 command.output = s command.output ∧
        (command.run host ok s).1 command.receiptPath = s command.receiptPath := by
  intro h
  have hraises : (Sample.packCar.run Sample.host (· != .publish .fsync) Sample.before).2 =
      .error (.os (.publish .fsync)) := Sample.error_of (by decide +kernel)
  have hthere : ((Sample.packCar.run Sample.host (· != .publish .fsync) Sample.before).1 ["out"]).isSome = true := by
    decide +kernel
  have hgone : (Sample.packCar.run Sample.host (· != .publish .fsync) Sample.before).1 ["out"] = none :=
    (h _ _ _ _ _ hraises).1
  rw [hgone] at hthere
  cases hthere

end Carv2.Publish
