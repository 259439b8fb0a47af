import Yataverse.EpochCycle.EmptyDelta
import Mathlib.Data.List.Basic

/-!
# Retrying a step

A run that stopped in a step begins that step again from its first instruction. Two steps
leave something behind that their beginning does not survive: `check` has renamed
`log-resolved.jsonl` when its resolve fails, and renames it again; `reader` has written the
plist when the restart fails, and a second run that finds the entry restarts nothing.

- `Retriable`: neither is left behind.
- `Left`: what a run of any history leaves in a step.
- **`finishes_iff`**: with every command succeeding, `run!` comes to its end from a state
  that any run has left if and only if the state is `Retriable`.
-/

namespace EpochCycle

open Function Machine

/-- No log resolved before without one resolved now, and no reader entry that the reader does
not serve. -/
def Retriable (w : World) : Prop :=
  (w .logResolvedBefore = true → w .logResolved = true) ∧ (w .plistEntry = true → w .readerServes = true)

/-- `run!` has come to its end: every step is recorded, or the delta is empty. -/
def Ended (s : State) : Prop :=
  s.proc = none ∧ s.exit = some 0 ∧ (s.disk.done = steps ∨ s.disk.EmptyDelta)

/-- `run!` is called and every command succeeds: it comes to its end. -/
def Finishes (s : State) (inv : Inv) : Prop :=
  ∃ k s', run step s (.invoke none :: List.replicate k (.next (.success inv))) = some s' ∧ Ended s'

/-! ## What is left behind -/

/-- The facts that decide whether a step can be retried. -/
def watched : List Fact := [.logResolved, .logResolvedBefore, .plistEntry, .readerServes]

/-- What a run leaves whose recorded steps are `done`. -/
structure Left (done : List Name) (w : World) : Prop where
  before : w .logResolvedBefore = true → .bundle ∈ done
  resolved : .resolve ∈ done → w .logResolved = true ∨ w .logResolvedBefore = true
  checked : .check ∈ done → w .logResolved = true
  entered : w .plistEntry = true → .check ∈ done
  served : .reader ∈ done → w .plistEntry = true → w .readerServes = true

variable {s s' s₁ s₂ : State} {w w' : World} {disk mem m m' : Saved} {stop : Option Name}
  {done rest : List Name} {n : Name} {p : Proc} {i : Instr} {is : List Instr} {r : Reply} {inv : Inv}

theorem Left.congr (hw : ∀ f ∈ watched, w' f = w f) (h : Left done w) : Left done w' := by
  have h₁ := hw .logResolved (by decide)
  have h₂ := hw .logResolvedBefore (by decide)
  have h₃ := hw .plistEntry (by decide)
  have h₄ := hw .readerServes (by decide)
  constructor
  · rw [h₂]
    exact h.before
  · rw [h₁, h₂]
    exact h.resolved
  · rw [h₁]
    exact h.checked
  · rw [h₃]
    exact h.entered
  · rw [h₃, h₄]
    exact h.served

theorem Retriable.congr (hw : ∀ f ∈ watched, w' f = w f) (h : Retriable w) : Retriable w' := by
  unfold Retriable
  rw [hw .logResolved (by decide), hw .logResolvedBefore (by decide), hw .plistEntry (by decide),
    hw .readerServes (by decide)]
  exact h

/-- A recorded step that concerns no watched fact. -/
theorem Left.record (hn : n ≠ .resolve ∧ n ≠ .check ∧ n ≠ .reader) (h : Left done w) :
    Left (done ++ [n]) w where
  before hb := List.mem_append_left _ (h.before hb)
  resolved hd := h.resolved ((List.mem_append.mp hd).resolve_right (by simpa using hn.1.symm))
  checked hd := h.checked ((List.mem_append.mp hd).resolve_right (by simpa using hn.2.1.symm))
  entered he := List.mem_append_left _ (h.entered he)
  served hd := h.served ((List.mem_append.mp hd).resolve_right (by simpa using hn.2.2.symm))

/-- The steps that concern no watched fact. -/
theorem body_quiet (hn : n ≠ .resolve ∧ n ≠ .check ∧ n ≠ .reader) :
    ∀ i ∈ body m n, ∀ f ∈ watched, i.touches f = false := by
  obtain ⟨hr, hc, hrd⟩ := hn
  have hadd : ∀ file, ∀ i ∈ addBoth file, ∀ f ∈ watched, i.touches f = false := by
    intro file
    simp [addBoth, watched, Instr.touches, Command.effects]
  have hrow : ∀ row, ∀ i ∈ largeRow row, ∀ f ∈ watched, i.touches f = false := by
    intro row
    simp [largeRow, watched, Instr.touches, Command.effects]
  cases n with
  | resolve => exact absurd rfl hr
  | check => exact absurd rfl hc
  | reader => exact absurd rfl hrd
  | jacob =>
    intro i hi
    simp only [body, List.mem_append, List.mem_flatMap] at hi
    obtain (hi | ⟨row, -, hi⟩) | hi := hi
    · revert i
      simp [watched, Instr.touches, Command.effects]
    · exact hrow row i hi
    · revert i
      simp [watched, Instr.touches, Command.effects]
  | cids => exact hadd _
  | manifest =>
    intro i hi
    obtain rfl | hi := List.mem_cons.mp hi
    · simp [watched, Instr.touches, Command.effects]
    · exact hadd _ i hi
  | bundle =>
    intro i hi
    obtain rfl | hi := List.mem_cons.mp hi
    · simp [watched, Instr.touches, Command.effects]
    · obtain rfl | hi := List.mem_cons.mp hi
      · simp [watched, Instr.touches, Command.effects]
      · exact hadd _ i hi
  | head | capture | diff | delta | xavier | submit =>
    simp [body, watched, Instr.touches, Command.effects]

/-- The resolve writes its file or fails. -/
theorem run_resolveLog : (Command.resolveLog.run r w = w ∧ r.ok = false) ∨
    Command.resolveLog.run r w = update w .logResolved true := by
  cases hok : r.ok with
  | true =>
    right
    simp [Command.run, hok, Command.effects]
  | false =>
    cases hr : r.reached with
    | zero =>
      left
      simp [Command.run, hok, hr]
    | succ k =>
      right
      simp [Command.run, hok, hr, Command.effects]

/-- The edit of the plist restarts the reader, or fails before or behind the entry. -/
theorem run_editPlist : (r.ok = false ∧ (Command.editPlist.run r w = w ∨
      Command.editPlist.run r w = update w .plistEntry true)) ∨
    Command.editPlist.run r w = update (update w .plistEntry true) .readerServes true := by
  cases hok : r.ok with
  | true =>
    right
    simp [Command.run, hok, Command.effects]
  | false =>
    cases hr : r.reached with
    | zero =>
      left
      simp [Command.run, hok, hr]
    | succ k =>
      cases k with
      | zero =>
        left
        simp [Command.run, hok, hr, Command.effects]
      | succ k =>
        right
        simp [Command.run, hok, hr, Command.effects]

/-- Where a step comes, the recorded steps are the ones before it. -/
theorem split_idxOf (h : done ++ n :: rest = steps) :
    steps.take (steps.idxOf n) = done ∧ steps.drop (steps.idxOf n) = n :: rest := by
  have hn : n ∉ done := by
    have := steps_nodup
    rw [← h] at this
    exact fun hd => (List.nodup_append.mp this).2.2 n hd n (.head rest) rfl
  rw [← h, List.idxOf_append_of_notMem hn, List.idxOf_cons_self, Nat.add_zero]
  exact ⟨List.take_left, List.drop_left⟩

theorem Left.resolve (hd : done ++ .resolve :: rest = steps) (h : Left done w) :
    Left done (update w .logResolved true) ∧ Left (done ++ [.resolve]) (update w .logResolved true) := by
  obtain ⟨rfl, -⟩ := split_idxOf hd
  have hc : Name.check ∉ steps.take (steps.idxOf .resolve) := by decide
  have hrd : Name.reader ∉ steps.take (steps.idxOf .resolve) := by decide
  have hl : (update w .logResolved true : World) .logResolved = true := update_self ..
  have hb : (update w .logResolved true : World) .logResolvedBefore = w .logResolvedBefore := rfl
  have hp : (update w .logResolved true : World) .plistEntry = w .plistEntry := rfl
  constructor
  · exact ⟨hb ▸ h.before, fun _ => .inl hl, fun _ => hl, hp ▸ h.entered, fun hd => absurd hd hrd⟩
  · exact ⟨fun hb => List.mem_append_left _ (h.before hb), fun _ => .inl hl, fun _ => hl,
      fun he => absurd (h.entered he) hc, fun hd => by simp [hrd] at hd⟩

theorem Left.safe_resolve (hd : done ++ .resolve :: rest = steps) (h : Left done w) :
    Safe (Left done) (Left (done ++ [.resolve])) (body m .resolve) w m := by
  obtain ⟨hkeep, hrecord⟩ := h.resolve hd
  refine .call h fun r => ?_
  obtain ⟨hw, hok⟩ | hw := run_resolveLog (r := r) (w := w)
  · rw [hw]
    exact ⟨h, fun ht => by simp [hok] at ht⟩
  · rw [hw]
    exact ⟨hkeep, fun _ => ⟨hkeep, hrecord⟩⟩

/-- What `check` leaves while it is not recorded: the log is renamed or resolved. -/
theorem Left.checking (hd : done ++ .check :: rest = steps) (h : Left done w)
    (hp : w' .plistEntry = w .plistEntry)
    (hl : w' .logResolved = true ∨ w' .logResolvedBefore = true) : Left done w' := by
  obtain ⟨rfl, -⟩ := split_idxOf hd
  exact ⟨fun _ => by decide, fun _ => hl, fun hc => absurd hc (by decide), hp ▸ h.entered,
    fun hr => absurd hr (by decide)⟩

/-- What `check` leaves behind it: the log is resolved. -/
theorem Left.checked_now (hd : done ++ .check :: rest = steps) (h : Left done w)
    (hl : w .logResolved = true) : Left (done ++ [.check]) w := by
  obtain ⟨rfl, -⟩ := split_idxOf hd
  exact ⟨fun _ => by decide, fun _ => .inl hl, fun _ => hl, fun _ => by decide,
    fun hr => absurd hr (by decide)⟩

theorem Left.safe_check (hd : done ++ .check :: rest = steps) (h : Left done w) :
    Safe (Left done) (Left (done ++ [.check])) (body m .check) w m := by
  refine .rename h fun hl => ?_
  have hren : Left done (update (update w .logResolvedBefore true) .logResolved false) :=
    h.checking hd rfl (.inr rfl)
  refine .call hren fun r => ?_
  obtain ⟨hw, hok⟩ | hw :=
    run_resolveLog (r := r) (w := update (update w .logResolvedBefore true) .logResolved false)
  · rw [hw]
    exact ⟨hren, fun ht => by simp [hok] at ht⟩
  · rw [hw]
    have hres : Left done (update (update (update w .logResolvedBefore true) .logResolved false)
        .logResolved true) := hren.checking hd rfl (.inl rfl)
    exact ⟨hres, fun _ => .call_idle rfl ⟨hres, hres.checked_now hd rfl⟩⟩

/-- What `reader` leaves while it is not recorded. -/
theorem Left.reading (hd : done ++ .reader :: rest = steps) (h : Left done w)
    (hl : w' .logResolved = w .logResolved) : Left done w' := by
  obtain ⟨rfl, -⟩ := split_idxOf hd
  have hlog : w' .logResolved = true := hl ▸ h.checked (by decide)
  exact ⟨fun _ => by decide, fun _ => .inl hlog, fun _ => hlog, fun _ => by decide,
    fun hr => absurd hr (by decide)⟩

theorem Left.safe_reader (hd : done ++ .reader :: rest = steps) (h : Left done w) :
    Safe (Left done) (Left (done ++ [.reader])) (body m .reader) w m := by
  -- behind the health check the reader serves the log
  have hserves : ∀ w : World, Left done w →
      Safe (Left done) (Left (done ++ [.reader])) [.need .readerServes, .call .health] w m := by
    intro w h
    refine .need h fun hs => .call_idle rfl ⟨h, ?_⟩
    obtain ⟨rfl, -⟩ := split_idxOf hd
    exact ⟨fun hb => List.mem_append_left _ (h.before hb), fun _ => h.resolved (by decide),
      fun _ => h.checked (by decide), fun he => List.mem_append_left _ (h.entered he), fun _ _ => hs⟩
  refine .call_idle rfl (.callUnless h (fun _ => hserves w h) fun _ r => ?_)
  have hedit : Left done (Command.editPlist.run r w) := by
    refine h.reading hd ?_
    obtain ⟨-, hw | hw⟩ | hw := run_editPlist (r := r) (w := w) <;> rw [hw] <;> rfl
  exact ⟨hedit, fun _ => hserves _ hedit⟩

/-- **Every step**, from what any run leaves there, leaves what a run leaves there, and
establishes what the run behind it starts from. -/
theorem Left.safe (hd : done ++ n :: rest = steps) (h : Left done w) :
    Safe (Left done) (Left (done ++ [n])) (body m n) w m := by
  by_cases hn : n ≠ .resolve ∧ n ≠ .check ∧ n ≠ .reader
  · have hs : Safe (Left done) (Left done) (body m n) w m :=
      .quiet (fun _ _ => Left.congr) (body_quiet hn) h
    exact hs.imp fun _ => Left.record hn
  · obtain rfl | rfl | rfl : n = .resolve ∨ n = .check ∨ n = .reader := by
      by_contra hne
      exact hn (by simpa using hne)
    · exact h.safe_resolve hd
    · exact h.safe_check hd
    · exact h.safe_reader hd

/-! ## What any run leaves -/

/-- A process can only leave what can be left in its step. -/
structure LeftInv (s : State) : Prop where
  order : InOrder s
  left : Left s.disk.done s.world
  proc : ∀ p, s.proc = some p →
    Safe (Left p.mem.done) (Left (p.mem.done ++ [p.name])) p.todo s.world p.mem

theorem LeftInv.start {imported : Nat → Bool} : LeftInv (State.start imported) where
  order := .start
  left := ⟨fun h => (by cases h), fun h => (by cases h), fun h => (by cases h), fun h => (by cases h),
    fun h => (by cases h)⟩
  proc p hp := by cases hp

theorem LeftInv.begin (h : mem.done ++ rest = steps) (hl : Left mem.done w) :
    LeftInv (begin w mem mem stop rest) where
  order := .begin h rfl
  left := by rwa [begin_disk, begin_world]
  proc p hp := by
    obtain ⟨n, rest', rfl, rfl⟩ := begin_proc hp
    rw [begin_world]
    exact hl.safe h

theorem LeftInv.exited {code : Nat} (h : ∃ rest, disk.done ++ rest = steps) (hl : Left disk.done w) :
    LeftInv (exited w disk code) where
  order := .exited h
  left := hl
  proc p hp := by cases hp

theorem LeftInv.next (h : LeftInv s) (hp : s.proc = some p) (r : Reply) : LeftInv (p.next r s) := by
  obtain ⟨hd, hsplit⟩ := h.order.proc p hp
  have hsafe := h.proc p hp
  cases htodo : p.todo with
  | nil =>
    rw [htodo] at hsafe
    have hrest : (p.mem.done ++ [p.name]) ++ p.rest = steps := by
      rw [List.append_assoc, ← hsplit]
      rfl
    unfold Proc.next
    rw [htodo]
    dsimp only
    unfold Proc.finish
    dsimp only
    split
    · exact .exited ⟨p.rest, hrest⟩ hsafe.2
    · split
      · exact .exited ⟨p.rest, hrest⟩ hsafe.2
      · rw [enter_rest hrest]
        exact .begin hrest hsafe.2
  | cons i is =>
    rw [htodo] at hsafe
    obtain ⟨hleft, hgo⟩ := hsafe.2 r
    have horder := h.order.next hp r
    unfold Proc.next at horder ⊢
    rw [htodo] at horder ⊢
    dsimp only at horder ⊢
    split at horder
    · refine ⟨horder, ?_, fun q hq => by cases hq⟩
      show Left (i.run r s.world p.mem).mem.done _
      rwa [Instr.run_done]
    · rename_i ht
      refine ⟨horder, ?_, ?_⟩
      · show Left (if _ then _ else _ : Saved).done _
        split
        · rwa [Instr.run_done]
        · rwa [← hd]
      · intro q hq
        obtain rfl := Option.some.inj hq
        dsimp only
        rw [Instr.run_done]
        exact hgo ht

theorem LeftInv.step {a : Label} (h : LeftInv s) (hs : step s a = some s') : LeftInv s' := by
  cases a with
  | invoke stop =>
    obtain ⟨-, hs⟩ := Option.ite_none_right_eq_some.mp hs
    obtain rfl := Option.some.inj hs
    obtain ⟨rest, hrest⟩ := h.order.disk
    rw [enter_steps hrest]
    exact .begin hrest h.left
  | next r =>
    obtain ⟨p, hp, rfl⟩ := Option.map_eq_some_iff.mp hs
    exact h.next hp r
  | kill =>
    obtain ⟨-, hs⟩ := Option.ite_none_right_eq_some.mp hs
    obtain rfl := Option.some.inj hs
    exact ⟨⟨h.order.disk, fun p hp => by cases hp⟩, h.left, fun p hp => by cases hp⟩

/-! ## A step whose commands succeed -/

/-- A step whose instructions all go through, with the reply `r`. -/
def execAll (r : Reply) : List Instr → World → Saved → Option (World × Saved)
  | [], w, m => some (w, m)
  | i :: is, w, m =>
    if (i.run r w m).threw.isNone then execAll r is (i.run r w m).world (i.run r w m).mem else none

theorem execAll_done (h : execAll r is w m = some (w', m')) : m'.done = m.done := by
  induction is generalizing w m with
  | nil =>
    obtain ⟨-, rfl⟩ := Prod.mk.inj (Option.some.inj h)
    rfl
  | cons i is ih =>
    obtain ⟨-, h⟩ := Option.ite_none_right_eq_some.mp h
    rw [ih h, Instr.run_done]

theorem Safe.execAll {E Q : World → Prop} (hs : Safe E Q is w m) (h : execAll r is w m = some (w', m')) : Q w' := by
  induction is generalizing w m with
  | nil =>
    obtain ⟨rfl, -⟩ := Prod.mk.inj (Option.some.inj h)
    exact hs.2
  | cons i is ih =>
    obtain ⟨ht, h⟩ := Option.ite_none_right_eq_some.mp h
    exact ih ((hs.2 r).2 (Option.isNone_iff_eq_none.mp ht)) h

/-- An instruction that succeeds with its command. -/
def Instr.smooth : Instr → Bool
  | .need _ | .rename _ _ => false
  | _ => true

theorem Instr.run_smooth (h : i.smooth = true) : (i.run (.success inv) w m).threw = none := by
  cases i with
  | need f | rename f g => cases h
  | call c | attempt c | write f | recordInv => rfl
  | callUnless f c | recordCutoff =>
    unfold Instr.run
    dsimp only
    split <;> rfl

theorem execAll_smooth (h : ∀ i ∈ is, i.smooth = true) :
    ∃ w' m', execAll (.success inv) is w m = some (w', m') := by
  induction is generalizing w m with
  | nil => exact ⟨w, m, rfl⟩
  | cons i is ih =>
    unfold EpochCycle.execAll
    rw [Instr.run_smooth (h i (.head is))]
    exact ih fun j hj => h j (.tail i hj)

theorem body_smooth (hn : n ≠ .diff ∧ n ≠ .check ∧ n ≠ .reader) : ∀ i ∈ body m n, i.smooth = true := by
  have hrow : ∀ row, ∀ i ∈ largeRow row, i.smooth = true := by
    intro row
    simp [largeRow, Instr.smooth]
  obtain ⟨hdf, hc, hrd⟩ := hn
  cases n with
  | diff => exact absurd rfl hdf
  | check => exact absurd rfl hc
  | reader => exact absurd rfl hrd
  | jacob =>
    intro i hi
    simp only [body, List.mem_append, List.mem_flatMap] at hi
    obtain (hi | ⟨row, -, hi⟩) | hi := hi
    · revert i
      simp [Instr.smooth]
    · exact hrow row i hi
    · revert i
      simp [Instr.smooth]
  | _ => simp [body, addBoth, Instr.smooth]

/-- A step that can be retried goes through, and the run can be retried behind it. -/
theorem exec_body (hd : done ++ n :: rest = steps) (h : Left done w) (hr : Retriable w) :
    ∃ w' m', execAll (.success inv) (body m n) w m = some (w', m') ∧ Retriable w' := by
  by_cases hq : n ≠ .resolve ∧ n ≠ .check ∧ n ≠ .reader
  · have hsafe : Safe (fun w' => ∀ f ∈ watched, w' f = w f) (fun w' => ∀ f ∈ watched, w' f = w f)
        (body m n) w m :=
      .quiet (fun _ _ hw hE f hf => (hw f hf).trans (hE f hf)) (body_quiet hq) fun _ _ => rfl
    by_cases hdf : n = .diff
    · subst hdf
      exact ⟨update w .diffReceipt true, m, rfl, hr⟩
    · obtain ⟨w', m', hex⟩ : ∃ w' m', execAll (.success inv) (body m n) w m = some (w', m') :=
        execAll_smooth (body_smooth ⟨hdf, hq.2⟩)
      exact ⟨w', m', hex, hr.congr (hsafe.execAll hex)⟩
  · obtain rfl | rfl | rfl : n = .resolve ∨ n = .check ∨ n = .reader := by
      by_contra hne
      exact hq (by simpa using hne)
    · exact ⟨update w .logResolved true, m, rfl, fun _ => rfl, hr.2⟩
    · -- the log is there: `check` starts with it, and resolves it again
      have hl : w .logResolved = true := by
        obtain ⟨rfl, -⟩ := split_idxOf hd
        exact (h.resolved (by decide)).elim id hr.1
      refine ⟨update (update (update w .logResolvedBefore true) .logResolved false) .logResolved true, m,
        ?_, fun _ => rfl, hr.2⟩
      simp only [body, execAll, Instr.run, hl, if_true]
      rfl
    · cases he : w .plistEntry with
      | true =>
        refine ⟨w, m, ?_, hr⟩
        have hs := hr.2 he
        simp [body, execAll, Instr.run, Command.run, Command.effects, Reply.success, Reply.threw, he, hs]
      | false =>
        refine ⟨update (update w .plistEntry true) .readerServes true, m, ?_, hr.1, fun _ => rfl⟩
        simp [body, execAll, Instr.run, Command.run, Command.effects, Reply.success, Reply.threw, he]

/-! ## Retrying -/

/-- The process goes through the rest of its step. -/
theorem run_todo (h : execAll r is w m = some (w', m')) :
    ∃ disk', run step ⟨w, disk, some ⟨m, stop, n, is, rest⟩, none⟩ (List.replicate is.length (.next r)) =
      some ⟨w', disk', some ⟨m', stop, n, [], rest⟩, none⟩ := by
  induction is generalizing w m disk with
  | nil =>
    obtain ⟨rfl, rfl⟩ := Prod.mk.inj (Option.some.inj h)
    exact ⟨disk, rfl⟩
  | cons i is ih =>
    obtain ⟨ht, h⟩ := Option.ite_none_right_eq_some.mp h
    obtain ⟨disk', hrun⟩ : ∃ disk', run step ⟨(i.run r w m).world, if (i.run r w m).save then
        (i.run r w m).mem else disk, some ⟨(i.run r w m).mem, stop, n, is, rest⟩, none⟩
          (List.replicate is.length (.next r)) = some ⟨w', disk', some ⟨m', stop, n, [], rest⟩, none⟩ := ih h
    refine ⟨disk', ?_⟩
    rw [List.length_cons, List.replicate_succ, run_cons, ← hrun]
    have hnext : step ⟨w, disk, some ⟨m, stop, n, i :: is, rest⟩, none⟩ (.next r) =
        some ⟨(i.run r w m).world, if (i.run r w m).save then (i.run r w m).mem else disk,
          some ⟨(i.run r w m).mem, stop, n, is, rest⟩, none⟩ := by
      simp only [step, Option.map_some, Proc.next, Option.isNone_iff_eq_none.mp ht]
    rw [hnext]
    rfl

/-- With every command succeeding, the process goes on until `run!` ends. -/
def Comes (s : State) (inv : Inv) : Prop :=
  ∃ k s', run step s (List.replicate k (.next (.success inv))) = some s' ∧ Ended s'

theorem comes (hd : mem.done ++ rest = steps) (hl : Left mem.done w) (hr : Retriable w) :
    Comes (begin w mem mem none rest) inv := by
  induction rest generalizing w mem with
  | nil => exact ⟨0, _, rfl, rfl, rfl, .inl (by rw [← hd, List.append_nil]; rfl)⟩
  | cons n rest ih =>
    obtain ⟨w', m', hex, hr'⟩ : ∃ w' m', execAll (.success inv) (body mem n) w mem = some (w', m') ∧
        Retriable w' := exec_body hd hl hr
    have hdone : m'.done = mem.done := execAll_done hex
    have hleft : Left (mem.done ++ [n]) w' := (hl.safe hd).execAll hex
    have hrest : (m'.done ++ [n]) ++ rest = steps := by
      rw [hdone, List.append_assoc, ← hd]
      rfl
    obtain ⟨disk', hrun⟩ : ∃ disk', run step ⟨w, mem, some ⟨mem, none, n, body mem n, rest⟩, none⟩
        (List.replicate (body mem n).length (.next (.success inv))) =
          some ⟨w', disk', some ⟨m', none, n, [], rest⟩, none⟩ := run_todo hex
    -- the step is recorded
    have hfinish : run step (begin w mem mem none (n :: rest))
        (List.replicate ((body mem n).length + 1) (.next (.success inv))) =
        some (Proc.finish ⟨m', none, n, [], rest⟩ w') := by
      rw [List.replicate_add, run_append]
      show (run step ⟨w, mem, some ⟨mem, none, n, body mem n, rest⟩, none⟩ _).bind _ = _
      rw [hrun]
      rfl
    unfold Proc.finish at hfinish
    dsimp only at hfinish
    split at hfinish
    · rename_i he
      refine ⟨_, _, hfinish, rfl, rfl, .inr ⟨?_, he.2⟩⟩
      exact List.mem_append_right _ (he.1 ▸ .head [])
    · rw [if_neg (by simp), enter_rest hrest] at hfinish
      have hleft' : Left { m' with done := m'.done ++ [n] }.done w' := by rwa [hdone]
      obtain ⟨k, s', hk, hend⟩ := ih hrest hleft' hr'
      refine ⟨(body mem n).length + 1 + k, s', ?_, hend⟩
      rw [List.replicate_add, run_append, hfinish]
      exact hk

/-- With the same replies, a run ends in one way. -/
theorem ending_unique {k j : Nat} (h₁ : run step s (List.replicate k (.next r)) = some s₁) (hp₁ : s₁.proc = none)
    (h₂ : run step s (List.replicate j (.next r)) = some s₂) (hp₂ : s₂.proc = none) : s₁ = s₂ := by
  -- a process that has ended takes no step
  have hstop : ∀ {s s' : State} {k : Nat}, s.proc = none →
      run step s (List.replicate k (.next r)) = some s' → s = s' := by
    intro s s' k hp h
    cases k with
    | zero => exact Option.some.inj h
    | succ k =>
      rw [List.replicate_succ, run_cons, step, hp] at h
      cases h
  induction k generalizing s j with
  | zero =>
    obtain rfl := Option.some.inj h₁
    exact hstop hp₁ h₂
  | succ k ih =>
    cases j with
    | zero =>
      obtain rfl := Option.some.inj h₂
      exact (hstop hp₂ h₁).symm
    | succ j =>
      rw [List.replicate_succ, run_cons] at h₁ h₂
      obtain ⟨t₁, ht₁, h₁⟩ := Option.bind_eq_some_iff.mp h₁
      obtain ⟨t₂, ht₂, h₂⟩ := Option.bind_eq_some_iff.mp h₂
      obtain rfl := Option.some.inj (ht₁.symm.trans ht₂)
      exact ih h₁ h₂

/-- `check` throws where the log has been renamed and not resolved again. -/
theorem stuck_check (hl : w .logResolved = false) :
    step (begin w mem mem none (.check :: rest)) (.next r) = some (exited w mem 3) := by
  simp [step, EpochCycle.begin, Proc.next, body, Instr.run, hl]

/-- `reader` refuses where the entry is there and the reader has not been restarted. -/
theorem stuck_reader (he : w .plistEntry = true) (hs : w .readerServes = false) :
    run step (begin w mem mem none (.reader :: rest)) (List.replicate 3 (.next (.success inv))) =
      some (exited w mem 1) := by
  simp [run, step, EpochCycle.begin, Proc.next, body, Instr.run, Command.run, Command.effects,
    Reply.success, Reply.threw, he, hs]

/-- **Retried or stuck**: with every command succeeding, `run!` comes to its end if and only
if what was left can be retried. -/
theorem comes_iff (hd : mem.done ++ rest = steps) (hl : Left mem.done w) :
    Comes (begin w mem mem none rest) inv ↔ Retriable w := by
  refine ⟨fun hc => ?_, comes hd hl⟩
  obtain ⟨k, s', hrun, hproc, hexit, -⟩ := hc
  -- what is not the end of the run is not its end
  have hother : ∀ {j code : Nat}, code ≠ 0 →
      run step (begin w mem mem none rest) (List.replicate j (.next (.success inv))) ≠
        some (exited w mem code) := by
    intro j code hne hj
    obtain rfl := ending_unique hrun hproc hj rfl
    exact hne (Option.some.inj hexit)
  constructor
  · intro hb
    by_contra hlog
    have hbundle : .bundle ∈ mem.done := hl.before hb
    have hcheck : .check ∉ mem.done := fun hc => hlog (hl.checked hc)
    cases rest with
    | nil =>
      rw [List.append_nil] at hd
      rw [hd] at hcheck
      exact hcheck (by decide)
    | cons n rest =>
      obtain ⟨hdone, -⟩ := split_idxOf hd
      have hn : ∀ n, .bundle ∈ steps.take (steps.idxOf n) → .check ∉ steps.take (steps.idxOf n) →
          n = .check := by
        intro n
        cases n <;> decide
      obtain rfl := hn n (hdone ▸ hbundle) (hdone ▸ hcheck)
      refine @hother 1 3 (by decide) ?_
      rw [List.replicate_one, run_cons, stuck_check (by simpa using hlog)]
      rfl
  · intro he
    by_contra hs
    have hcheck : .check ∈ mem.done := hl.entered he
    have hreader : .reader ∉ mem.done := fun hr => hs (hl.served hr he)
    cases rest with
    | nil =>
      rw [List.append_nil] at hd
      rw [hd] at hreader
      exact hreader (by decide)
    | cons n rest =>
      obtain ⟨hdone, -⟩ := split_idxOf hd
      have hn : ∀ n, .check ∈ steps.take (steps.idxOf n) → .reader ∉ steps.take (steps.idxOf n) →
          n = .reader := by
        intro n
        cases n <;> decide
      obtain rfl := hn n (hdone ▸ hcheck) (hdone ▸ hreader)
      exact @hother 3 1 (by decide) (stuck_reader he (by simpa using hs))

theorem LeftInv.retries (h : LeftInv s) (hp : s.proc = none) : Finishes s inv ↔ Retriable s.world := by
  obtain ⟨rest, hrest⟩ := h.order.disk
  have hinvoke : EpochCycle.step s (.invoke none) = some (EpochCycle.begin s.world s.disk s.disk none rest) := by
    rw [EpochCycle.step, hp, ← enter_steps hrest]
    rfl
  have hcomes : Comes (EpochCycle.begin s.world s.disk s.disk none rest) inv ↔ Retriable s.world :=
    comes_iff hrest h.left
  rw [← hcomes]
  unfold Finishes Comes
  simp only [run_cons, hinvoke, Option.bind_some]

theorem LeftInv.of_run {imported : Nat → Bool} {ls : List Label}
    (h : run EpochCycle.step (State.start imported) ls = some s) : LeftInv s :=
  (Always.of_step (fun _ _ _ hi hs => hi.step hs) LeftInv.start).final h

/-- **Every step of the cycle can be retried, except where `check` or `reader` has left
something behind**: take any run of calls, failures and kills on one work directory, and
call `run!` again when no process runs. With every command succeeding it comes to its end if
and only if `log-resolved-before.jsonl` is not there without `log-resolved.jsonl`, and the
reader's plist does not name the epoch without the reader serving it. -/
theorem finishes_iff (imported : Nat → Bool) (ls : List Label) (s : State)
    (h : run step (State.start imported) ls = some s) (hp : s.proc = none) (inv : Inv) :
    Finishes s inv ↔ Retriable s.world :=
  (LeftInv.of_run h).retries hp

/-! ## A resolve that fails in `check` -/

/-- Every command succeeds; the delta has one row. -/
def oneRow : Reply := .success ⟨1, []⟩

/-- A command fails without any effect. -/
def failed : Reply := ⟨false, 0, 3, ⟨1, []⟩⟩

/-- The cycle up to `check`, whose resolve fails. -/
def resolveFails : List Label :=
  .invoke none :: List.replicate 54 (.next oneRow) ++ [.next failed]

/-- The first command fails. -/
def verifyFails : List Label := [.invoke none, .next failed]

theorem finishes_iff_verifyFails : ∃ s : State, run step (State.start fun _ => false) verifyFails = some s ∧
    (Finishes s ⟨1, []⟩ ↔ Retriable s.world) :=
  ⟨_, rfl, finishes_iff (fun _ => false) verifyFails _ rfl rfl ⟨1, []⟩⟩

/-- **`check` cannot be retried** when its resolve has failed. -/
theorem not_finishes : ¬ ∀ (imported : Nat → Bool) (ls : List Label) (s : State) (inv : Inv),
    run step (State.start imported) ls = some s → s.exit = some 3 → Finishes s inv := by
  intro h
  have hrun : (run step (State.start fun _ => false) resolveFails).map
      (fun s => (s.proc.isNone, s.exit, s.world .logResolved, s.world .logResolvedBefore)) =
      some (true, some 3, false, true) := by decide +kernel
  obtain ⟨s, hs, hfacts⟩ := Option.map_eq_some_iff.mp hrun
  simp only [Prod.mk.injEq] at hfacts
  obtain ⟨hproc, hexit, hlog, hbefore⟩ := hfacts
  have hretry := ((LeftInv.of_run hs).retries (Option.isNone_iff_eq_none.mp hproc)).mp
    (h _ _ s ⟨1, []⟩ hs hexit)
  rw [hretry.1 hbefore] at hlog
  cases hlog

end EpochCycle
