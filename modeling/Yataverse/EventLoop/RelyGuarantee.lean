import Yataverse.EventLoop.Run

/-!
# Rely and guarantee for tasks

A request is reasoned about alone: the others may change the world between its
turns, but only within its *rely*, and it changes the world only within its
*guarantee*.

- `Discipline`: an invariant of the world with a rely and a guarantee for each
  request, such that a guarantee of one is a rely of every other.
- `Guard`: what is assumed of the turns and answers of a run.
- `Ok`: a task run from a world keeps its side and ends within `Q`. It is computed
  by recursion on the task; `Ok.bind`, `Ok.handle` and `Ok.mono` are its rules.
- `sound`: a run in which every request is `Ok` keeps the invariant, and every
  answer satisfies its `Q`. What is assumed of a request's turns and what it ends with
  may speak of the world in which it arrived.
-/

namespace EventLoop

open Function

variable {ι S E C X : Type} {R : C → Type} {ε ε' α β : Type}

/-- An invariant of the world, and what each request expects of the others (`Rely`)
and promises to them (`Guar`). -/
structure Discipline (ι S E : Type) where
  Inv : S × E → Prop
  Rely : ι → S × E → S × E → Prop
  Guar : ι → S × E → S × E → Prop
  rely_refl : ∀ i w, Rely i w w
  rely_trans : ∀ i w w' w'', Rely i w w' → Rely i w' w'' → Rely i w w''
  guar_rely : ∀ i j w w', i ≠ j → Guar i w w' → Rely j w w'

/-- What is assumed of a run: of a turn behind the first (the world in which the request
arrived, the task run, the world before the turn) and of an answer (the world, the command and the
world's choice). -/
structure Guard (ι S E C X : Type) (R : C → Type) (ε α : Type) where
  turn : ι → S × E → Task S C R ε α → S × E → Prop
  serve : ι → E → C → X → Prop

/-- The steps a guard lets happen. -/
def Guard.Allows (K : Guard ι S E C X R ε α) (c : Cfg ι S E C R ε α) : Label ι X → Prop
  | .turn i => ∀ w t, c.arrived i = some w → c.phase i = .ready t → K.turn i w t c.world
  | .serve i x => ∀ cmd k, c.phase i = .waiting cmd k → K.serve i c.env cmd x
  | _ => True

section Judgement

variable (exec : ι → (ι → Bool) → E → (c : C) → X → Option (R c × E))
  (serve : ι → E → C → X → Prop) (D : Discipline ι S E) (i : ι)

/-- Run by request `i` from the world `w`, the task keeps the invariant and the
guarantee, whatever the others do within the rely, and ends within `Q`. `pre` is
what may be assumed when a turn resumes the rest of the task. -/
def Ok (pre : Task S C R ε α → S × E → Prop) (Q : Except ε α → S × E → Prop) :
    Task S C R ε α → S × E → Prop
  | .ret a, w => Q (.ok a) w
  | .throw e, w => Q (.error e) w
  | .get k, w => Ok pre Q (k w.1) w
  | .upd f k, w =>
    D.Inv (f w.1, w.2) ∧ D.Guar i w (f w.1, w.2) ∧ Ok pre Q k (f w.1, w.2)
  | .await c k, w =>
    ∀ w₁, D.Rely i w w₁ → D.Inv w₁ → ∀ fin x r e', serve i w₁.2 c x →
      exec i fin w₁.2 c x = some (r, e') →
      D.Inv (w₁.1, e') ∧ D.Guar i w₁ (w₁.1, e') ∧
        ∀ w₂, D.Rely i (w₁.1, e') w₂ → D.Inv w₂ → pre (k r) w₂ → Ok pre Q (k r) w₂

variable {exec serve D i} {pre : Task S C R ε α → S × E → Prop}
  {Q Q' : Except ε α → S × E → Prop} {w : S × E}

@[simp] theorem ok_ret {a : α} : Ok exec serve D i pre Q (.ret a) w ↔ Q (.ok a) w := Iff.rfl

@[simp] theorem ok_throw {e : ε} : Ok exec serve D i pre Q (.throw e) w ↔ Q (.error e) w := Iff.rfl

@[simp] theorem ok_get {k : S → Task S C R ε α} :
    Ok exec serve D i pre Q (.get k) w ↔ Ok exec serve D i pre Q (k w.1) w := Iff.rfl

theorem ok_upd {f : S → S} {k : Task S C R ε α} :
    Ok exec serve D i pre Q (.upd f k) w ↔ D.Inv (f w.1, w.2) ∧ D.Guar i w (f w.1, w.2) ∧
      Ok exec serve D i pre Q k (f w.1, w.2) := Iff.rfl

/-- Consequence: a weaker postcondition. -/
theorem Ok.mono (hQ : ∀ r w, Q r w → Q' r w) {t : Task S C R ε α} :
    ∀ {w}, Ok exec serve D i pre Q t w → Ok exec serve D i pre Q' t w := by
  induction t with
  | ret a => exact hQ _ _
  | throw e => exact hQ _ _
  | get k ih => exact fun {w} h => ih w.1 h
  | upd f k ih => exact fun h => ⟨h.1, h.2.1, ih h.2.2⟩
  | await c k ih =>
    intro w h w₁ hr hi fin x r e' hs hx
    obtain ⟨h₁, h₂, h₃⟩ := h w₁ hr hi fin x r e' hs hx
    exact ⟨h₁, h₂, fun w₂ hr' hi' hp => ih r (h₃ w₂ hr' hi' hp)⟩

/-- `.then`: the rest runs from what the first part promises. -/
theorem Ok.bind {t : Task S C R ε β} {f : β → Task S C R ε α}
    {P : Except ε β → S × E → Prop} (hret : ∀ b w, P (.ok b) w → Ok exec serve D i pre Q (f b) w)
    (herr : ∀ e w, P (.error e) w → Q (.error e) w) :
    ∀ {w}, Ok exec serve D i (fun t w => pre (t.bind f) w) P t w →
      Ok exec serve D i pre Q (t.bind f) w := by
  induction t with
  | ret b => exact fun h => hret _ _ h
  | throw e => exact fun h => herr _ _ h
  | get k ih => exact fun {w} h => ih w.1 h
  | upd g k ih => exact fun h => ⟨h.1, h.2.1, ih h.2.2⟩
  | await c k ih =>
    intro w h w₁ hr hi fin x r e' hs hx
    obtain ⟨h₁, h₂, h₃⟩ := h w₁ hr hi fin x r e' hs hx
    exact ⟨h₁, h₂, fun w₂ hr' hi' hp => ih r (h₃ w₂ hr' hi' hp)⟩

/-- `.catch`: the handler runs from what the first part promises of its rejections. -/
theorem Ok.handle {t : Task S C R ε' α} {h : ε' → Task S C R ε α}
    {P : Except ε' α → S × E → Prop} (hret : ∀ a w, P (.ok a) w → Q (.ok a) w)
    (herr : ∀ e w, P (.error e) w → Ok exec serve D i pre Q (h e) w) :
    ∀ {w}, Ok exec serve D i (fun t w => pre (t.handle h) w) P t w →
      Ok exec serve D i pre Q (t.handle h) w := by
  induction t with
  | ret b => exact fun h => hret _ _ h
  | throw e => exact fun h => herr _ _ h
  | get k ih => exact fun {w} h => ih w.1 h
  | upd g k ih => exact fun h => ⟨h.1, h.2.1, ih h.2.2⟩
  | await c k ih =>
    intro w h w₁ hr hi fin x r e' hs hx
    obtain ⟨h₁, h₂, h₃⟩ := h w₁ hr hi fin x r e' hs hx
    exact ⟨h₁, h₂, fun w₂ hr' hi' hp => ih r (h₃ w₂ hr' hi' hp)⟩

/-- What a turn of an `Ok` task does: the invariant holds after it, every other
request's rely covers it, and the task is `Ok` at its await or has ended within `Q`. -/
theorem Ok.turn :
    ∀ {t : Task S C R ε α} {s : S} {e : E}, Ok exec serve D i pre Q t (s, e) → D.Inv (s, e) →
      D.Inv ((t.turn s).1, e) ∧ (∀ j, i ≠ j → D.Rely j (s, e) ((t.turn s).1, e)) ∧
        match (t.turn s).2 with
        | .waiting c k => Ok exec serve D i pre Q (.await c k) ((t.turn s).1, e)
        | .settled r => Q r ((t.turn s).1, e)
  | .ret a, s, e, h, hi => ⟨hi, fun j _ => D.rely_refl j _, h⟩
  | .throw err, s, e, h, hi => ⟨hi, fun j _ => D.rely_refl j _, h⟩
  | .get k, s, e, h, hi => Ok.turn (t := k s) h hi
  | .upd f k, s, e, h, _ => by
    obtain ⟨hi, hg, hk⟩ := h
    obtain ⟨h₁, h₂, h₃⟩ := Ok.turn (t := k) (s := f s) hk hi
    exact ⟨h₁, fun j hj => D.rely_trans j _ _ _ (D.guar_rely i j _ _ hj hg) (h₂ j hj), h₃⟩
  | .await c k, s, e, h, hi => ⟨hi, fun j _ => D.rely_refl j _, h⟩

end Judgement

/-! ## Soundness over runs -/

section Sound

variable [DecidableEq ι] {M : Loop ι S E C X R ε α} {D : Discipline ι S E}
  {K : Guard ι S E C X R ε α} {Q : ι → S × E → Except ε α → S × E → Prop}

/-- What a run keeps of request `i`, which arrived in the world `a`: wherever the others
take the world, the rest of its task is `Ok`, and its answer is within `Q`. -/
def PhaseOk (M : Loop ι S E C X R ε α) (D : Discipline ι S E) (K : Guard ι S E C X R ε α)
    (Q : S × E → Except ε α → S × E → Prop) (i : ι) (a : Option (S × E)) :
    Phase S C R ε α → S × E → Prop
  | .unborn, w =>
    ∀ w', D.Rely i w w' → D.Inv w' →
      Ok M.exec K.serve D i (K.turn i w') (Q w') (M.spawn i) w'
  | .ready t, w =>
    ∃ v, a = some v ∧ ∀ w', D.Rely i w w' → D.Inv w' → K.turn i v t w' →
      Ok M.exec K.serve D i (K.turn i v) (Q v) t w'
  | .waiting c k, w => ∃ v, a = some v ∧ Ok M.exec K.serve D i (K.turn i v) (Q v) (.await c k) w
  | .done r, w => ∃ v, a = some v ∧ ∀ w', D.Rely i w w' → Q v r w'
  | .killed, _ => True

omit [DecidableEq ι] in
/-- Moving the world within the rely of a request keeps what is known of it. -/
theorem PhaseOk.rely {i : ι} {a : Option (S × E)} {ph : Phase S C R ε α} {w w' : S × E}
    (h : PhaseOk M D K (Q i) i a ph w) (hr : D.Rely i w w') : PhaseOk M D K (Q i) i a ph w' := by
  cases ph with
  | unborn => exact fun w₁ h₁ => h w₁ (D.rely_trans i _ _ _ hr h₁)
  | ready t =>
    obtain ⟨v, hv, h⟩ := h
    exact ⟨v, hv, fun w₁ h₁ => h w₁ (D.rely_trans i _ _ _ hr h₁)⟩
  | waiting c k =>
    obtain ⟨v, hv, h⟩ := h
    exact ⟨v, hv, fun w₁ h₁ => h w₁ (D.rely_trans i _ _ _ hr h₁)⟩
  | done r =>
    obtain ⟨v, hv, h⟩ := h
    exact ⟨v, hv, fun w₁ h₁ => h w₁ (D.rely_trans i _ _ _ hr h₁)⟩
  | killed => trivial

/-- The invariant of a run: that of the world, and `PhaseOk` of every request. -/
def CfgOk (M : Loop ι S E C X R ε α) (D : Discipline ι S E) (K : Guard ι S E C X R ε α)
    (Q : ι → S × E → Except ε α → S × E → Prop) (c : Cfg ι S E C R ε α) : Prop :=
  D.Inv c.world ∧ ∀ i, PhaseOk M D K (Q i) i (c.arrived i) (c.phase i) c.world

/-- A turn of a request that is `Ok` keeps the invariant of the run. -/
theorem cfgOk_afterTurn (stable : ∀ i v r w w', Q i v r w → D.Rely i w w' → Q i v r w')
    {c : Cfg ι S E C R ε α} {i : ι} {t : Task S C R ε α} {v : S × E} (hinv : D.Inv c.world)
    (hph : ∀ j, j ≠ i → PhaseOk M D K (Q j) j (c.arrived j) (c.phase j) c.world)
    (hv : c.arrived i = some v) (hok : Ok M.exec K.serve D i (K.turn i v) (Q i v) t c.world) :
    CfgOk M D K Q (Loop.afterTurn c i t) := by
  obtain ⟨h₁, h₂, h₃⟩ := Ok.turn (s := c.mem) (e := c.env) hok hinv
  refine ⟨h₁, fun j => ?_⟩
  by_cases hj : j = i
  · subst hj
    simp only [Loop.afterTurn, update_self, Cfg.world]
    split at h₃ <;> rename_i hstop <;> rw [hstop]
    · exact ⟨v, hv, h₃⟩
    · exact ⟨v, hv, fun w' hr => stable j _ _ _ _ h₃ hr⟩
  · have := (hph j hj).rely (h₂ j (Ne.symm hj))
    simpa [Loop.afterTurn, hj, Cfg.world] using this

/-- Every step a guard allows keeps the invariant of the run. `tick` says that the
world's own moves keep `D.Inv` and are within every rely; `stable`, that answers stay
within `Q` while the others move. -/
theorem cfgOk_step
    (tick : ∀ s e e' x, D.Inv (s, e) → M.tick e x = some e' →
      D.Inv (s, e') ∧ ∀ i, D.Rely i (s, e) (s, e'))
    (stable : ∀ i v r w w', Q i v r w → D.Rely i w w' → Q i v r w')
    {c c' : Cfg ι S E C R ε α} {l : Label ι X} (h : CfgOk M D K Q c) (hK : K.Allows c l)
    (hs : M.step c l = some c') : CfgOk M D K Q c' := by
  obtain ⟨hinv, hph⟩ := h
  cases l with
  | arrive i =>
    obtain ⟨hun, rfl⟩ := Loop.step_arrive hs
    have hok := hph i
    rw [hun] at hok
    refine cfgOk_afterTurn stable (c := Loop.arrival c i) hinv (fun j hj => ?_)
      (update_self ..) (hok _ (D.rely_refl i _) hinv)
    simpa [Loop.arrival, hj, Cfg.world] using hph j
  | turn i =>
    obtain ⟨t, ht, rfl⟩ := Loop.step_turn hs
    have hok := hph i
    rw [ht] at hok
    obtain ⟨v, hv, hok⟩ := hok
    exact cfgOk_afterTurn stable hinv (fun j _ => hph j) hv
      (hok _ (D.rely_refl i _) hinv (hK v t hv ht))
  | serve i x =>
    obtain ⟨cmd, k, r, e', hwait, hex, rfl⟩ := Loop.step_serve hs
    have hok := hph i
    rw [hwait] at hok
    obtain ⟨v, hv, hok⟩ := hok
    obtain ⟨h₁, h₂, h₃⟩ :=
      hok _ (D.rely_refl i _) hinv _ x r e' (hK cmd k hwait) hex
    refine ⟨h₁, fun j => ?_⟩
    by_cases hj : j = i
    · subst hj
      simpa [PhaseOk, Cfg.world, hv] using h₃
    · have := (hph j).rely (D.guar_rely i j _ _ (Ne.symm hj) h₂)
      simpa [hj, Cfg.world] using this
  | tick x =>
    obtain ⟨e', he, rfl⟩ := Loop.step_tick hs
    obtain ⟨h₁, h₂⟩ := tick _ _ _ _ hinv he
    exact ⟨h₁, fun j => (hph j).rely (h₂ j)⟩
  | kill i =>
    obtain ⟨-, rfl⟩ := Loop.step_kill hs
    refine ⟨hinv, fun j => ?_⟩
    by_cases hj : j = i
    · subst hj
      simp [PhaseOk]
    · simpa [hj, Cfg.world] using hph j

/-- **Soundness**: a run whose steps the guard allows keeps the invariant, and every
request it has answered is within its postcondition. -/
theorem sound
    (tick : ∀ s e e' x, D.Inv (s, e) → M.tick e x = some e' →
      D.Inv (s, e') ∧ ∀ i, D.Rely i (s, e) (s, e'))
    (stable : ∀ i v r w w', Q i v r w → D.Rely i w w' → Q i v r w')
    {c c' : Cfg ι S E C R ε α} (h : CfgOk M D K Q c) (hr : M.Reaches K.Allows c c') :
    CfgOk M D K Q c' :=
  hr.invariant (fun _ _ _ hc hp hs => cfgOk_step tick stable hc hp hs) h

omit [DecidableEq ι] in
/-- At the start it is enough that every request is `Ok` from every world it may
arrive in. -/
theorem cfgOk_start {s : S} {e : E} (hinv : D.Inv (s, e))
    (hok : ∀ i w, D.Rely i (s, e) w → D.Inv w →
      Ok M.exec K.serve D i (K.turn i w) (Q i w) (M.spawn i) w) :
    CfgOk M D K Q (Cfg.start s e) :=
  ⟨hinv, fun i w hr hi => hok i w hr hi⟩

omit [DecidableEq ι] in
/-- A request that has been answered is within its postcondition. -/
theorem CfgOk.done {c : Cfg ι S E C R ε α} (h : CfgOk M D K Q c) {i : ι} {r : Except ε α}
    (hd : c.phase i = .done r) : ∃ v, c.arrived i = some v ∧ Q i v r c.world := by
  have hok := h.2 i
  rw [hd] at hok
  obtain ⟨v, hv, hq⟩ := hok
  exact ⟨v, hv, hq _ (D.rely_refl i _)⟩

end Sound

end EventLoop
