import Yataverse.EventLoop.Task
import Mathlib.Logic.Relation

/-!
# Event loops: any number of tasks over one memory and one outside world

A `Loop` is a family of requests, each running a `Task`, beside an outside world
`E` that answers their commands and moves by itself. Every source of
nondeterminism is in the labels: which request arrives, whose turn it is, whose
command is answered and how (`X`), what the world does meanwhile.

- `Loop.step`: one labelled step; `Loop.run`: a list of labels.
- `Loop.Reaches C`: the runs whose every step meets the condition `C`.
- `Task.alone`: a task from its start to its end with nothing else running; this is
  what "one request at a time" means, and `Loop.run_alone` shows that it is a run of
  the loop.
-/

namespace EventLoop

open Function

variable {ι S E C X : Type} {R : C → Type} {ε α : Type}

/-- Where a request stands. -/
inductive Phase (S C : Type) (R : C → Type) (ε α : Type) where
  | unborn
  | ready (t : Task S C R ε α)
  | waiting (c : C) (k : R c → Task S C R ε α)
  | done (r : Except ε α)
  | killed

namespace Phase

/-- The phase in which a turn leaves its request. -/
def ofStop : Task.Stop S C R ε α → Phase S C R ε α
  | .waiting c k => .waiting c k
  | .settled r => .done r

@[simp] theorem ofStop_waiting (c : C) (k : R c → Task S C R ε α) :
    ofStop (.waiting c k) = .waiting c k := rfl
@[simp] theorem ofStop_settled (r : Except ε α) :
    (ofStop (.settled r) : Phase S C R ε α) = .done r := rfl

/-- The request has been answered. -/
def isDone : Phase S C R ε α → Bool
  | done _ => true
  | _ => false

/-- The request has arrived and has been neither answered nor killed. -/
def inFlight : Phase S C R ε α → Bool
  | ready _ => true
  | waiting _ _ => true
  | _ => false

end Phase

/-- A family of requests and the world they run in. `exec` says how the world may
answer request `i`'s command, told which requests are done; `tick` is what the
world does by itself. -/
structure Loop (ι S E C X : Type) (R : C → Type) (ε α : Type) where
  spawn : ι → Task S C R ε α
  exec : ι → (ι → Bool) → E → (c : C) → X → Option (R c × E)
  tick : E → X → Option E

/-- What an observer sees of the requests. -/
inductive Event (ι ε α : Type) where
  | began (i : ι)
  | ended (i : ι) (r : Except ε α)

/-- A configuration: memory, outside world and phase of each request. For the record,
the world as it was when a request arrived, and what was seen so far. -/
structure Cfg (ι S E C : Type) (R : C → Type) (ε α : Type) where
  mem : S
  env : E
  phase : ι → Phase S C R ε α
  arrived : ι → Option (S × E)
  hist : List (Event ι ε α)

/-- What can happen next: request `i` arrives and takes its first turn, takes a later
turn, has its command answered, or is killed; or the world moves. -/
inductive Label (ι X : Type) where
  | arrive (i : ι)
  | turn (i : ι)
  | serve (i : ι) (x : X)
  | tick (x : X)
  | kill (i : ι)
deriving DecidableEq

namespace Cfg

/-- No request in flight: nothing waits to run or to be answered. -/
def Quiescent (c : Cfg ι S E C R ε α) : Prop := ∀ i, (c.phase i).inFlight = false

/-- The configuration before any request has arrived. -/
def start (s : S) (e : E) : Cfg ι S E C R ε α := ⟨s, e, fun _ => .unborn, fun _ => none, []⟩

/-- The world as a task sees it. -/
def world (c : Cfg ι S E C R ε α) : S × E := (c.mem, c.env)

@[simp] theorem world_fst (c : Cfg ι S E C R ε α) : c.world.1 = c.mem := rfl
@[simp] theorem world_snd (c : Cfg ι S E C R ε α) : c.world.2 = c.env := rfl

end Cfg

namespace Loop

variable [DecidableEq ι] (M : Loop ι S E C X R ε α)

/-- Which requests are done. -/
def finished (c : Cfg ι S E C R ε α) : ι → Bool := fun j => (c.phase j).isDone

/-- What is seen of the end of a turn. -/
def endOf (i : ι) : Task.Stop S C R ε α → List (Event ι ε α)
  | .waiting _ _ => []
  | .settled r => [.ended i r]

/-- The configuration after request `i` has run `t` for one turn. -/
def afterTurn (c : Cfg ι S E C R ε α) (i : ι) (t : Task S C R ε α) : Cfg ι S E C R ε α :=
  { c with
    mem := (t.turn c.mem).1
    phase := update c.phase i (.ofStop (t.turn c.mem).2)
    hist := c.hist ++ endOf i (t.turn c.mem).2 }

/-- The configuration when request `i` has just arrived. -/
def arrival (c : Cfg ι S E C R ε α) (i : ι) : Cfg ι S E C R ε α :=
  { c with arrived := update c.arrived i (some c.world), hist := c.hist ++ [.began i] }

/-- One step. -/
def step (c : Cfg ι S E C R ε α) : Label ι X → Option (Cfg ι S E C R ε α)
  | .arrive i =>
    match c.phase i with
    | .unborn => some (afterTurn (arrival c i) i (M.spawn i))
    | _ => none
  | .turn i =>
    match c.phase i with
    | .ready t => some (afterTurn c i t)
    | _ => none
  | .serve i x =>
    match c.phase i with
    | .waiting cmd k =>
      (M.exec i (finished c) c.env cmd x).map fun (r, e') =>
        { c with env := e', phase := update c.phase i (.ready (k r)) }
    | _ => none
  | .tick x => (M.tick c.env x).map fun e' => { c with env := e' }
  | .kill i =>
    if (c.phase i).inFlight then some { c with phase := update c.phase i .killed } else none

/-- Run a list of labels. -/
def run (c : Cfg ι S E C R ε α) : List (Label ι X) → Option (Cfg ι S E C R ε α)
  | [] => some c
  | l :: ls => (M.step c l).bind fun c' => run c' ls

variable {M} {c c' c'' : Cfg ι S E C R ε α} {l : Label ι X} {ls ls' : List (Label ι X)}

@[simp] theorem run_nil : M.run c [] = some c := rfl

theorem run_cons : M.run c (l :: ls) = (M.step c l).bind fun c' => M.run c' ls := rfl

theorem run_append : M.run c (ls ++ ls') = (M.run c ls).bind fun c' => M.run c' ls' := by
  induction ls generalizing c with
  | nil => rfl
  | cons l ls ih =>
    rw [List.cons_append, run_cons, run_cons, Option.bind_assoc]
    congr
    funext c'
    exact ih

/-! ## One inversion lemma for each kind of step -/

/-- What an arrival does. -/
theorem step_arrive {i : ι} (h : M.step c (.arrive i) = some c') :
    c.phase i = .unborn ∧ c' = afterTurn (arrival c i) i (M.spawn i) := by
  simp only [step] at h
  split at h
  · exact ⟨by assumption, (Option.some.inj h).symm⟩
  · cases h

/-- What a turn does. -/
theorem step_turn {i : ι} (h : M.step c (.turn i) = some c') :
    ∃ t, c.phase i = .ready t ∧ c' = afterTurn c i t := by
  simp only [step] at h
  split at h
  · exact ⟨_, by assumption, (Option.some.inj h).symm⟩
  · cases h

/-- What an answer does. -/
theorem step_serve {i : ι} {x : X} (h : M.step c (.serve i x) = some c') :
    ∃ cmd k r e', c.phase i = .waiting cmd k ∧
      M.exec i (finished c) c.env cmd x = some (r, e') ∧
      c' = { c with env := e', phase := update c.phase i (.ready (k r)) } := by
  simp only [step] at h
  split at h
  · rename_i cmd k hph
    obtain ⟨⟨r, e'⟩, hex, rfl⟩ := Option.map_eq_some_iff.mp h
    exact ⟨cmd, k, r, e', hph, hex, rfl⟩
  · cases h

/-- What the world does by itself. -/
theorem step_tick {x : X} (h : M.step c (.tick x) = some c') :
    ∃ e', M.tick c.env x = some e' ∧ c' = { c with env := e' } := by
  obtain ⟨e', he, rfl⟩ := Option.map_eq_some_iff.mp h
  exact ⟨e', he, rfl⟩

/-- What a kill does. -/
theorem step_kill {i : ι} (h : M.step c (.kill i) = some c') :
    (c.phase i).inFlight = true ∧ c' = { c with phase := update c.phase i .killed } := by
  simp only [step] at h
  split at h
  · exact ⟨by assumption, (Option.some.inj h).symm⟩
  · cases h

/-! ## Runs whose steps meet a condition -/

/-- `c` reaches `c'` by steps that each meet the condition `P`. -/
inductive Reaches (M : Loop ι S E C X R ε α) (P : Cfg ι S E C R ε α → Label ι X → Prop)
    (c : Cfg ι S E C R ε α) : Cfg ι S E C R ε α → Prop where
  | refl : Reaches M P c c
  | tail {c' c'' : Cfg ι S E C R ε α} {l : Label ι X} :
      Reaches M P c c' → P c' l → M.step c' l = some c'' → Reaches M P c c''

variable {P Q : Cfg ι S E C R ε α → Label ι X → Prop}

namespace Reaches

theorem trans (h : Reaches M P c c') (h' : Reaches M P c' c'') : Reaches M P c c'' := by
  induction h' with
  | refl => exact h
  | tail _ hp hs ih => exact ih.tail hp hs

theorem mono (hPQ : ∀ c l, P c l → Q c l) (h : Reaches M P c c') : Reaches M Q c c' := by
  induction h with
  | refl => exact .refl
  | tail _ hp hs ih => exact ih.tail (hPQ _ _ hp) hs

/-- What holds at the start and is kept by every step holds in every reached
configuration. -/
theorem invariant {I : Cfg ι S E C R ε α → Prop}
    (hstep : ∀ c c' l, I c → P c l → M.step c l = some c' → I c')
    (h : Reaches M P c c') (h0 : I c) : I c' := by
  induction h with
  | refl => exact h0
  | tail _ hp hs ih => exact hstep _ _ _ ih hp hs

end Reaches

/-- Executing labels is reaching. -/
theorem reaches_of_run : ∀ {ls : List (Label ι X)} {c c' : Cfg ι S E C R ε α},
    M.run c ls = some c' → Reaches M (fun _ _ => True) c c'
  | [], c, c', h => by
    obtain rfl : c = c' := by simpa using h
    exact .refl
  | l :: ls, c, c', h => by
    obtain ⟨c₁, h₁, h₂⟩ := Option.bind_eq_some_iff.mp h
    exact (Reaches.refl.tail trivial h₁).trans (reaches_of_run h₂)

variable (M) in
/-- The labels can be taken one after another, each where `p` holds. -/
def steps (p : Cfg ι S E C R ε α → Label ι X → Bool) (c : Cfg ι S E C R ε α) :
    List (Label ι X) → Bool
  | [] => true
  | l :: ls => p c l && match M.step c l with
    | some c' => steps p c' ls
    | none => false

/-- Executing labels, each where `p` holds, is reaching by such steps. -/
theorem reaches_of_steps {p : Cfg ι S E C R ε α → Label ι X → Bool} :
    ∀ {ls : List (Label ι X)} {c : Cfg ι S E C R ε α}, M.steps p c ls = true →
      ∃ c', M.run c ls = some c' ∧ Reaches M (fun c l => p c l = true) c c'
  | [], c, _ => ⟨c, rfl, .refl⟩
  | l :: ls, c, h => by
    rw [steps, Bool.and_eq_true] at h
    obtain ⟨hp, h⟩ := h
    split at h
    · rename_i c₁ h₁
      obtain ⟨c', hrun, hr⟩ := reaches_of_steps h
      exact ⟨c', by rw [run_cons, h₁, Option.bind_some, hrun],
        (Reaches.refl.tail hp h₁).trans hr⟩
    · cases h

end Loop

/-! ## One request at a time -/

namespace Task

/-- Run a task to its end, alone in a world that answers by `exec`. -/
def alone (exec : E → (c : C) → R c × E) : Task S C R ε α → S → E → Except ε α × S × E
  | ret a, s, e => (.ok a, s, e)
  | throw err, s, e => (.error err, s, e)
  | get k, s, e => alone exec (k s) s e
  | upd f k, s, e => alone exec k (f s) e
  | await c k, s, e => alone exec (k (exec e c).1) s (exec e c).2

section Alone

variable {ε' β : Type} {exec : E → (c : C) → R c × E}

theorem alone_bind_ok {t : Task S C R ε β} {f : β → Task S C R ε α} {b : β} {s s' : S} {e e' : E}
    (h : t.alone exec s e = (.ok b, s', e')) : (t.bind f).alone exec s e = (f b).alone exec s' e' := by
  induction t generalizing s e with
  | ret a =>
    obtain ⟨h₁, rfl, rfl⟩ := by simpa [alone] using h
    rw [bind_ret, h₁]
  | throw err => simp [alone] at h
  | get k ih => exact ih _ h
  | upd g k ih => exact ih h
  | await c k ih => exact ih _ h

theorem alone_bind_error {t : Task S C R ε β} {f : β → Task S C R ε α} {err : ε} {s s' : S}
    {e e' : E} (h : t.alone exec s e = (.error err, s', e')) :
    (t.bind f).alone exec s e = (.error err, s', e') := by
  induction t generalizing s e with
  | ret a => simp [alone] at h
  | throw err' => simpa [alone] using h
  | get k ih => exact ih _ h
  | upd g k ih => exact ih h
  | await c k ih => exact ih _ h

theorem alone_handle_ok {t : Task S C R ε' α} {h : ε' → Task S C R ε α} {a : α} {s s' : S} {e e' : E}
    (ht : t.alone exec s e = (.ok a, s', e')) : (t.handle h).alone exec s e = (.ok a, s', e') := by
  induction t generalizing s e with
  | ret a => simpa [alone] using ht
  | throw err => simp [alone] at ht
  | get k ih => exact ih _ ht
  | upd g k ih => exact ih ht
  | await c k ih => exact ih _ ht

theorem alone_handle_error {t : Task S C R ε' α} {h : ε' → Task S C R ε α} {err : ε'} {s s' : S}
    {e e' : E} (ht : t.alone exec s e = (.error err, s', e')) :
    (t.handle h).alone exec s e = (h err).alone exec s' e' := by
  induction t generalizing s e with
  | ret a => simp [alone] at ht
  | throw err' =>
    obtain ⟨h₁, rfl, rfl⟩ := by simpa [alone] using ht
    rw [handle_throw, h₁]
  | get k ih => exact ih _ ht
  | upd g k ih => exact ih ht
  | await c k ih => exact ih _ ht

/-- A chain that keeps `rel`, and whose commands keep the world, keeps both. -/
theorem Keeps.alone {cmd : C → Prop} {rel : S → S → Prop} (hrefl : ∀ s, rel s s)
    (htrans : ∀ s s' s'', rel s s' → rel s' s'' → rel s s'')
    (hexec : ∀ e c, cmd c → (exec e c).2 = e) {t : Task S C R ε α} (h : t.Keeps cmd rel) (s : S)
    (e : E) : rel s (t.alone exec s e).2.1 ∧ (t.alone exec s e).2.2 = e := by
  induction t generalizing s e with
  | ret a => exact ⟨hrefl s, rfl⟩
  | throw err => exact ⟨hrefl s, rfl⟩
  | get k ih => exact ih s (h s) s e
  | upd g k ih =>
    obtain ⟨h₁, h₂⟩ := ih h.2 (g s) e
    exact ⟨htrans _ _ _ (h.1 s) h₁, h₂⟩
  | await c k ih =>
    obtain ⟨h₁, h₂⟩ := ih (exec e c).1 (h.2 _) s (exec e c).2
    exact ⟨h₁, h₂.trans (hexec e c h.1)⟩

end Alone

end Task

namespace Loop

variable [DecidableEq ι] {M : Loop ι S E C X R ε α}

/-- A task run alone is a run of the loop, from the end of its first turn: its commands
are answered and its turns taken one after another. -/
theorem run_alone {i : ι} {x : X} {exec : E → (c : C) → R c × E}
    (hexec : ∀ fin e cmd, M.exec i fin e cmd x = some (exec e cmd)) :
    ∀ (t : Task S C R ε α) (c : Cfg ι S E C R ε α), ∃ ls c',
      M.run (afterTurn c i t) ls = some c' ∧ (c'.mem, c'.env) = (t.alone exec c.mem c.env).2 ∧
        c'.phase = update c.phase i (.done (t.alone exec c.mem c.env).1) ∧
        c'.hist = c.hist ++ [.ended i (t.alone exec c.mem c.env).1] ∧ c'.arrived = c.arrived := by
  intro t
  induction t with
  | ret a => exact fun c => ⟨[], _, rfl, rfl, rfl, rfl, rfl⟩
  | throw err => exact fun c => ⟨[], _, rfl, rfl, rfl, rfl, rfl⟩
  | get k ih => exact fun c => ih c.mem c
  | upd g k ih => exact fun c => ih { c with mem := g c.mem }
  | await cmd k ih =>
    intro c
    rcases hx : exec c.env cmd with ⟨r, e⟩
    -- the answer, then the turn that resumes the chain with it
    have hserve : M.step (afterTurn c i (.await cmd k)) (.serve i x) =
        some { c with env := e, phase := update c.phase i (.ready (k r)) } := by
      simp [step, afterTurn, endOf, hexec, hx]
    have hturn : M.step { c with env := e, phase := update c.phase i (.ready (k r)) } (.turn i) =
        some (afterTurn { c with env := e } i (k r)) := by
      simp [step, afterTurn]
    obtain ⟨ls, c', hrun, h₁, h₂, h₃, h₄⟩ := ih r { c with env := e }
    refine ⟨.serve i x :: .turn i :: ls, c', ?_, ?_⟩
    · rw [run_cons, hserve, Option.bind_some, run_cons, hturn, Option.bind_some, hrun]
    · simpa [Task.alone, hx] using ⟨h₁, h₂, h₃, h₄⟩

end Loop

end EventLoop
