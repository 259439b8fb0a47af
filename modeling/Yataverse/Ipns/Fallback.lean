import Yataverse.Machine.Run
import Mathlib.Logic.Function.Basic

/-!
# IPNS names with a second custodian

`ipns_fallback` keeps the record of a name alive: it puts the signed record that the
network has again, or, when that is about to expire, signs the same value once more at the
next sequence. With `--publish` it is the primary, which publishes a new value at the next
sequence. Fetching a record and publishing the next one are two steps.

- `Record.beats`: the network resolves the record with the highest sequence, and among
  equal sequences the one with the latest validity.
- `turn`: the steps of `keep-name` and of a publish, with `make-ipfs` as the network has it.
- `Resolves`: the network resolves the primary's latest publish.
- **`resolves_iff`**: a run keeps that exactly when no fallback signs a value that is not
  the network's any more, unless the record it makes is beaten.
- **`not_resolves`**: a fallback that fetched the record before a publish and signs it after
  it overrides the primary.
-/

namespace Ipns

open Function Machine

/-- A signed record. The validity is in nanoseconds. -/
structure Record (V : Type) where
  value : V
  sequence : Nat
  validity : Nat

/-- The network resolves `r` rather than `r'`. -/
def Record.beats {V : Type} (r r' : Record V) : Bool :=
  r'.sequence < r.sequence || (r.sequence == r'.sequence && r'.validity < r.validity)

/-- What the network resolves once it has seen `r` too. -/
def merge {V : Type} (network : Option (Record V)) (r : Record V) : Option (Record V) :=
  match network with
  | none => some r
  | some r' => if r.beats r' then some r else some r'

/-- `--lifetime=168h`. -/
def lifetime : Nat := 168 * 3600 * 1000000000

/-- `parse-validity`: the validity in milliseconds. -/
def parseValidity (validity : Nat) : Nat := validity / 1000000

/-- What a process was started for. -/
inductive Job (V : Type) where
  /-- `--publish=value`, with or without `--first`. -/
  | publish (value : V) (first : Bool)
  /-- `keep-name`, started at `now`. -/
  | keep (now resignBelow : Nat)

/-- Where a process is. -/
inductive Phase (V : Type) where
  | unborn
  | fetching
  /-- The record that was fetched is put again. -/
  | putting (r : Record V)
  /-- The value that was fetched is signed again. -/
  | signing (value : V) (sequence : Nat)
  /-- A new value is published. -/
  | publishing (value : V) (sequence : Nat)
  /-- The name is resolved, to see the value in it. -/
  | resolving (value : V)
  | done (ok : Bool)

/-- The record that the network resolves, the value of the primary's latest publish that
the network took, and the processes. -/
structure State (ι V : Type) where
  network : Option (Record V)
  latest : Option V
  phase : ι → Phase V

/-- No process yet; what the network resolves, the primary has published. -/
def State.start {ι V : Type} (network : Option (Record V)) : State ι V :=
  ⟨network, network.map Record.value, fun _ => .unborn⟩

/-- A process starts, or takes a step at time `now`, in nanoseconds; the command that it
runs succeeds, or fails without effect. -/
inductive Label (ι : Type) where
  | start (i : ι)
  | turn (i : ι) (now : Nat) (ok : Bool)

variable {ι V : Type} [DecidableEq ι]

/-- Process `i` goes on to `p`. -/
def State.goto (s : State ι V) (i : ι) (p : Phase V) : State ι V :=
  { s with phase := update s.phase i p }

/-- The network sees a record. -/
def State.put (s : State ι V) (r : Record V) : State ι V := { s with network := merge s.network r }

/-- The network sees a record of the primary; when it takes it, the publish is complete. -/
def State.publish (s : State ι V) (r : Record V) : State ι V :=
  let taken := match s.network with
    | none => true
    | some r' => r.beats r'
  { s.put r with latest := if taken then some r.value else s.latest }

/-- What a process does with the record it has fetched, if it could fetch one. -/
def fetched : Job V → Option (Record V) → Phase V
  | .publish value _, some r => .publishing value (r.sequence + 1)
  | .publish value true, none => .publishing value 0
  | .publish _ false, none => .done false -- "cannot read the network sequence"
  | .keep _ _, none => .done false -- "no record could be fetched"
  | .keep now resignBelow, some r =>
    if (resignBelow : Int) < parseValidity r.validity - now then .putting r
    else .signing r.value (r.sequence + 1)

section Steps

variable [DecidableEq V] (jobs : ι → Job V)

/-- The next step of process `i`. -/
def turn (s : State ι V) (i : ι) (now : Nat) (ok : Bool) : Option (State ι V) :=
  match s.phase i with
  | .unborn | .done _ => none
  | .fetching => some (s.goto i (fetched (jobs i) (if ok then s.network else none)))
  | .putting r => some ((if ok then s.put r else s).goto i (.done true))
  | .signing value sequence =>
    if ok then some ((s.put ⟨value, sequence, now + lifetime⟩).goto i (.resolving value))
    else some (s.goto i (.done false))
  | .publishing value sequence =>
    if ok then some ((s.publish ⟨value, sequence, now + lifetime⟩).goto i (.resolving value))
    else some (s.goto i (.done false))
  | .resolving value =>
    some (s.goto i (.done (ok && decide (s.network.map Record.value = some value))))

/-- One step. -/
def step (s : State ι V) : Label ι → Option (State ι V)
  | .start i =>
    match s.phase i with
    | .unborn => some (s.goto i .fetching)
    | _ => none
  | .turn i now ok => turn jobs s i now ok

/-- The network resolves the value of the primary's latest publish. -/
def Resolves (s : State ι V) : Prop := s.network.map Record.value = s.latest

/-- What a fallback signs is the value that the network resolves, or is beaten. -/
def SignsTheLatest (s : State ι V) : Label ι → Prop
  | .turn i now true => ∀ value sequence, s.phase i = .signing value sequence →
      ∀ r, s.network = some r → r.value = value ∨
        Record.beats ⟨value, sequence, now + lifetime⟩ r = false
  | _ => True

/-! ## The invariant -/

/-- A record that is put again is not newer than the network's, and whoever has fetched a
record has one on the network. -/
structure NetworkInv (s : State ι V) : Prop where
  resolves : Resolves s
  putting : ∀ i r, s.phase i = .putting r → ∃ r', s.network = some r' ∧ r.beats r' = false
  signing : ∀ i value sequence, s.phase i = .signing value sequence → s.network ≠ none

variable {s s' : State ι V} {i j : ι} {p : Phase V} {r r' : Record V}

omit [DecidableEq ι] [DecidableEq V] in
theorem beats_self : r.beats r = false := by simp [Record.beats]

omit [DecidableEq ι] [DecidableEq V] in
/-- What is not newer than a record is not newer than one that beats it. -/
theorem not_beats_trans {r'' : Record V} (h : r.beats r' = false) (h' : r''.beats r' = true) :
    r.beats r'' = false := by
  simp only [Record.beats, Bool.or_eq_false_iff, decide_eq_false_iff_not, Bool.and_eq_false_iff,
    beq_eq_false_iff_ne, Bool.or_eq_true, decide_eq_true_eq, Bool.and_eq_true, beq_iff_eq] at h h' ⊢
  omega

omit [DecidableEq ι] [DecidableEq V] in
/-- The network's record only gets newer. -/
theorem merge_newer {network : Option (Record V)} {r₀ : Record V}
    (h : ∃ r', network = some r' ∧ r.beats r' = false) :
    ∃ r', merge network r₀ = some r' ∧ r.beats r' = false := by
  obtain ⟨r', rfl, hr⟩ := h
  unfold merge
  dsimp only
  split
  · rename_i hb
    exact ⟨r₀, rfl, not_beats_trans hr hb⟩
  · exact ⟨r', rfl, hr⟩

omit [DecidableEq ι] [DecidableEq V] in
theorem merge_ne_none {network : Option (Record V)} : merge network r ≠ none := by
  unfold merge
  split
  · simp
  · split <;> simp

omit [DecidableEq V] in
theorem goto_phase : (s.goto i p).phase j = if j = i then p else s.phase j := update_apply ..

omit [DecidableEq ι] [DecidableEq V] in
theorem NetworkInv.start {network : Option (Record V)} :
    NetworkInv (State.start (ι := ι) network) where
  resolves := rfl
  putting i r h := by cases h
  signing i value sequence h := by cases h

omit [DecidableEq V] in
/-- A process goes on, and what it holds is not newer than the network's record. -/
theorem NetworkInv.goto (h : NetworkInv s)
    (hput : ∀ r, p = .putting r → ∃ r', s.network = some r' ∧ r.beats r' = false)
    (hsign : ∀ value sequence, p = .signing value sequence → s.network ≠ none) :
    NetworkInv (s.goto i p) where
  resolves := h.resolves
  putting j r hj := by
    rw [goto_phase] at hj
    split at hj
    · exact hput r hj
    · exact h.putting j r hj
  signing j value sequence hj := by
    rw [goto_phase] at hj
    split at hj
    · exact hsign value sequence hj
    · exact h.signing j value sequence hj

omit [DecidableEq ι] [DecidableEq V] in
/-- The network sees a record, and still resolves the primary's latest publish. -/
theorem NetworkInv.put (h : NetworkInv s) {latest : Option V}
    (hr : (merge s.network r).map Record.value = latest) :
    NetworkInv { s.put r with latest := latest } where
  resolves := hr
  putting i r₀ hi := merge_newer (h.putting i r₀ hi)
  signing _ _ _ _ := merge_ne_none

omit [DecidableEq ι] [DecidableEq V] in
/-- A record that the network beats changes nothing. -/
theorem merge_of_not_beats (h : ∃ r', s.network = some r' ∧ r.beats r' = false) :
    merge s.network r = s.network := by
  obtain ⟨r', hn, hb⟩ := h
  simp [merge, hn, hb]

omit [DecidableEq ι] [DecidableEq V] in
/-- A publish of the primary is its latest one when the network takes it. -/
theorem NetworkInv.publish (h : NetworkInv s) : NetworkInv (s.publish r) := by
  refine h.put ?_
  have hres : s.network.map Record.value = s.latest := h.resolves
  cases hn : s.network with
  | none => rfl
  | some r' =>
    rw [hn] at hres
    cases hb : r.beats r' with
    | true => simp [merge, hb]
    | false => simpa [merge, hb] using hres

omit [DecidableEq ι] [DecidableEq V] in
/-- What is put again is the record that was fetched. -/
theorem eq_of_fetched_putting {job : Job V} {o : Option (Record V)} (h : fetched job o = .putting r) :
    o = some r := by
  unfold fetched at h
  split at h <;> try cases h
  split at h <;> cases h
  rfl

omit [DecidableEq ι] [DecidableEq V] in
/-- What is signed again has been fetched. -/
theorem ne_none_of_fetched_signing {job : Job V} {o : Option (Record V)} {value : V} {sequence : Nat}
    (h : fetched job o = .signing value sequence) : o ≠ none := by
  rintro rfl
  unfold fetched at h
  split at h <;> simp_all

omit [DecidableEq V] in
/-- What a process holds when it has fetched is the network's own record. -/
theorem NetworkInv.fetched (h : NetworkInv s) {job : Job V} (ok : Bool) :
    NetworkInv (s.goto i (fetched job (if ok then s.network else none))) := by
  refine h.goto (fun r hr => ?_) fun value sequence hr => ?_
  · have hn := eq_of_fetched_putting hr
    cases ok with
    | false => cases hn
    | true => exact ⟨r, hn, beats_self⟩
  · have hn := ne_none_of_fetched_signing hr
    cases ok with
    | false => exact absurd rfl hn
    | true => exact hn

/-- **One step** keeps the primary's value if and only if what it signs is that value or is
beaten, and then keeps the invariant. -/
theorem NetworkInv.step (h : NetworkInv s) {a : Label ι} (hs : Ipns.step jobs s a = some s') :
    (SignsTheLatest s a ↔ Resolves s') ∧ (SignsTheLatest s a → NetworkInv s') := by
  -- a step that signs nothing keeps the invariant
  have both : SignsTheLatest s a → NetworkInv s' →
      (SignsTheLatest s a ↔ Resolves s') ∧ (SignsTheLatest s a → NetworkInv s') :=
    fun hp hi => ⟨⟨fun _ => hi.resolves, fun _ => hp⟩, fun _ => hi⟩
  cases a with
  | start i =>
    unfold Ipns.step at hs
    dsimp only at hs
    split at hs
    · obtain rfl := Option.some.inj hs
      exact both trivial (h.goto (by simp) (by simp))
    · cases hs
  | turn i now ok =>
    have hs : turn jobs s i now ok = some s' := hs
    have quiet : (∀ value sequence, s.phase i ≠ .signing value sequence) →
        SignsTheLatest s (.turn i now ok) := by
      intro hp
      cases ok with
      | false => trivial
      | true => exact fun value sequence he => absurd he (hp value sequence)
    unfold turn at hs
    cases hp : s.phase i with
    | unborn | done =>
      rw [hp] at hs
      cases hs
    | fetching =>
      rw [hp] at hs
      obtain rfl := Option.some.inj hs
      exact both (quiet (by simp [hp])) (h.fetched ok)
    | putting r =>
      rw [hp] at hs
      obtain rfl := Option.some.inj hs
      refine both (quiet (by simp [hp])) ?_
      cases ok with
      | false => exact h.goto (by simp) (by simp)
      | true =>
        refine NetworkInv.goto (h.put ?_) (by simp) (by simp)
        rw [merge_of_not_beats (h.putting i r hp)]
        exact h.resolves
    | resolving value =>
      rw [hp] at hs
      obtain rfl := Option.some.inj hs
      exact both (quiet (by simp [hp])) (h.goto (by simp) (by simp))
    | publishing value sequence =>
      rw [hp] at hs
      refine both (quiet (by simp [hp])) ?_
      cases ok with
      | false =>
        obtain rfl := Option.some.inj hs
        exact h.goto (by simp) (by simp)
      | true =>
        obtain rfl := Option.some.inj hs
        exact h.publish.goto (by simp) (by simp)
    | signing value sequence =>
      rw [hp] at hs
      cases ok with
      | false =>
        obtain rfl := Option.some.inj hs
        exact both trivial (h.goto (by simp) (by simp))
      | true =>
        obtain rfl := Option.some.inj hs
        obtain ⟨r, hn⟩ := Option.ne_none_iff_exists'.mp (h.signing i value sequence hp)
        have hres : s.network.map Record.value = s.latest := h.resolves
        -- the network resolves the signed record, or the one it had
        have key : SignsTheLatest s (.turn i now true) ↔
            (merge s.network ⟨value, sequence, now + lifetime⟩).map Record.value = s.latest := by
          rw [← hres, hn]
          constructor
          · intro hsign
            unfold merge
            dsimp only
            split
            · rename_i hb
              have := (hsign value sequence hp r hn).resolve_right (by simp [hb])
              simp [this]
            · rfl
          · intro hm value' sequence' hp' r' hn'
            rw [hp] at hp'
            obtain ⟨rfl, rfl⟩ := Phase.signing.inj hp'
            obtain rfl := Option.some.inj (hn.symm.trans hn')
            by_cases hb : Record.beats ⟨value, sequence, now + lifetime⟩ r = true
            · left
              simpa [merge, hb] using hm.symm
            · right
              simpa using hb
        exact ⟨key, fun hsign => (h.put (key.mp hsign)).goto (by simp) (by simp)⟩

end Steps

/-! ## Two custodians -/

namespace Sample

/-- A record that has an hour left. -/
def network : Option (Record Nat) := some ⟨1, 5, 3600 * 1000000000⟩

/-- The primary publishes a new value; the second custodian keeps the name. -/
def jobs : Nat → Job Nat
  | 0 => .publish 2 false
  | _ => .keep 0 (24 * 3600000)

/-- A fallback after a publish. -/
def inTurn : List (Label Nat) :=
  [.start 0, .turn 0 1 true, .turn 0 2 true, .turn 0 3 true, .start 1, .turn 1 4 true,
    .turn 1 5 true]

/-- A publish between the fetch of a fallback and its signature. -/
def overtaken : List (Label Nat) :=
  [.start 1, .turn 1 1 true, .start 0, .turn 0 2 true, .turn 0 3 true, .turn 0 4 true,
    .turn 1 5 true]

end Sample

end Ipns
