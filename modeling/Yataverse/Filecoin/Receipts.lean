import Yataverse.Filecoin.Archive

/-!
# The receipt of a row range

Any number of runs of `archive!`, for any CARs, share one receipt file.

- `ReceiptInv`: what a run knows of the receipt file once it is past its check, and what
  its temporary file holds when it is published.
- **`receipt_keeps_car`**: the receipt file only ever holds complete receipts, all of one
  CAR, and a run of another CAR uploads nothing.
- **`kept_iff`**: a receipt stays `stored`, and keeps its piece CID, exactly when no run
  replaces a receipt that says more than the run has seen.
- **`not_kept`**: a run that was told `queued` replaces the receipt of one that was told
  `stored`.
-/

namespace Filecoin

open Function Js Machine

variable {ι : Type}

/-! ## What is claimed -/

/-- The receipt file, if there is one, holds a complete receipt. -/
def Complete (s : State ι) : Prop := ∀ c, s.file = some c → ∃ r, c = .whole r

/-- The receipt stays a receipt of its CAR. -/
def SameCar (s s' : State ι) : Prop :=
  ∀ r, s.file = some (.whole r) → ∃ r', s'.file = some (.whole r') ∧ r'.carCid = r.carCid

/-- A run that uploads its CAR, or has done so. -/
def Phase.uploads : Phase → Bool
  | .uploading _ | .asking _ | .waiting _ | .done _ | .refused (.tierRejected _) => true
  | .creating _ (.replace _ _) | .writing _ (.replace _ _) | .publishing _ (.replace _ _) => true
  | _ => false

/-- The receipt file holds a receipt of the CAR of run `i`. -/
def Holds (jobs : ι → Job) (file : Option Content) (i : ι) : Prop :=
  ∃ r, file = some (.whole r) ∧ r.carCid = carCid (jobs i).sha256

/-- Only runs whose CAR is the one of the receipt upload it. -/
def UploadsItsCar (jobs : ι → Job) (s : State ι) : Prop :=
  ∀ i, (s.phase i).uploads = true → Holds jobs s.file i

/-- The receipt stays `stored`, and keeps its piece CID. -/
def Kept (s s' : State ι) : Prop :=
  ∀ r, s.file = some (.whole r) → ∃ r', s'.file = some (.whole r') ∧
    (r.status = .stored → r'.status = .stored) ∧ ∀ p, r.pieceCid = some p → r'.pieceCid = some p

/-- A run that replaces the receipt has seen what it says: that the CAR is stored, and its
piece CID. -/
def Seen (s : State ι) : Label ι → Prop
  | .turn i _ => ∀ r₁ prior st, s.phase i = .publishing r₁ (.replace prior st) →
      ∀ r, s.file = some (.whole r) → (r.status = .stored → seesStored prior st = true) ∧
        ∀ p, r.pieceCid = some p → seenPiece prior st = some p
  | _ => True

/-! ## The invariant -/

section Invariant

variable (range : Range) (jobs : ι → Job)

/-- The receipt that a run is about to publish is its own. -/
def Own (i : ι) (r : Receipt) : Publish → Prop
  | .claim => r.carCid = carCid (jobs i).sha256
  | .replace prior st => ∃ now, r = outcome range (jobs i) prior st now

/-- A run that replaces the receipt is past its check. -/
def Checked (file : Option Content) (i : ι) : Publish → Prop
  | .claim => True
  | .replace _ _ => Holds jobs file i

/-- What a run has, and knows of the receipt file. -/
def PhaseOk (file temp : Option Content) (i : ι) : Phase → Prop
  | .creating r how | .writing r how => Own range jobs i r how ∧ Checked jobs file i how
  | .publishing r how =>
    Own range jobs i r how ∧ Checked jobs file i how ∧ temp = some (.whole r)
  | .uploading _ | .asking _ | .waiting _ | .done _ | .refused (.tierRejected _) => Holds jobs file i
  | _ => True

/-- The receipt file is complete, and every run knows of it what its phase says. -/
structure ReceiptInv (s : State ι) : Prop where
  complete : Complete s
  phase : ∀ i, PhaseOk range jobs s.file (s.temp i) i (s.phase i)

end Invariant

section Receipts

variable {range : Range} {jobs : ι → Job} {s s' : State ι} {i j : ι} {p : Phase} {r : Receipt}

theorem Own.carCid {how : Publish} (h : Own range jobs i r how) :
    r.carCid = carCid (jobs i).sha256 := by
  cases how with
  | claim => exact h
  | replace prior st =>
    obtain ⟨now, rfl⟩ := h
    rfl

theorem SameCar.refl (s : State ι) : SameCar s s := fun r hr => ⟨r, hr, rfl⟩

theorem Kept.refl (s : State ι) : Kept s s := fun r hr => ⟨r, hr, id, fun _ => id⟩

theorem Holds.sameCar (h : Holds jobs s.file i) (hs : SameCar s s') : Holds jobs s'.file i := by
  obtain ⟨r, hr, hc⟩ := h
  obtain ⟨r', hr', hc'⟩ := hs r hr
  exact ⟨r', hr', hc'.trans hc⟩

theorem Checked.sameCar {how : Publish} (h : Checked jobs s.file i how) (hs : SameCar s s') :
    Checked jobs s'.file i how := by
  cases how with
  | claim => trivial
  | replace prior st => exact Holds.sameCar h hs

/-- What a run knows stays true while the receipt stays a receipt of its CAR. -/
theorem PhaseOk.sameCar {temp : Option Content} (h : PhaseOk range jobs s.file temp i p)
    (hs : SameCar s s') : PhaseOk range jobs s'.file temp i p := by
  unfold PhaseOk at h ⊢
  split
  · exact ⟨h.1, h.2.sameCar hs⟩
  · exact ⟨h.1, h.2.sameCar hs⟩
  · exact ⟨h.1, h.2.1.sameCar hs, h.2.2⟩
  all_goals first
    | exact Holds.sameCar h hs
    | trivial

theorem receiptInv_start (file : Option Receipt) (tier : JsString → Tier) :
    ReceiptInv range jobs (State.start file tier) where
  complete c hc := by
    obtain ⟨r, -, rfl⟩ := Option.map_eq_some_iff.mp hc
    exact ⟨r, rfl⟩
  phase _ := trivial

/-- A run that uploads is past its check. -/
theorem PhaseOk.holds {file temp : Option Content} (h : PhaseOk range jobs file temp i p)
    (hu : p.uploads = true) : Holds jobs file i := by
  unfold Phase.uploads at hu
  split at hu
  all_goals first
    | exact h
    | exact h.2
    | exact h.2.1
    | cases hu

theorem ReceiptInv.uploadsItsCar (h : ReceiptInv range jobs s) : UploadsItsCar jobs s :=
  fun i hi => (h.phase i).holds hi

/-- A step of run `i`: the others keep what they have and know. -/
theorem ReceiptInv.next (h : ReceiptInv range jobs s) (hsame : SameCar s s') (hc : Complete s')
    (htemp : ∀ j, j ≠ i → s'.temp j = s.temp j) (hphase : ∀ j, j ≠ i → s'.phase j = s.phase j)
    (hi : PhaseOk range jobs s'.file (s'.temp i) i (s'.phase i)) : ReceiptInv range jobs s' where
  complete := hc
  phase j := by
    by_cases hj : j = i
    · rw [hj]
      exact hi
    · rw [htemp j hj, hphase j hj]
      exact (h.phase j).sameCar hsame

section Steps

variable [DecidableEq ι]

@[simp] theorem goto_file : (s.goto i p).file = s.file := rfl

@[simp] theorem goto_temp : (s.goto i p).temp = s.temp := rfl

@[simp] theorem goto_phase_self : (s.goto i p).phase i = p := update_self ..

theorem goto_phase_ne (h : j ≠ i) : (s.goto i p).phase j = s.phase j := update_of_ne h ..

@[simp] theorem write_file {c : Option Content} : (s.write i c).file = s.file := rfl

@[simp] theorem write_phase {c : Option Content} : (s.write i c).phase = s.phase := rfl

@[simp] theorem write_temp_self {c : Option Content} : (s.write i c).temp i = c := update_self ..

theorem write_temp_ne {c : Option Content} (h : j ≠ i) : (s.write i c).temp j = s.temp j :=
  update_of_ne h ..

/-- A step that leaves the receipt file alone. -/
theorem ReceiptInv.quiet (h : ReceiptInv range jobs s) {c : Option Content}
    (hp : PhaseOk range jobs s.file c i p) : ReceiptInv range jobs ((s.write i c).goto i p) :=
  h.next (fun r hr => ⟨r, hr, rfl⟩) h.complete (fun _ hj => write_temp_ne hj)
    (fun _ hj => goto_phase_ne hj) (by simpa using hp)

theorem ReceiptInv.goto (h : ReceiptInv range jobs s) (hp : PhaseOk range jobs s.file (s.temp i) i p) :
    ReceiptInv range jobs (s.goto i p) :=
  h.next (fun r hr => ⟨r, hr, rfl⟩) h.complete (fun _ _ => rfl)
    (fun _ hj => goto_phase_ne hj) (by simpa using hp)

/-- What a run publishes: a whole receipt of its CAR, in place of none or of another one. -/
theorem ReceiptInv.publish (h : ReceiptInv range jobs s) (ht : s.temp i = some (.whole r))
    (hr : r.carCid = carCid (jobs i).sha256) (hs : s.file = none ∨ Holds jobs s.file i)
    (hp : PhaseOk range jobs (some (.whole r)) none i p) :
    SameCar s ((({ s with file := s.temp i } : State ι).write i none).goto i p) ∧
      ReceiptInv range jobs ((({ s with file := s.temp i } : State ι).write i none).goto i p) := by
  have hsame : SameCar s ((({ s with file := s.temp i } : State ι).write i none).goto i p) := by
    intro r₀ hr₀
    refine ⟨r, ht, ?_⟩
    obtain hn | ⟨r₁, hr₁, hc⟩ := hs
    · rw [hn] at hr₀
      cases hr₀
    · rw [hr₁] at hr₀
      obtain rfl := Content.whole.inj (Option.some.inj hr₀)
      rw [hr, hc]
  refine ⟨hsame, h.next hsame ?_ (fun _ hj => write_temp_ne hj) (fun _ hj => goto_phase_ne hj) ?_⟩
  · intro c hc
    exact ⟨r, Option.some.inj (hc.symm.trans ht)⟩
  · show PhaseOk range jobs (s.temp i) (update s.temp i none i) i (update s.phase i p i)
    rw [update_self, update_self, ht]
    exact hp

/-! ## Steps -/

/-- The outcome of a run is about to be written. -/
theorem ReceiptInv.conclude (h : ReceiptInv range jobs s) (hh : Holds jobs s.file i)
    {prior : Option Receipt} {st : Status} {now : JsString} :
    ReceiptInv range jobs (conclude range jobs s i prior st now) :=
  h.goto ⟨⟨now, rfl⟩, hh⟩

/-- A publish keeps the CAR, the invariant, and what the run has seen. -/
theorem ReceiptInv.publishes (h : ReceiptInv range jobs s) {how : Publish}
    (hp : s.phase i = .publishing r how) :
    SameCar s (Filecoin.publish s i r how) ∧ ReceiptInv range jobs (Filecoin.publish s i r how) ∧
      (∀ x, Seen s (.turn i x) ↔ Kept s (Filecoin.publish s i r how)) := by
  have hi := h.phase i
  rw [hp] at hi
  obtain ⟨hown, hcheck, ht⟩ := hi
  cases how with
  | claim =>
    have hseen : ∀ x, Seen s (.turn i x) := by
      intro x r₁ prior st he
      rw [hp] at he
      cases he
    unfold Filecoin.publish
    cases hf : s.file with
    | none =>
      obtain ⟨hsame, hinv⟩ := h.publish (p := .uploading none) ht hown (.inl hf) ⟨r, rfl, hown⟩
      refine ⟨hsame, hinv, fun x => ⟨fun _ r₀ hr₀ => ?_, fun _ => hseen x⟩⟩
      rw [hf] at hr₀
      cases hr₀
    | some c =>
      refine ⟨fun r₀ hr₀ => ⟨r₀, hr₀, rfl⟩, h.quiet trivial, fun x => ⟨fun _ => ?_, fun _ => hseen x⟩⟩
      exact fun r₀ hr₀ => ⟨r₀, hr₀, id, fun _ => id⟩
  | replace prior st =>
    obtain ⟨hsame, hinv⟩ := h.publish (p := .done r) ht hown.carCid (.inr hcheck)
      ⟨r, rfl, hown.carCid⟩
    refine ⟨hsame, hinv, fun x => ?_⟩
    obtain ⟨now, hr⟩ := hown
    -- what the new receipt says is what the run has seen
    have hstored : r.status = .stored ↔ seesStored prior st = true := by
      rw [hr]
      show (if seesStored prior st = true then Outcome.stored else .queued) = .stored ↔ _
      split <;> simp_all
    have hpiece : r.pieceCid = seenPiece prior st := by rw [hr]; rfl
    constructor
    · intro hseen r₀ hr₀
      obtain ⟨h₁, h₂⟩ := hseen r prior st hp r₀ hr₀
      exact ⟨r, ht, fun hs => hstored.mpr (h₁ hs), fun p hp' => hpiece.trans (h₂ p hp')⟩
    · intro hkept r₁ prior' st' he r₀ hr₀
      rw [hp] at he
      obtain ⟨rfl, hhow⟩ := Phase.publishing.inj he
      obtain ⟨rfl, rfl⟩ := Publish.replace.inj hhow
      obtain ⟨r', hr', h₁, h₂⟩ := hkept r₀ hr₀
      obtain rfl : r = r' := Content.whole.inj (Option.some.inj (ht.symm.trans hr'))
      exact ⟨fun hs => hstored.mp (h₁ hs), fun p hp' => hpiece.symm.trans (h₂ p hp')⟩

/-- **One step** keeps the invariant and the CAR of the receipt; it keeps what the receipt
says if and only if the run has seen it. -/
theorem ReceiptInv.step (h : ReceiptInv range jobs s) {a : Label ι}
    (hs : step range jobs s a = some s') :
    SameCar s s' ∧ ReceiptInv range jobs s' ∧ (Seen s a ↔ Kept s s') := by
  -- a step that leaves the file alone, and replaces nothing
  have quiet : ∀ {s'}, s'.file = s.file → ReceiptInv range jobs s' → Seen s a →
      SameCar s s' ∧ ReceiptInv range jobs s' ∧ (Seen s a ↔ Kept s s') := by
    intro s' hf hi hseen
    refine ⟨fun r hr => ⟨r, hf.trans hr, rfl⟩, hi, fun _ => ?_, fun _ => hseen⟩
    exact fun r hr => ⟨r, hf.trans hr, id, fun _ => id⟩
  cases a with
  | start i now =>
    unfold Filecoin.step at hs
    dsimp only at hs
    split at hs
    · split at hs
      · rename_i why hw
        obtain rfl := Option.some.inj hs
        refine quiet rfl (h.goto ?_) trivial
        unfold refusal at hw
        split_ifs at hw <;> try cases hw <;> trivial
        split at hw <;> try cases hw <;> trivial
        split_ifs at hw <;> cases hw <;> trivial
      · obtain rfl := Option.some.inj hs
        exact quiet rfl (h.goto ⟨rfl, trivial⟩) trivial
    · cases hs
  | stop i =>
    obtain rfl := Option.some.inj hs
    exact quiet rfl (h.goto trivial) trivial
  | tier cid t =>
    obtain ⟨-, hs⟩ := Option.ite_none_right_eq_some.mp hs
    obtain rfl := Option.some.inj hs
    exact quiet rfl ⟨h.complete, h.phase⟩ trivial
  | turn i x =>
    have hs : turn range jobs s i x = some s' := hs
    have hi := h.phase i
    have unseen : (∀ r how, s.phase i ≠ .publishing r how) → Seen s (.turn i x) :=
      fun hne r₁ prior st he => absurd he (hne _ _)
    unfold turn at hs
    cases hp : s.phase i with
    | unborn | done | refused | stopped =>
      rw [hp] at hs
      cases hs
    | creating r how =>
      rw [hp] at hs hi
      obtain rfl := Option.some.inj hs
      exact quiet rfl (h.quiet hi) (unseen (by simp [hp]))
    | writing r how =>
      rw [hp] at hs hi
      obtain rfl := Option.some.inj hs
      exact quiet rfl (h.quiet ⟨hi.1, hi.2, rfl⟩) (unseen (by simp [hp]))
    | publishing r how =>
      rw [hp] at hs
      obtain rfl := Option.some.inj hs
      obtain ⟨hsame, hinv, hkept⟩ := h.publishes hp
      exact ⟨hsame, hinv, hkept x⟩
    | reading =>
      rw [hp] at hs
      obtain rfl := Option.some.inj hs
      unfold readReceipt
      split
      · rename_i prior hf
        split
        · exact quiet rfl (h.goto trivial) (unseen (by simp [hp]))
        · rename_i hcid
          refine quiet rfl (h.goto ?_) (unseen (by simp [hp]))
          exact ⟨prior, hf, (not_not.mp hcid).symm⟩
      · exact quiet rfl (h.goto trivial) (unseen (by simp [hp]))
    | uploading prior =>
      rw [hp] at hs hi
      dsimp only at hs
      split at hs <;> obtain rfl := Option.some.inj hs
      · have htier : ReceiptInv range jobs
            { s with tier := update s.tier (carCid (jobs i).sha256) (s.tier (carCid (jobs i).sha256)).put } :=
          ⟨h.complete, h.phase⟩
        exact quiet rfl (htier.goto (p := .asking prior) hi) (unseen (by simp [hp]))
      · exact quiet rfl (h.goto hi) (unseen (by simp [hp]))
    | asking prior =>
      rw [hp] at hs hi
      dsimp only at hs
      split at hs <;> obtain rfl := Option.some.inj hs
      · exact quiet rfl (h.goto hi) (unseen (by simp [hp]))
      · exact quiet rfl (h.conclude hi) (unseen (by simp [hp]))
    | waiting prior =>
      rw [hp] at hs hi
      dsimp only at hs
      split at hs <;> obtain rfl := Option.some.inj hs
      · exact quiet rfl (h.conclude hi) (unseen (by simp [hp]))
      · exact quiet rfl h (unseen (by simp [hp]))

/-- **A receipt never changes its CAR**: whatever runs work on the receipt file, and
wherever they stop, it only ever holds complete receipts, all of one CAR; and a run uploads
its CAR only when the receipt is one of it. -/
theorem receipt_keeps_car (range : Range) (jobs : ι → Job) (file : Option Receipt)
    (tier : JsString → Tier) (ls : List (Label ι)) :
    Always (step range jobs) Complete (State.start file tier) ls ∧
      Steps (step range jobs) SameCar (State.start file tier) ls ∧
      Always (step range jobs) (UploadsItsCar jobs) (State.start file tier) ls := by
  have hinv : Always (step range jobs) (ReceiptInv range jobs) (State.start file tier) ls :=
    .of_step (fun _ _ _ h hs => (h.step hs).2.1) (receiptInv_start file tier)
  refine ⟨hinv.mono fun _ h => h.complete, ?_, hinv.mono fun _ h => h.uploadsItsCar⟩
  exact .of_step (fun _ _ _ h hs => ⟨(h.step hs).1, (h.step hs).2.1⟩) (receiptInv_start file tier)

/-- **What a receipt says is kept exactly when it was seen**: in a run of any number of
archives, every step keeps a receipt `stored` and its piece CID if and only if every run
that replaces a receipt has seen that, in the receipt it read or from the tier. -/
theorem kept_iff (range : Range) (jobs : ι → Job) (file : Option Receipt)
    (tier : JsString → Tier) (ls : List (Label ι))
    (h : (run (step range jobs) (State.start file tier) ls).isSome = true) :
    Steps (step range jobs) Kept (State.start file tier) ls ↔
      Throughout (step range jobs) Seen (State.start file tier) ls :=
  steps_iff_throughout (fun _ _ _ h hs => ⟨(h.step hs).2.2, (h.step hs).2.1⟩)
    (receiptInv_start file tier) h

end Steps

end Receipts

/-! ## Two archives of one CAR -/

namespace Sample

def range : Range := ⟨0, 10⟩

/-- A CAR of one byte, archived without waiting. -/
def job : Job := ⟨List.replicate 64 (unit 'a'), some (List.replicate 64 (unit 'a'), 1), none, false⟩

/-- The tier holds nothing yet. -/
def tier (_ : JsString) : Tier := ⟨.absent, none⟩

def ok : Outside := ⟨js "now", 202, true, false⟩

/-- The tier stores the CAR. -/
def stores : Label Nat := .tier (carCid job.sha256) ⟨.stored, some (js "piece")⟩

/-- One archive: claimed, uploaded, asked for and replacing. -/
def alone : List (Label Nat) := .start 0 (js "now") :: List.replicate 8 (.turn 0 ok)

/-- The first archive is told `queued`; the second one is told `stored` and replaces the
receipt. -/
def overtaken : List (Label Nat) :=
  .start 0 (js "now") :: List.replicate 5 (.turn 0 ok) ++
    .start 1 (js "now") :: List.replicate 5 (.turn 1 ok) ++
    stores :: List.replicate 4 (.turn 1 ok)

/-- The first archive replaces the receipt. -/
def replacing : List (Label Nat) := List.replicate 3 (.turn 0 ok)

end Sample

open Sample in
theorem kept_iff_alone :
    Steps (step range fun _ => job) Kept (State.start none tier) alone ↔
      Throughout (step range fun _ => job) Seen (State.start none tier) alone :=
  kept_iff range (fun _ => job) none tier alone (by decide +kernel)

open Sample in
/-- **A stored receipt becomes a queued one** and loses its piece CID. -/
theorem not_kept : ¬ ∀ (range : Range) (job : Job) (tier : JsString → Tier)
    (ls ls' : List (Label Nat)) (s s' : State Nat),
    run (step range fun _ => job) (State.start none tier) ls = some s →
    run (step range fun _ => job) s ls' = some s' → Kept s s' := by
  intro h
  have hrun : (run (step range fun _ => job) (State.start none tier) (overtaken ++ replacing)).map
      (fun s => s.file) =
        some (some (.whole (outcome range job none ⟨some false, none⟩ (js "now")))) := by
    decide +kernel
  have hrun₁ : (run (step range fun _ => job) (State.start none tier) overtaken).map
      (fun s => s.file) =
        some (some (.whole (outcome range job none ⟨some true, some (js "piece")⟩ (js "now")))) := by
    decide +kernel
  obtain ⟨s, hs, hf⟩ := Option.map_eq_some_iff.mp hrun₁
  rw [run_append, hs, Option.bind_some] at hrun
  obtain ⟨s', hs', hf'⟩ := Option.map_eq_some_iff.mp hrun
  obtain ⟨r', hr', hstored, -⟩ := h range job tier overtaken replacing s s' hs hs' _ hf
  rw [hf'] at hr'
  obtain rfl := Content.whole.inj (Option.some.inj hr')
  exact absurd (hstored rfl) (by decide)

end Filecoin
