import Yataverse.Replicate.Listing

/-!
# When a checkpoint migration is crash-safe

`prepare_listing_state` moves a checkpoint to a pinned inventory, from the cursor of a public
listing or from an inventory that the new one contains. It writes a backup and then the
checkpoint. The backup is opened exclusively under its own name and filled afterwards, and a
later call compares it with the checkpoint.

- `planOf`: the checks, and what is to be done.
- `prepareListingState`: the plan carried out.
- `CutOff`: a call stops before the new backup has all bytes.
- **`migrated_iff`**: when a call after one that has stopped ends as one that has not.
-/

namespace Replicate

open Js Lake EventLoop EventLoop.Task Fallible

/-! ## The source -/

/-- The arguments, with what stands at the paths and what the listing serves. `none` is an
option that is not given, and inside it a file that is not there. -/
structure Args where
  localListing : Bool
  inventory : Option (Option Inventory)
  inventorySha256 : Option JsString
  previousInventory : Option (Option Inventory)
  previousSha256 : Option JsString
  served : Except Error (Option JsString)

/-- `state.get("listing_source")`. -/
def markerOf : Option Value → Except Error (Option JsString)
  | none | some .null => .ok none
  | some (.str s) => .ok (some s)
  | some _ => .error (.replication "checkpoint listing source is invalid")

/-- `[0-9]+`. -/
def isNumeric (s : JsString) : Bool := s != [] && s.all (inRange '0' '9')

/-- `"local-inventory:" + sha256`. -/
def localMarker (sha256 : JsString) : JsString := js "local-inventory:" ++ sha256

/-- `str` of an option that may be absent. -/
def strOf : Option JsString → JsString
  | some s => s
  | none => js "None"

/-- What the checks come to: nothing is to be done, or the checkpoint gets a cursor and a
listing source behind a backup. -/
inductive Plan where
  | keep
  | migrate (name : Backup) (differs : String) (cursor : Option JsString) (marker : JsString)

variable {Text Rest : Type}

/-- From one inventory to another. -/
def rolloverPlan (args : Args) (state : State Rest) (marker : JsString) (file : Option Inventory)
    (expected : JsString) : Except Error Plan :=
  match args.previousInventory with
  | none => .error (.replication "checkpoint inventory identity differs")
  | some previous => do
    require (marker = localMarker (strOf args.previousSha256)) (.replication "checkpoint inventory identity differs")
    require (state.cursor.all isNumeric = true) (.replication "previous inventory cursor is not a numeric offset")
    let oldSizes ← inventorySizes previous args.previousSha256
    let newSizes ← inventorySizes file (some expected)
    require (∀ row ∈ oldSizes, newSizes.lookup row.1 = some row.2)
      (.replication "new inventory omits or changes previous CID")
    let served ← args.served
    require (served = some expected) (.replication "local listing is not serving the new inventory")
    return .migrate (.preInventory (strOf args.previousSha256)) "inventory migration backup differs" (some (js "0"))
      (localMarker expected)

/-- The CID that a cursor of the public listing stands for. -/
def afterCid (cursor : Option JsString) : Except Error (Option JsString) :=
  match cursor with
  | none | some [] => .ok none
  | some cursor => some <$> legacyCursorCid cursor

/-- From a public listing to an inventory. -/
def firstPlan (state : State Rest) (file : Option Inventory) (expected : JsString) : Except Error Plan := do
  let after ← afterCid state.cursor
  let offset ← inventoryOffset file expected after
  return .migrate .preLocal "checkpoint migration backup differs" offset (localMarker expected)

/-- The checks of a checkpoint that has been migrated. -/
def pinnedPlan (state : State Rest) (file : Option Inventory) (expected : JsString) : Except Error Plan := do
  require (state.cursor.all isNumeric = true) (.replication "local listing cursor is not a numeric offset")
  let _ ← inventoryOffset file expected none
  return .keep

/-- The checks of `prepare_listing_state`. An empty option is as good as none. -/
def planOf (args : Args) (state : State Rest) : Except Error Plan := do
  let marker ← markerOf state.listingSource
  if args.localListing then
    match args.inventory, args.inventorySha256 with
    | some file, some expected =>
      if expected = [] then .error (.replication "local listing requires a pinned inventory path and digest")
      else
        match marker with
        | none | some [] => firstPlan state file expected
        | some marker =>
          if marker = localMarker expected then pinnedPlan state file expected
          else rolloverPlan args state marker file expected
    | _, _ => .error (.replication "local listing requires a pinned inventory path and digest")
  else do
    require (marker = none) (.replication "checkpoint listing source cannot use public listing")
    return .keep

section Prepare

variable [DecidableEq Text] (fate : Fate) (codec : Codec Text Rest)

/-- The checkpoint is backed up, if there is one. A backup that is there has to be the same. -/
def backUp (name : Backup) (differs : String) : Call Text Unit :=
  .get fun s =>
    match s.checkpoint with
    | none => .ret ()
    | some old =>
      match s.backups name with
      | some backup => if backup = old then .ret () else .throw (.replication differs)
      | none => writeFile fate codec .openBackup .writeBackup .fsyncBackup (Files.putBackup name) old

/-- The checkpoint with another cursor and listing source. -/
def State.moved (state : State Rest) (cursor : Option JsString) (marker : JsString) : State Rest :=
  { state with cursor := cursor, listingSource := some (.str marker) }

/-- `prepare_listing_state`. -/
def prepareListingState (args : Args) (state : State Rest) : Call Text (State Rest) := do
  let plan ← lift (planOf args state)
  match plan with
  | .keep => return state
  | .migrate name differs cursor marker => do
    backUp fate codec name differs
    stateSave fate codec (state.moved cursor marker)
    return state.moved cursor marker

/-- `prepare_listing_state` of the checkpoint in the state directory: the files it leaves, and how
it ends. -/
def run (plain : Rest) (args : Args) (s : Files Text) : Files Text × Except Error (State Rest) :=
  ((stateLoad codec plain).bind (prepareListingState fate codec args)).eval fate.ok s

end Prepare

/-! ## Plans -/

theorem isNumeric_natStr (n : Nat) : isNumeric (natStr n) = true := by
  rw [isNumeric, Bool.and_eq_true]
  refine ⟨?_, List.all_eq_true.mpr fun u hu => ?_⟩
  · rcases natStr_head n with h | ⟨u, rest, h, -, -⟩ <;>
    · rw [h]
      rfl
  · have h := isDigit_natStr n u hu
    rw [IsDigit, digit?] at h
    by_contra hr
    rw [if_neg hr] at h
    cases h

section Plans

variable {args : Args} {state : State Rest} {name : Backup} {differs : String} {cursor : Option JsString}
  {marker : JsString}

/-- What the checks of a migration have established: the checkpoint gets a numeric cursor in the
inventory of the arguments. -/
theorem planOf_migrate (h : planOf args state = .ok (.migrate name differs cursor marker)) :
    args.localListing = true ∧ ∃ file expected, args.inventory = some file ∧
      args.inventorySha256 = some expected ∧ expected ≠ [] ∧ marker = localMarker expected ∧
      cursor.all isNumeric = true ∧ inventoryOffset file expected none = .ok none := by
  obtain ⟨found, -, h⟩ := bind_eq_ok.mp h
  cases hlocal : args.localListing with
  | false =>
    rw [hlocal, if_neg Bool.false_ne_true] at h
    obtain ⟨_, -, h⟩ := bind_eq_ok.mp h
    cases h
  | true =>
    rw [hlocal, if_pos rfl] at h
    refine ⟨rfl, ?_⟩
    split at h
    · rename_i file expected hfile hexpected
      split at h
      · cases h
      · rename_i hne
        refine ⟨file, expected, hfile, hexpected, hne, ?_⟩
        have hfirst : firstPlan state file expected = .ok (.migrate name differs cursor marker) →
            marker = localMarker expected ∧ cursor.all isNumeric = true ∧
              inventoryOffset file expected none = .ok none := by
          intro h
          obtain ⟨after, -, h⟩ := bind_eq_ok.mp h
          obtain ⟨offset, hoffset, h⟩ := bind_eq_ok.mp h
          cases h
          refine ⟨rfl, ?_, inventoryOffset_none hoffset⟩
          cases cursor with
          | none => rfl
          | some c =>
            obtain ⟨n, rfl⟩ := inventoryOffset_digits hoffset
            exact isNumeric_natStr n
        split at h
        · exact hfirst h
        · exact hfirst h
        · split at h
          · obtain ⟨_, -, h⟩ := bind_eq_ok.mp h
            obtain ⟨_, -, h⟩ := bind_eq_ok.mp h
            cases h
          · rw [rolloverPlan] at h
            split at h
            · cases h
            · obtain ⟨_, -, h⟩ := bind_eq_ok.mp h
              obtain ⟨_, -, h⟩ := bind_eq_ok.mp h
              obtain ⟨_, -, h⟩ := bind_eq_ok.mp h
              obtain ⟨_, hsizes, h⟩ := bind_eq_ok.mp h
              obtain ⟨_, -, h⟩ := bind_eq_ok.mp h
              obtain ⟨_, -, h⟩ := bind_eq_ok.mp h
              obtain ⟨_, -, h⟩ := bind_eq_ok.mp h
              cases h
              exact ⟨rfl, by decide, inventoryOffset_of_sizes hsizes⟩
    · cases h

/-- A checkpoint that has been moved is kept. -/
theorem planOf_moved (h : planOf args state = .ok (.migrate name differs cursor marker)) :
    planOf args (state.moved cursor marker) = .ok .keep := by
  obtain ⟨hlocal, file, expected, hfile, hexpected, hne, rfl, hcursor, hoffset⟩ := planOf_migrate h
  have hmarker : markerOf (state.moved cursor (localMarker expected)).listingSource =
      .ok (some (localMarker expected)) := rfl
  rw [planOf, bind_eq_ok]
  refine ⟨_, hmarker, ?_⟩
  rw [if_pos hlocal, hfile, hexpected]
  dsimp only
  rw [if_neg hne]
  have hhead : localMarker expected = unit 'l' :: (localMarker expected).tail := rfl
  rw [hhead]
  dsimp only
  rw [← hhead, if_pos rfl, pinnedPlan, bind_eq_ok]
  refine ⟨(), require_eq_ok.mpr hcursor, ?_⟩
  rw [hoffset]
  rfl

end Plans

/-! ## Backups -/

section Runs

variable [DecidableEq Text] {fate : Fate} {codec : Codec Text Rest} {plain : Rest} {args : Args} {s : Files Text}
  {state : State Rest} {name : Backup} {differs : String}

/-- A backup is the checkpoint, where both are there. -/
def Clean (name : Backup) (s : Files Text) : Prop :=
  ∀ old, s.checkpoint = some old → s.backups name = none ∨ s.backups name = some old

/-- The checkpoint `old` has its backup. -/
def BackedUp (old : Option Text) (name : Backup) (s : Files Text) : Prop :=
  ∀ text, old = some text → s.backups name = some text

/-- A call makes the backup, and stops before it has all bytes. -/
def CutsOff (fate : Fate) (codec : Codec Text Rest) (name : Backup) (s : Files Text) : Prop :=
  ∃ old, s.checkpoint = some old ∧ s.backups name = none ∧ fate.ok .openBackup = true ∧
    ¬fate.ok .writeBackup = true ∧ codec.start fate.part old ≠ old

/-- What `backUp` leaves, and when it goes on. -/
theorem eval_backUp (hclean : Clean name s) {r : Files Text × Except Error Unit}
    (hr : (backUp fate codec name differs).eval fate.ok s = r) :
    r.1.checkpoint = s.checkpoint ∧ (Clean name r.1 ↔ ¬CutsOff fate codec name s) ∧
      (r.2 = .ok () → BackedUp s.checkpoint name r.1) := by
  have hold : ∀ {old}, s.checkpoint = some old → ∀ text, s.checkpoint = some text → text = old :=
    fun h text h' => Option.some.inj (h'.symm.trans h)
  rw [backUp, eval_get] at hr
  cases hc : s.checkpoint with
  | none =>
    rw [hc] at hr
    subst hr
    refine ⟨hc, ⟨fun _ h => ?_, fun _ => hclean⟩, fun _ text h => by cases h⟩
    obtain ⟨old, h, -⟩ := h
    rw [hc] at h
    cases h
  | some old =>
    rw [hc] at hr
    dsimp only at hr
    cases hb : s.backups name with
    | some backup =>
      rw [hb] at hr
      dsimp only at hr
      have hno : ¬CutsOff fate codec name s := by
        rintro ⟨_, -, h, -⟩
        rw [hb] at h
        cases h
      obtain rfl : backup = old := by
        rcases hclean old hc with h | h
        · rw [hb] at h
          cases h
        · exact Option.some.inj (hb.symm.trans h)
      rw [if_pos rfl] at hr
      subst hr
      refine ⟨hc, ⟨fun _ => hno, fun _ => hclean⟩, fun _ text h => ?_⟩
      rw [← Option.some.inj h]
      exact hb
    | none =>
      rw [hb] at hr
      dsimp only at hr
      rw [eval_writeFile (Files.putBackup_putBackup name)] at hr
      by_cases ho : fate.ok .openBackup = true
      · rw [if_pos ho] at hr
        by_cases hw : fate.ok .writeBackup = true
        · rw [if_pos hw] at hr
          have hfull : BackedUp (some old) name (Files.putBackup name old s) := by
            rintro text h
            rw [Files.putBackup_backups, ← Option.some.inj h]
          have hno : ¬CutsOff fate codec name s := by
            rintro ⟨_, -, -, -, h, -⟩
            exact h hw
          subst hr
          refine ⟨hc, ⟨fun _ => hno, fun _ text h => ?_⟩, fun _ => hfull⟩
          rw [Files.putBackup_checkpoint, hc] at h
          exact .inr (hfull text h)
        · rw [if_neg hw] at hr
          subst hr
          refine ⟨hc, ⟨fun h => ?_, fun h text htext => ?_⟩, fun h => by cases h⟩
          · rintro ⟨old', hc', -, -, -, hne⟩
            obtain rfl := hold hc old' hc'
            rcases h old' hc with h | h <;> rw [Files.putBackup_backups] at h
            · cases h
            · exact hne (Option.some.inj h)
          · obtain rfl := hold hc text htext
            rw [Files.putBackup_backups]
            refine .inr (congrArg some ?_)
            by_contra hne
            exact h ⟨text, hc, hb, ho, hw, hne⟩
      · rw [if_neg ho] at hr
        subst hr
        refine ⟨hc, ⟨fun _ h => ?_, fun _ => hclean⟩, fun h => by cases h⟩
        obtain ⟨_, -, -, h, -⟩ := h
        exact ho h

/-- Where nothing fails, `backUp` goes on exactly from clean backups. -/
theorem eval_backUp_fine : ((backUp .fine codec name differs).eval Fate.fine.ok s).2 = .ok () ↔ Clean name s := by
  rw [backUp, eval_get]
  cases hc : s.checkpoint with
  | none =>
    refine ⟨fun _ old h => ?_, fun _ => rfl⟩
    rw [hc] at h
    cases h
  | some old =>
    dsimp only
    cases hb : s.backups name with
    | none =>
      dsimp only
      rw [eval_writeFile (Files.putBackup_putBackup name)]
      exact ⟨fun _ _ _ => .inl hb, fun _ => rfl⟩
    | some backup =>
      dsimp only
      by_cases h : backup = old
      · rw [if_pos h]
        refine ⟨fun _ text htext => .inr ?_, fun _ => rfl⟩
        rw [hb, h, ← Option.some.inj (hc.symm.trans htext)]
      · rw [if_neg h]
        refine ⟨fun h => (by cases h), fun hclean => ?_⟩
        rcases hclean old hc with h' | h' <;> rw [hb] at h'
        · cases h'
        · exact absurd (Option.some.inj h') h

/-! ## Calls -/

/-- A call does what the plan says. -/
theorem run_eq (hload : loadText codec plain s.checkpoint = .ok state) : run fate codec plain args s =
    match planOf args state with
    | .error e => (s, .error e)
    | .ok .keep => (s, .ok state)
    | .ok (.migrate name differs cursor marker) =>
      ((backUp fate codec name differs).bind fun _ =>
        (stateSave fate codec (state.moved cursor marker)).bind fun _ => .ret (state.moved cursor marker)).eval
          fate.ok s := by
  rw [run, eval_bind, eval_stateLoad, hload]
  dsimp only
  rw [prepareListingState, bind_eq, eval_bind, eval_lift]
  cases planOf args state with
  | error e => rfl
  | ok plan => cases plan <;> rfl

/-- A migration stops before the backup has all bytes. -/
def CutOff (fate : Fate) (codec : Codec Text Rest) (plain : Rest) (args : Args) (s : Files Text) : Prop :=
  ∃ state name differs cursor marker, loadText codec plain s.checkpoint = .ok state ∧
    planOf args state = .ok (.migrate name differs cursor marker) ∧ CutsOff fate codec name s

/-- The backup of a migration that starts at `s` is in `s'`. -/
def Kept (codec : Codec Text Rest) (plain : Rest) (args : Args) (s s' : Files Text) : Prop :=
  ∀ state name differs cursor marker, loadText codec plain s.checkpoint = .ok state →
    planOf args state = .ok (.migrate name differs cursor marker) → BackedUp s.checkpoint name s'

variable {cursor : Option JsString} {marker : JsString}

/-- A migration that nothing stops: it needs clean backups, and leaves the moved checkpoint. -/
theorem run_fine (hload : loadText codec plain s.checkpoint = .ok state)
    (hplan : planOf args state = .ok (.migrate name differs cursor marker)) :
    (¬Clean name s → ∀ migrated, (run .fine codec plain args s).2 ≠ .ok migrated) ∧
    (Clean name s → (run .fine codec plain args s).2 = .ok (state.moved cursor marker) ∧
      (run .fine codec plain args s).1.checkpoint = some (codec.dumps (state.moved cursor marker).document) ∧
      BackedUp s.checkpoint name (run .fine codec plain args s).1) := by
  have hfine := @eval_backUp_fine Text Rest _ codec s name differs
  rw [run_eq hload, hplan]
  dsimp only
  rw [eval_bind]
  refine ⟨fun hnot migrated h => ?_, fun hclean => ?_⟩
  · cases hb : ((backUp .fine codec name differs).eval Fate.fine.ok s).2 with
    | ok u => exact hnot (hfine.mp hb)
    | error e =>
      rw [hb] at h
      cases h
  · obtain ⟨-, -, hfull⟩ := eval_backUp (r := (backUp .fine codec name differs).eval Fate.fine.ok s) hclean rfl
    rw [hfine.mpr hclean]
    dsimp only
    rw [eval_bind, eval_stateSave_fine]
    exact ⟨rfl, rfl, hfull (hfine.mpr hclean)⟩

/-- What a migration that may stop leaves: the checkpoint as it was, with clean backups unless it
has been cut off, or the moved checkpoint behind its backup. -/
theorem run_left (hload : loadText codec plain s.checkpoint = .ok state)
    (hplan : planOf args state = .ok (.migrate name differs cursor marker)) (hclean : Clean name s) :
    ((run fate codec plain args s).1.checkpoint = s.checkpoint ∧
      (Clean name (run fate codec plain args s).1 ↔ ¬CutsOff fate codec name s)) ∨
    ((run fate codec plain args s).1.checkpoint = some (codec.dumps (state.moved cursor marker).document) ∧
      BackedUp s.checkpoint name (run fate codec plain args s).1 ∧ ¬CutsOff fate codec name s) := by
  rw [run_eq hload, hplan]
  dsimp only
  obtain ⟨hcheckpoint, hiff, hfull⟩ :=
    eval_backUp (r := (backUp fate codec name differs).eval fate.ok s) hclean rfl
  rw [eval_bind]
  cases hb : ((backUp fate codec name differs).eval fate.ok s).2 with
  | error e => exact .inl ⟨hcheckpoint, hiff⟩
  | ok u =>
    dsimp only
    have hbacked := hfull hb
    generalize hs₁ : ((backUp fate codec name differs).eval fate.ok s).1 = s₁ at hcheckpoint hiff hbacked ⊢
    have hclean₁ : Clean name s₁ := fun old h => .inr (hbacked old (hcheckpoint ▸ h))
    have hno := hiff.mp hclean₁
    obtain ⟨hbackups, hsave⟩ :=
      eval_stateSave (r := (stateSave fate codec (state.moved cursor marker)).eval fate.ok s₁) rfl
    rw [eval_bind]
    rcases hsave with ⟨hc, he⟩ | ⟨hc, he⟩ <;> rw [he] <;> dsimp only
    · refine .inl ⟨hc.trans hcheckpoint, fun _ => hno, fun _ old h => ?_⟩
      rw [hbackups]
      exact hclean₁ old (hc ▸ h)
    · refine .inr ⟨hc, fun old h => ?_, hno⟩
      rw [eval_ret, hbackups]
      exact hbacked old h

theorem cutOff_iff (hload : loadText codec plain s.checkpoint = .ok state)
    (hplan : planOf args state = .ok (.migrate name differs cursor marker)) :
    CutOff fate codec plain args s ↔ CutsOff fate codec name s := by
  refine ⟨?_, fun h => ⟨state, name, differs, cursor, marker, hload, hplan, h⟩⟩
  rintro ⟨state', name', differs', cursor', marker', hload', hplan', h⟩
  obtain rfl := Except.ok.inj (hload.symm.trans hload')
  obtain ⟨rfl, -⟩ := Plan.migrate.inj (Except.ok.inj (hplan.symm.trans hplan'))
  exact h

theorem kept_iff_backedUp (hload : loadText codec plain s.checkpoint = .ok state)
    (hplan : planOf args state = .ok (.migrate name differs cursor marker)) {s' : Files Text} :
    Kept codec plain args s s' ↔ BackedUp s.checkpoint name s' := by
  refine ⟨fun h => h state name differs cursor marker hload hplan, ?_⟩
  rintro h state' name' differs' cursor' marker' hload' hplan'
  obtain rfl := Except.ok.inj (hload.symm.trans hload')
  obtain ⟨rfl, -⟩ := Plan.migrate.inj (Except.ok.inj (hplan.symm.trans hplan'))
  exact h

/-- **Crash safety of a migration**: a call that nothing stops would end with `migrated`. After one
that stops anywhere, it still does, with the checkpoint saved and the backup whole, exactly when
the stopped call has not cut its backup off. -/
theorem migrated_iff (fate : Fate) (codec : Codec Text Rest) (plain : Rest) (args : Args) (s : Files Text)
    (migrated : State Rest) (h : (run .fine codec plain args s).2 = .ok migrated) :
    ((run .fine codec plain args (run fate codec plain args s).1).2 = .ok migrated ∧
      loadText codec plain (run .fine codec plain args (run fate codec plain args s).1).1.checkpoint = .ok migrated ∧
      Kept codec plain args s (run .fine codec plain args (run fate codec plain args s).1).1) ↔
    ¬CutOff fate codec plain args s := by
  cases hload : loadText codec plain s.checkpoint with
  | error e =>
    rw [run, eval_bind, eval_stateLoad, hload] at h
    cases h
  | ok state =>
    cases hplan : planOf args state with
    | error e =>
      rw [run_eq hload, hplan] at h
      cases h
    | ok plan =>
      cases plan with
      | keep =>
        have hrun : ∀ fate, run fate codec plain args s = (s, .ok state) := by
          intro fate
          rw [run_eq hload, hplan]
        rw [hrun] at h
        obtain rfl := Except.ok.inj h
        rw [hrun, hrun]
        refine ⟨?_, fun _ => ⟨rfl, hload, ?_⟩⟩
        · rintro - ⟨state', _, _, _, _, hload', hplan', -⟩
          obtain rfl := Except.ok.inj (hload.symm.trans hload')
          rw [hplan] at hplan'
          cases hplan'
        · intro state' _ _ _ _ hload' hplan'
          obtain rfl := Except.ok.inj (hload.symm.trans hload')
          rw [hplan] at hplan'
          cases hplan'
      | migrate name differs cursor marker =>
        obtain ⟨hdirty, hfine⟩ := run_fine hload hplan
        have hclean : Clean name s := by
          by_contra hnot
          exact hdirty hnot migrated h
        obtain rfl := Except.ok.inj ((hfine hclean).1.symm.trans h)
        rw [cutOff_iff hload hplan, kept_iff_backedUp hload hplan]
        generalize hleft : (run fate codec plain args s).1 = left
        have hcases := @run_left Text Rest _ fate codec plain args s state name differs cursor marker hload hplan hclean
        rw [hleft] at hcases
        rcases hcases with ⟨hsame, hiff⟩ | ⟨hmoved, hbacked, hno⟩
        · obtain ⟨hdirty₁, hfine₁⟩ := run_fine (hsame ▸ hload) hplan
          rw [← hiff]
          refine ⟨fun h => ?_, fun hclean₁ => ?_⟩
          · by_contra hnot
            exact hdirty₁ hnot _ h.1
          · obtain ⟨hend, hsaved, hbacked⟩ := hfine₁ hclean₁
            refine ⟨hend, ?_, hsame ▸ hbacked⟩
            rw [hsaved]
            exact loadText_dumps
        · have hload₁ : loadText codec plain left.checkpoint = .ok (state.moved cursor marker) := by
            rw [hmoved]
            exact loadText_dumps
          have hrun : run .fine codec plain args left = (left, .ok (state.moved cursor marker)) := by
            rw [run_eq hload₁, planOf_moved hplan]
          rw [hrun]
          exact ⟨fun _ => hno, fun _ => ⟨rfl, hload₁, hbacked⟩⟩

/-- The counters of a checkpoint stay as they are. -/
theorem run_counters {migrated : State Rest} (h : (run fate codec plain args s).2 = .ok migrated) :
    ∃ state, loadText codec plain s.checkpoint = .ok state ∧ migrated.cycles = state.cycles ∧
      migrated.pagesTotal = state.pagesTotal ∧ migrated.newBlocksTotal = state.newBlocksTotal ∧
      migrated.newBytesTotal = state.newBytesTotal := by
  cases hload : loadText codec plain s.checkpoint with
  | error e =>
    rw [run, eval_bind, eval_stateLoad, hload] at h
    cases h
  | ok state =>
    refine ⟨state, rfl, ?_⟩
    rw [run_eq hload] at h
    cases hplan : planOf args state with
    | error e =>
      rw [hplan] at h
      cases h
    | ok plan =>
      rw [hplan] at h
      cases plan with
      | keep =>
        obtain rfl := Except.ok.inj h
        exact ⟨rfl, rfl, rfl, rfl⟩
      | migrate name differs cursor marker =>
        obtain ⟨_, -, h⟩ := eval_bind_eq_ok.mp h
        obtain ⟨_, -, h⟩ := eval_bind_eq_ok.mp h
        obtain rfl := Except.ok.inj h
        exact ⟨rfl, rfl, rfl, rfl⟩

end Runs

namespace Sample

/-- A text, by the object that it is of: the whole text, or the first bytes of it. -/
inductive Piece where
  | whole (d : Document Unit)
  | first (n : Nat) (d : Document Unit)
deriving DecidableEq

def codec : Codec Piece Unit where
  loads
    | .whole d => some d
    | .first _ _ => none
  dumps := .whole
  reads_back _ := rfl
  start
    | n, .whole d | n, .first _ d => .first n d

def pin : JsString := List.replicate 64 (unit 'a')

/-- A first migration, of a checkpoint without a cursor. -/
def args : Args where
  localListing := true
  inventory := some (some ⟨pin, [.object (some (js "QmYwAPJzv5CZsnA625s3Xf2nemtYgPpHdWEz79ojWKPBdG")) (some 1)]⟩)
  inventorySha256 := some pin
  previousInventory := none
  previousSha256 := none
  served := .ok (some pin)

def before : Files Piece := ⟨some (.whole (State.start ()).document), none, fun _ => none⟩

/-- A call that is killed at an operation. -/
def killedAt (op : Op) : Fate := ⟨(· != op), 0⟩

theorem ends : (run .fine codec () args before).2 = .ok ((State.start ()).moved none (localMarker pin)) := by
  have hload : loadText codec () before.checkpoint = .ok (State.start ()) := loadText_dumps
  have hplan : planOf args (State.start ()) =
      .ok (.migrate .preLocal "checkpoint migration backup differs" none (localMarker pin)) := rfl
  exact ((run_fine hload hplan).2 fun _ _ => .inl rfl).1

end Sample

/-- A migration that is killed between the backup and the checkpoint. -/
theorem migrated_iff_openTemp :
    ((run .fine Sample.codec () Sample.args
        (run (Sample.killedAt .openTemp) Sample.codec () Sample.args Sample.before).1).2 =
          .ok ((State.start ()).moved none (localMarker Sample.pin)) ∧
      loadText Sample.codec () (run .fine Sample.codec () Sample.args
        (run (Sample.killedAt .openTemp) Sample.codec () Sample.args Sample.before).1).1.checkpoint =
          .ok ((State.start ()).moved none (localMarker Sample.pin)) ∧
      Kept Sample.codec () Sample.args Sample.before (run .fine Sample.codec () Sample.args
        (run (Sample.killedAt .openTemp) Sample.codec () Sample.args Sample.before).1).1) ↔
    ¬CutOff (Sample.killedAt .openTemp) Sample.codec () Sample.args Sample.before :=
  migrated_iff (Sample.killedAt .openTemp) Sample.codec () Sample.args Sample.before _ Sample.ends

/-- **A kill while the backup is written**: the next call finds an empty backup, and refuses it. -/
theorem not_migrated : ¬ ∀ (fate : Fate) (codec : Codec Sample.Piece Unit) (plain : Unit) (args : Args)
    (s : Files Sample.Piece) (migrated : State Unit), (run .fine codec plain args s).2 = .ok migrated →
      (run .fine codec plain args (run fate codec plain args s).1).2 = .ok migrated ∧
      Kept codec plain args s (run .fine codec plain args (run fate codec plain args s).1).1 := by
  intro h
  obtain ⟨hend, -⟩ := h (Sample.killedAt .writeBackup) Sample.codec () Sample.args Sample.before _ Sample.ends
  have hload : loadText Sample.codec () Sample.before.checkpoint = .ok (State.start ()) := loadText_dumps
  have hplan : planOf Sample.args (State.start ()) =
      .ok (.migrate .preLocal "checkpoint migration backup differs" none (localMarker Sample.pin)) := rfl
  have hcut : CutsOff (Sample.killedAt .writeBackup) Sample.codec .preLocal Sample.before :=
    ⟨_, rfl, rfl, rfl, by decide, fun h => by cases h⟩
  rcases run_left hload hplan (fun _ _ => .inl rfl) with ⟨hsame, hiff⟩ | ⟨-, -, hno⟩
  · exact (run_fine (hsame ▸ hload) hplan).1 (fun hclean => hiff.mp hclean hcut) _ hend
  · exact hno hcut

end Replicate
