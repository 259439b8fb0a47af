import Yataverse.EventLoop.Kill
import Yataverse.Replicate.Migrate

/-!
# A checkpoint that is saved in a run

What `state_save` and `prepare_listing_state` leave at every moment, whatever fails.

- `safe_stateSave`: the checkpoint is the old or the new one.
- `Plan.apply`: the checkpoint behind the checks.
- `safe_prepareListingState`: it is saved before the call goes on.
- `Pinned`: the arguments of a call on an inventory.
-/

namespace Replicate

open Js Lake EventLoop EventLoop.Task Fallible

variable {Text Rest : Type} {fate : Fate} {codec : Codec Text Rest} {plain : Rest} {s : Files Text} {state : State Rest}

theorem safe_perform {op : Op} {E : Files Text → Prop} (hs : E s) :
    (perform op : Call Text Unit).Safe E (fun r s' => s' = s ∧ ∀ e, r = .error e → e = .os) s := by
  refine ⟨hs, fun ok => ?_⟩
  cases ok with
  | false =>
    refine ⟨hs, rfl, fun e he => ?_⟩
    exact (Except.error.inj he).symm
  | true => exact ⟨hs, rfl, fun e he => (by cases he)⟩

/-- A file that is written is not the checkpoint. -/
theorem safe_writeFile {openOp writeOp fsyncOp : Op} {put : Text → Files Text → Files Text} {text : Text}
    (hput : ∀ a s, (put a s).checkpoint = s.checkpoint) :
    (writeFile fate codec openOp writeOp fsyncOp put text).Safe (fun s' => s'.checkpoint = s.checkpoint)
      (fun r s' => (∃ s₁, s' = put text s₁) ∧ r = .ok () ∨ r = .error .os) s := by
  refine Safe.bind (safe_perform rfl) ?_ ?_
  · rintro e s' ⟨-, he⟩
    exact .inr (congrArg Except.error (he e rfl))
  · rintro - s₁ h₁ -
    refine ⟨h₁, ?_⟩
    have h₂ : (put (codec.start 0 text) s₁).checkpoint = s.checkpoint := (hput _ _).trans h₁
    refine ⟨h₂, fun ok => ?_⟩
    cases ok with
    | false => exact ⟨h₂, (hput _ _).trans h₂, .inr rfl⟩
    | true =>
      refine ⟨h₂, (safe_perform (E := fun s' => s'.checkpoint = s.checkpoint) ((hput _ _).trans h₂)).imp
        (fun _ h => h) ?_⟩
      rintro r s' ⟨rfl, he⟩
      cases r with
      | ok u => exact .inl ⟨⟨_, rfl⟩, rfl⟩
      | error e => exact .inr (congrArg Except.error (he e rfl))

/-- **A checkpoint that is saved**: at every moment there is the old one, or the new one. -/
theorem safe_stateSave : (stateSave fate codec state).Safe
    (fun s' => s'.checkpoint = s.checkpoint ∨ s'.checkpoint = some (codec.dumps state.document))
    (fun r s' => s'.checkpoint = some (codec.dumps state.document) ∧ r = .ok () ∨ r = .error .os) s := by
  have hwrite := @safe_writeFile Text Rest fate codec s .openTemp .writeTemp .fsyncTemp Files.putTemp
    (codec.dumps state.document) fun _ _ => rfl
  refine Safe.bind (hwrite.imp (fun _ h => Or.inl h) fun _ _ h => h) ?_ ?_
  · rintro e s' (⟨-, h⟩ | h)
    · cases h
    · exact .inr (congrArg Except.error (Except.error.inj h))
  · rintro u s₁ h₁ (⟨⟨s₂, rfl⟩, -⟩ | h)
    · refine Safe.bind (safe_perform h₁) ?_ ?_
      · rintro e s' ⟨-, he⟩
        exact .inr (congrArg Except.error (he e rfl))
      · rintro - s' - ⟨rfl, -⟩
        exact ⟨h₁, .inr rfl, .inl ⟨rfl, rfl⟩⟩
    · cases h

/-! ## Plans -/

/-- The checkpoint behind the checks of `prepare_listing_state`. -/
def Plan.apply (state : State Rest) : Plan → State Rest
  | .keep => state
  | .migrate _ _ cursor marker => state.moved cursor marker

/-- The backups do not stand in the way of a plan. -/
def Plan.Ready (s : Files Text) : Plan → Prop
  | .keep => True
  | .migrate name _ _ _ => Clean name s

section Prepare

variable [DecidableEq Text] {args : Args}

theorem safe_backUp {name : Backup} {differs : String} :
    (backUp fate codec name differs).Safe (fun s' => s'.checkpoint = s.checkpoint)
      (fun r _ => r = .ok () ∨ r = .error .os ∨ ¬Clean name s) s := by
  rw [backUp]
  refine Safe.get ?_
  cases hc : s.checkpoint with
  | none => exact ⟨hc, .inl rfl⟩
  | some old =>
    cases hb : s.backups name with
    | some backup =>
      dsimp only
      split
      · exact ⟨hc, .inl rfl⟩
      · rename_i hne
        refine ⟨hc, .inr (.inr fun hclean => ?_)⟩
        rcases hclean old hc with hnone | hsame
        · rw [hb] at hnone
          cases hnone
        · exact hne (Option.some.inj (hb.symm.trans hsame))
    | none =>
      refine (safe_writeFile (Files.putBackup_checkpoint name)).imp (fun s' h => h.trans hc) fun r s' h => ?_
      rcases h with ⟨-, h⟩ | h
      · exact .inl h
      · exact .inr (.inl h)

/-- **The checkpoint behind the checks** is saved before the call goes on. -/
theorem safe_prepareListingState (hload : loadText codec plain s.checkpoint = .ok state) :
    (prepareListingState fate codec args state).Safe
      (fun s' => s'.checkpoint = s.checkpoint ∨
        ∃ plan, planOf args state = .ok plan ∧ s'.checkpoint = some (codec.dumps (plan.apply state).document))
      (fun r s' => (∃ plan, planOf args state = .ok plan ∧ r = .ok (plan.apply state) ∧
          loadText codec plain s'.checkpoint = .ok (plan.apply state)) ∨
        (∃ e, r = .error e) ∧ (r = .error .os ∨ ¬∃ plan, planOf args state = .ok plan ∧ plan.Ready s)) s := by
  rw [prepareListingState]
  cases hplan : planOf args state with
  | error e =>
    refine ⟨.inl rfl, .inr ⟨⟨e, rfl⟩, .inr ?_⟩⟩
    rintro ⟨plan, h, -⟩
    cases h
  | ok plan =>
    cases plan with
    | keep => exact ⟨.inl rfl, .inl ⟨.keep, rfl, rfl, hload⟩⟩
    | migrate name differs cursor marker =>
      have hback := @safe_backUp Text Rest fate codec s _ name differs
      change Safe _ _ ((backUp fate codec name differs).bind _) s
      refine Safe.bind (hback.imp (fun _ h => Or.inl h) fun _ _ h => h) ?_ ?_
      · rintro e s' (h | h | h)
        · cases h
        · exact .inr ⟨⟨e, rfl⟩, .inl (congrArg Except.error (Except.error.inj h))⟩
        · refine .inr ⟨⟨e, rfl⟩, .inr ?_⟩
          rintro ⟨plan, hp, hready⟩
          obtain rfl := Except.ok.inj hp
          exact h hready
      · rintro - s₁ h₁ -
        have hsave := @safe_stateSave Text Rest fate codec s₁ (state.moved cursor marker)
        refine Safe.bind (hsave.imp ?_ fun _ _ h => h) ?_ ?_
        · rintro s' (h | h)
          · exact h ▸ h₁
          · exact .inr ⟨_, rfl, h⟩
        · rintro e s' (⟨-, h⟩ | h)
          · cases h
          · exact .inr ⟨⟨e, rfl⟩, .inl (congrArg Except.error (Except.error.inj h))⟩
        · rintro u s' h' (⟨h, -⟩ | h)
          · exact ⟨h', .inl ⟨_, rfl, rfl, h ▸ loadText_dumps⟩⟩
          · cases h

/-- The checks of a checkpoint that is loaded first. -/
theorem safe_loaded {E : Files Text → Prop} {Q : Except Error (State Rest) → Files Text → Prop}
    (hload : loadText codec plain s.checkpoint = .ok state) (h : (prepareListingState fate codec args state).Safe E Q s) :
    ((stateLoad codec plain).bind (prepareListingState fate codec args)).Safe E Q s := by
  refine Safe.get ?_
  dsimp only
  rw [hload]
  exact h

end Prepare

/-! ## Calls on one inventory -/

/-- The arguments of a call on an inventory with this digest: the listing is the local one, and
the path has a file with the digest. -/
structure Pinned (sha256 : JsString) (args : Args) : Prop where
  localListing : args.localListing = true
  digest : sha256Re sha256 = true
  inventorySha256 : args.inventorySha256 = some sha256
  inventory : ∃ lines, args.inventory = some (some ⟨sha256, lines⟩)

variable {sha256 : JsString} {args : Args}

theorem Pinned.ne_nil (h : Pinned sha256 args) : sha256 ≠ [] := by
  have hre := h.digest
  rintro rfl
  cases hre

theorem markerOf_eq_some {source : Option Value} {marker : JsString} (h : markerOf source = .ok (some marker)) :
    source = some (.str marker) := by
  unfold markerOf at h
  split at h
  · cases h
  · cases h
  · obtain rfl := Option.some.inj (Except.ok.inj h)
    rfl
  · cases h

/-- A checkpoint that moves to another inventory does not stay. -/
theorem rolloverPlan_ne_keep {marker expected : JsString} {file : Option Inventory} :
    rolloverPlan args state marker file expected ≠ .ok .keep := by
  intro h
  rw [rolloverPlan] at h
  split at h
  · cases h
  · simp only [bind_eq_ok] at h
    obtain ⟨_, -, _, -, _, -, _, -, _, -, _, -, _, -, h⟩ := h
    cases h

theorem Pinned.offset_none (h : Pinned sha256 args) {file : Option Inventory} (hfile : args.inventory = some file) :
    inventoryOffset file sha256 none = .ok none := by
  obtain ⟨lines, hlines⟩ := h.inventory
  obtain rfl := Option.some.inj (hfile.symm.trans hlines)
  simp only [inventoryOffset, bind_eq_ok]
  exact ⟨(), require_eq_ok.mpr h.digest, none, rfl, (), require_eq_ok.mpr trivial, (), require_eq_ok.mpr (.inl trivial), rfl⟩

/-- A checkpoint with the marker of the inventory. -/
theorem Pinned.planOf_eq (h : Pinned sha256 args) (hmarker : state.listingSource = some (.str (localMarker sha256))) :
    ∃ file, args.inventory = some file ∧ planOf args state = pinnedPlan state file sha256 := by
  obtain ⟨lines, hlines⟩ := h.inventory
  refine ⟨_, hlines, ?_⟩
  have hhead : localMarker sha256 = unit 'l' :: (localMarker sha256).tail := rfl
  rw [planOf, hmarker]
  change (if args.localListing = true then _ else _) = _
  rw [if_pos h.localListing, hlines, h.inventorySha256]
  dsimp only
  rw [if_neg h.ne_nil, hhead]
  dsimp only
  rw [← hhead, if_pos rfl]

/-- Behind the checks of a call, the checkpoint belongs to its inventory. -/
theorem Pinned.apply (h : Pinned sha256 args) {plan : Plan} (hplan : planOf args state = .ok plan) :
    (plan.apply state).listingSource = some (.str (localMarker sha256)) ∧
      (plan.apply state).cursor.all isNumeric = true := by
  cases plan with
  | migrate name differs cursor marker =>
    obtain ⟨-, file, expected, -, hexpected, -, rfl, hcursor, -⟩ := planOf_migrate hplan
    obtain rfl := Option.some.inj (h.inventorySha256.symm.trans hexpected)
    exact ⟨rfl, hcursor⟩
  | keep =>
    -- a plan that keeps the checkpoint comes from the checks of a migrated one
    obtain ⟨lines, hlines⟩ := h.inventory
    obtain ⟨marker, hmarker, hplan⟩ := bind_eq_ok.mp hplan
    rw [if_pos h.localListing, hlines, h.inventorySha256] at hplan
    dsimp only at hplan
    rw [if_neg h.ne_nil] at hplan
    have hfirst : firstPlan state (some ⟨sha256, lines⟩) sha256 ≠ .ok .keep := by
      intro hfirst
      obtain ⟨_, -, hfirst⟩ := bind_eq_ok.mp hfirst
      obtain ⟨_, -, hfirst⟩ := bind_eq_ok.mp hfirst
      cases hfirst
    split at hplan
    · exact absurd hplan hfirst
    · exact absurd hplan hfirst
    · rename_i marker _
      split at hplan
      · rename_i hmarked
        subst hmarked
        obtain ⟨_, hcursor, -⟩ := bind_eq_ok.mp hplan
        exact ⟨markerOf_eq_some hmarker, require_eq_ok.mp hcursor⟩
      · exact absurd hplan rolloverPlan_ne_keep

theorem Plan.apply_cycles (plan : Plan) : (plan.apply state).cycles = state.cycles := by
  cases plan <;> rfl

/-- A first checkpoint gets the marker of the inventory. -/
theorem Pinned.planOf_first (h : Pinned sha256 args) (hsource : state.listingSource = none) (hcursor : state.cursor = none) :
    planOf args state = .ok (.migrate .preLocal "checkpoint migration backup differs" none (localMarker sha256)) := by
  obtain ⟨lines, hlines⟩ := h.inventory
  rw [planOf, hsource]
  change (if args.localListing = true then _ else _) = _
  rw [if_pos h.localListing, hlines, h.inventorySha256]
  dsimp only
  rw [if_neg h.ne_nil, firstPlan, hcursor]
  change (inventoryOffset _ _ none).bind _ = _
  rw [h.offset_none hlines]
  rfl

/-- The cursor of a checkpoint of the inventory, or of a first one, stays. -/
theorem Pinned.apply_cursor (h : Pinned sha256 args)
    (hmarked : state.listingSource = some (.str (localMarker sha256)) ∨ state.listingSource = none ∧ state.cursor = none)
    {plan : Plan} (hplan : planOf args state = .ok plan) : (plan.apply state).cursor = state.cursor := by
  rcases hmarked with hmarker | ⟨hsource, hcursor⟩
  · obtain ⟨file, -, heq⟩ := h.planOf_eq hmarker
    rw [heq, pinnedPlan] at hplan
    obtain ⟨_, -, hplan⟩ := bind_eq_ok.mp hplan
    obtain ⟨_, -, hplan⟩ := bind_eq_ok.mp hplan
    obtain rfl := Except.ok.inj hplan
    rfl
  · rw [h.planOf_first hsource hcursor] at hplan
    obtain rfl := Except.ok.inj hplan
    exact hcursor.symm

/-- A checkpoint of the inventory is kept as it is. -/
theorem Pinned.keeps (h : Pinned sha256 args) (hmarker : state.listingSource = some (.str (localMarker sha256)))
    (hcursor : state.cursor.all isNumeric = true) : planOf args state = .ok .keep := by
  obtain ⟨file, hfile, hplan⟩ := h.planOf_eq hmarker
  rw [hplan, pinnedPlan, bind_eq_ok]
  refine ⟨(), require_eq_ok.mpr hcursor, ?_⟩
  rw [h.offset_none hfile]
  rfl

end Replicate
