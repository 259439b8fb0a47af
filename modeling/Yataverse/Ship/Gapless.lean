import Yataverse.Cover.Consecutive
import Yataverse.Ship.Once

/-!
# Shipping leaves no gap

Every row behind the checkpoint has been dealt with: it lies in a range that the importer has
completed, or its skip is on record. A call may fail at any command and may be killed between
any two operations, and the next call may have other bounds.

- `Piece`: what the checkpoint moves over in one call.
- `Done`: what is on record for a piece.
- `Inv`: the pieces follow each other from the start row up to the checkpoint.
- `gapless`: so they do in every state that calls can reach.
- `ExactlyOnce`: the stronger statement, in which the importer has no complete receipt for
  a second range with a row, and none for a CAR that is not the exported one. It fails after
  a call that is killed before its checkpoint, and for CARv2 archives.
-/

namespace Ship

open Js EventLoop Fallible Function Lake Cover

/-! ## What is on record -/

/-- What the checkpoint moves over in one call. -/
inductive Piece where
  | range (n : Name)
  | skip (row : Nat)

def Piece.lo : Piece → Nat
  | range n => n.1
  | skip row => row

def Piece.hi : Piece → Nat
  | range n => n.2
  | skip row => row + 1

/-- The importer has returned a complete receipt for the range, of a CAR with this SHA-256. -/
def Imported (s : Durable) (n : Name) (sha256 : JsString) : Prop :=
  ∃ i ∈ s.imports, i.complete = true ∧ i.startRow = some n.1 ∧ i.endRow = some n.2 ∧
    i.carSha256 = some sha256 ∧ i.blocks = some n.blocks

/-- A CAR with this SHA-256 is the exported one, or the CARv2 that was packed from it. -/
def Exported (s : Durable) (n : Name) (sha256 : JsString) : Prop :=
  ∃ e, s.exports n = some e ∧ (e.sha256 = some sha256 ∨
    ∃ p ∈ s.packs, p.carv1Sha256 = e.sha256 ∧ p.carv2Sha256 = sha256)

/-- The skip of a row is on record, and was verified. -/
def SkipSaved (cfg : Config) (s : Durable) (row : Nat) : Prop :=
  ∃ k, s.skips row = some k ∧ k ∈ s.verified ∧ ∃ raw, skipOf cfg.inventory raw row = .ok k

/-- What is on record for a piece. -/
def Done (cfg : Config) (s : Durable) : Piece → Prop
  | .range n => ∃ sha256, Imported s n sha256 ∧ Exported s n sha256
  | .skip row => SkipSaved cfg s row

/-- The pieces follow each other up to the checkpoint. -/
def Covered (cfg : Config) (s : Durable) (cursor : Nat) : Prop :=
  ∃ pieces, Consecutive Piece.lo Piece.hi cfg.startRow pieces cursor ∧ ∀ p ∈ pieces, Done cfg s p

/-- The invariant of the state directory. -/
structure Inv (cfg : Config) (s : Durable) : Prop where
  covered : Covered cfg s (s.cursor cfg)
  /-- A saved skip was verified, also while the checkpoint has not moved over its row. -/
  skips : ∀ row, s.skips row ≠ none → SkipSaved cfg s row

variable {cfg : Config} {a : Args} {s s' s'' : Durable} {n : Name} {start : Nat} {α β : Type}

/-- What a call does before the checkpoint moves: no record is lost or replaced. -/
structure Grows (s s' : Durable) : Prop where
  checkpoint : s'.checkpoint = s.checkpoint
  skips : ∀ row k, s.skips row = some k → s'.skips row = some k
  exports : ∀ n e, s.exports n = some e → s'.exports n = some e
  verified : s.verified ⊆ s'.verified
  imports : s.imports ⊆ s'.imports
  packs : s.packs ⊆ s'.packs

theorem Grows.refl (s : Durable) : Grows s s :=
  ⟨rfl, fun _ _ h => h, fun _ _ h => h, List.Subset.refl _, List.Subset.refl _, List.Subset.refl _⟩

theorem Grows.trans (h : Grows s s') (h' : Grows s' s'') : Grows s s'' where
  checkpoint := h'.checkpoint.trans h.checkpoint
  skips row k hk := h'.skips row k (h.skips row k hk)
  exports n e he := h'.exports n e (h.exports n e he)
  verified := List.Subset.trans h.verified h'.verified
  imports := List.Subset.trans h.imports h'.imports
  packs := List.Subset.trans h.packs h'.packs

theorem Grows.cursor (h : Grows s s') : s'.cursor cfg = s.cursor cfg := by
  unfold Durable.cursor
  rw [h.checkpoint]

theorem SkipSaved.grows {row : Nat} (h : SkipSaved cfg s row) (g : Grows s s') : SkipSaved cfg s' row := by
  obtain ⟨k, hk, hver, hof⟩ := h
  exact ⟨k, g.skips row k hk, g.verified hver, hof⟩

theorem Imported.grows {sha256 : JsString} (h : Imported s n sha256) (g : Grows s s') :
    Imported s' n sha256 := by
  obtain ⟨i, hi, hmatch⟩ := h
  exact ⟨i, g.imports hi, hmatch⟩

theorem Exported.grows {sha256 : JsString} (h : Exported s n sha256) (g : Grows s s') :
    Exported s' n sha256 := by
  obtain ⟨e, he, hsha | ⟨p, hp, hpack⟩⟩ := h
  · exact ⟨e, g.exports n e he, .inl hsha⟩
  · exact ⟨e, g.exports n e he, .inr ⟨p, g.packs hp, hpack⟩⟩

theorem Done.grows {p : Piece} (h : Done cfg s p) (g : Grows s s') : Done cfg s' p := by
  cases p with
  | range n =>
    obtain ⟨sha256, himp, hexp⟩ := h
    exact ⟨sha256, himp.grows g, hexp.grows g⟩
  | skip row => exact SkipSaved.grows h g

theorem Covered.grows {cursor : Nat} (h : Covered cfg s cursor) (g : Grows s s') : Covered cfg s' cursor := by
  obtain ⟨pieces, hcons, hdone⟩ := h
  exact ⟨pieces, hcons, fun p hp => (hdone p hp).grows g⟩

/-- A new skip record apart, the invariant is kept. -/
theorem Inv.grows (h : Inv cfg s) (g : Grows s s')
    (hskips : ∀ row, s'.skips row ≠ none → s.skips row ≠ none ∨ SkipSaved cfg s' row) : Inv cfg s' := by
  refine ⟨?_, fun row hrow => ?_⟩
  · rw [g.cursor]
    exact h.covered.grows g
  · obtain hold | hnew := hskips row hrow
    · exact (h.skips row hold).grows g
    · exact hnew

/-- **The checkpoint moves over a piece** that is done. -/
theorem Inv.advance {p : Piece} (h : Inv cfg s) (hlo : p.lo = s.cursor cfg) (hlt : p.lo < p.hi)
    (hdone : Done cfg s p) : Inv cfg (s.setCheckpoint cfg p.hi) := by
  refine ⟨?_, h.skips⟩
  obtain ⟨pieces, hcons, hall⟩ := h.covered
  refine ⟨pieces ++ [p], hcons.concat hlo hlt, fun q hq => ?_⟩
  obtain hq | hq := List.mem_append.mp hq
  · have := hall q hq
    cases q <;> exact this
  · obtain rfl := List.mem_singleton.mp hq
    cases q <;> exact hdone

/-! ## Before the checkpoint moves -/

/-- The invariant, with the checkpoint at the row `start`. -/
structure At (cfg : Config) (start : Nat) (s : Durable) : Prop where
  inv : Inv cfg s
  cursor : s.cursor cfg = start

/-- An operation that writes no skip record. -/
theorem At.grows (h : At cfg start s) (g : Grows s s') (hskips : s'.skips = s.skips) : At cfg start s' :=
  ⟨h.inv.grows g fun row hrow => .inl (by rwa [← hskips]), g.cursor.trans h.cursor⟩

/-- How a part of a call ends: records have been added, and where it succeeds `Q` holds. -/
def Ends (s : Durable) (Q : α → Durable → Prop) (r : Except String α) (s' : Durable) : Prop :=
  Grows s s' ∧ ∀ a, r = .ok a → Q a s'

theorem Ends.imp {t : Prog α} {Q Q' : α → Durable → Prop} (h : t.Safe (At cfg start) (Ends s Q) s)
    (hQ : ∀ a s', Q a s' → Q' a s') : t.Safe (At cfg start) (Ends s Q') s := by
  refine Task.Safe.imp (fun _ h => h) ?_ h
  rintro r s' ⟨hgrows, h⟩
  exact ⟨hgrows, fun a ha => hQ a s' (h a ha)⟩

/-- One part after the other. -/
theorem Ends.bind {t : Prog α} {f : α → Prog β} {Q : α → Durable → Prop} {Q' : β → Durable → Prop}
    (h : t.Safe (At cfg start) (Ends s Q) s)
    (hf : ∀ a s', At cfg start s' → Grows s s' → Q a s' → (f a).Safe (At cfg start) (Ends s' Q') s') :
    (t.bind f).Safe (At cfg start) (Ends s Q') s := by
  refine h.bind ?_ fun a s' hat hend => ?_
  · rintro e s' ⟨hgrows, -⟩
    exact ⟨hgrows, fun a ha => by cases ha⟩
  · refine (hf a s' hat hend.1 (hend.2 a rfl)).imp (fun _ h => h) ?_
    rintro r s'' ⟨hgrows, hQ⟩
    exact ⟨hend.1.trans hgrows, hQ⟩

/-- The last part moves the checkpoint. -/
theorem Ends.inv {t : Prog α} {f : α → Prog β} {Q : α → Durable → Prop}
    (h : t.Safe (At cfg start) (Ends s Q) s)
    (hf : ∀ a s', At cfg start s' → Grows s s' → Q a s' → (f a).Safe (Inv cfg) (fun _ _ => True) s') :
    (t.bind f).Safe (Inv cfg) (fun _ _ => True) s := by
  refine (h.held.imp (fun _ h => h.inv) fun _ _ h => h).bind (fun _ _ _ => trivial) ?_
  rintro a s' - ⟨hat, hgrows, hQ⟩
  exact hf a s' hat hgrows (hQ a rfl)

/-! ### Checks, receipts and commands -/

theorem check_ends {c : Prop} [Decidable c] {e : String} (h : At cfg start s) :
    (check c e).Safe (At cfg start) (Ends s fun _ s' => s' = s ∧ c) s := by
  unfold check
  split
  · rename_i hc
    exact ⟨h, .refl s, fun _ _ => ⟨rfl, hc⟩⟩
  · exact ⟨h, .refl s, fun _ h => by cases h⟩

theorem receipt_ends {e : String} {o : Option α} (h : At cfg start s) :
    (receipt e o).Safe (At cfg start) (Ends s fun a s' => s' = s ∧ o = some a) s := by
  cases o with
  | none => exact ⟨h, .refl s, fun _ h => by cases h⟩
  | some a =>
    refine ⟨h, .refl s, fun b hb => ?_⟩
    obtain rfl := Except.ok.inj hb
    exact ⟨rfl, rfl⟩

theorem run_ends {r : Run} (h : At cfg start s) :
    (run r).Safe (At cfg start) (Ends s fun _ s' => s' = s) s := by
  refine ⟨h, fun ok => ?_⟩
  exact Ends.imp (check_ends h) fun _ _ h => h.1

/-- The task has ended. -/
theorem ret_ends {Q : α → Durable → Prop} {a : α} (h : At cfg start s) (hQ : Q a s) :
    (Task.ret a : Prog α).Safe (At cfg start) (Ends s Q) s := by
  refine ⟨h, .refl s, fun b hb => ?_⟩
  obtain rfl := Except.ok.inj hb
  exact hQ

/-- An operation that adds to the records, and the rest. -/
theorem upd_ends {Q : α → Durable → Prop} {f : Durable → Durable} {t : Prog α} (h : At cfg start s)
    (g : Grows s (f s)) (hskips : (f s).skips = s.skips)
    (ht : At cfg start (f s) → t.Safe (At cfg start) (Ends (f s) Q) (f s)) :
    (Task.upd f t : Prog α).Safe (At cfg start) (Ends s Q) s := by
  refine ⟨h, (ht (h.grows g hskips)).imp (fun _ h => h) ?_⟩
  rintro r s' ⟨hgrows, hQ⟩
  exact ⟨g.trans hgrows, hQ⟩

theorem Grows.setCar {sha256 : Option JsString} : Grows s (s.setCar n sha256) :=
  ⟨rfl, fun _ _ h => h, fun _ _ h => h, List.Subset.refl _, List.Subset.refl _, List.Subset.refl _⟩

theorem Grows.setArchive {sha256 : Option (JsString × Nat)} : Grows s (s.setArchive n sha256) :=
  ⟨rfl, fun _ _ h => h, fun _ _ h => h, List.Subset.refl _, List.Subset.refl _, List.Subset.refl _⟩

/-! ### The parts of a call -/

theorem runExport_ends (h : At cfg start s) :
    (runExport a n).Safe (At cfg start) (Ends s fun _ s' => s'.exports = s.exports) s := by
  unfold runExport
  split
  · refine ⟨h, fun r => ?_⟩
    refine Ends.bind (check_ends h) ?_
    rintro - s₁ h - ⟨rfl, -⟩
    refine ⟨h, fun f => ?_⟩
    refine upd_ends h .setCar rfl fun h => ⟨h, fun f => ?_⟩
    refine upd_ends h .setCar rfl fun h => ?_
    refine Ends.bind (check_ends h) ?_
    rintro - s₂ h - ⟨rfl, -⟩
    refine Ends.imp (receipt_ends h) ?_
    rintro e s' ⟨rfl, -⟩
    rfl
  · refine Ends.bind (run_ends h) ?_
    rintro - s₁ h - rfl
    refine ⟨h, fun f => ?_⟩
    refine upd_ends h .setCar rfl fun h => ⟨h, fun r => ?_⟩
    refine upd_ends h .setCar rfl fun h => ?_
    refine Ends.bind (check_ends h) ?_
    rintro - s₂ h - ⟨rfl, -⟩
    refine Ends.imp (receipt_ends h) ?_
    rintro e s' ⟨rfl, -⟩
    rfl

theorem newExport_ends (h : At cfg start s) (hnone : s.exports n = none) :
    (newExport a n).Safe (At cfg start) (Ends s fun e s' => s'.exports n = some e) s := by
  refine Ends.bind (runExport_ends h) ?_
  rintro e s₁ h - hexp
  refine .get (Ends.bind (check_ends h) ?_)
  rintro - s₂ h - ⟨rfl, -⟩
  refine upd_ends h ?_ rfl fun h => ret_ends h (update_self n (some e) s₂.exports)
  -- the range has no receipt yet: nothing is replaced
  refine ⟨rfl, fun _ _ h => h, fun m e' he' => ?_, List.Subset.refl _, List.Subset.refl _, List.Subset.refl _⟩
  have hm : m ≠ n := by
    rintro rfl
    rw [hexp, hnone] at he'
    cases he'
  exact (update_of_ne hm (some e) s₂.exports).trans he'

theorem exported_ends (h : At cfg start s) :
    (exported a n).Safe (At cfg start) (Ends s fun e s' => s'.exports n = some e) s := by
  unfold exported
  refine .get ?_
  cases hsaved : s.exports n with
  | none => exact newExport_ends h hsaved
  | some e =>
    refine .get (Ends.bind (check_ends h) ?_)
    rintro - s₁ h - ⟨rfl, -⟩
    exact ret_ends h hsaved

theorem packed_ends {e : Export} (h : At cfg start s) :
    (packed a n e).Safe (At cfg start)
      (Ends s fun o s' => ∀ p, o = some p → p ∈ s'.packs ∧ p.carv1Sha256 = e.sha256) s := by
  unfold packed
  split
  · refine Ends.bind (Q := fun p s' => p ∈ s'.packs ∧ p.carv1Sha256 = e.sha256) ?_ ?_
    · refine ⟨h, fun f => ?_⟩
      refine upd_ends h .setArchive rfl fun h => ⟨h, fun r => ?_⟩
      refine upd_ends h .setArchive rfl fun h => ?_
      refine Ends.bind (receipt_ends h) ?_
      rintro p s₁ h - ⟨rfl, -⟩
      refine .get (Ends.bind (check_ends h) ?_)
      rintro - s₂ h - ⟨rfl, -, hsha, -⟩
      refine upd_ends h ?_ rfl fun h => ret_ends h ⟨.head _, hsha⟩
      exact ⟨rfl, fun _ _ h => h, fun _ _ h => h, List.Subset.refl _, List.Subset.refl _,
        List.subset_cons_self p _⟩
    · rintro p s₁ h - hp
      refine ret_ends h fun q hq => ?_
      obtain rfl := Option.some.inj hq
      exact hp
  · exact ret_ends h fun p hp => by cases hp

theorem transfer_ends {p : Option Pack} (h : At cfg start s) :
    (transfer a n p).Safe (At cfg start) (Ends s fun _ s' => s' = s) s := by
  unfold transfer
  split
  · refine Ends.bind (receipt_ends h) ?_
    rintro - s₁ h - ⟨rfl, -⟩
    refine Ends.bind (run_ends h) ?_
    rintro - s₂ h - rfl
    exact run_ends h
  · exact run_ends h

theorem unpackRemoteArchive_ends {p : Option Pack} (h : At cfg start s) :
    (unpackRemoteArchive n p).Safe (At cfg start) (Ends s fun _ s' => s' = s) s := by
  cases p with
  | none => exact ret_ends h rfl
  | some p =>
    refine ⟨h, fun r => ?_⟩
    refine Ends.bind (receipt_ends h) ?_
    rintro u s₁ h - ⟨rfl, -⟩
    exact Ends.imp (check_ends h) fun _ _ h => h.1

theorem imported_ends {sha256 : JsString} (h : At cfg start s) :
    (imported n sha256).Safe (At cfg start) (Ends s fun _ s' => Imported s' n sha256) s := by
  refine ⟨h, fun r => ?_⟩
  refine Ends.bind (receipt_ends h) ?_
  rintro i s₁ h - ⟨rfl, -⟩
  refine upd_ends h ?_ rfl fun h => ?_
  · exact ⟨rfl, fun _ _ h => h, fun _ _ h => h, List.Subset.refl _, List.subset_cons_self i _,
      List.Subset.refl _⟩
  · refine Ends.bind (check_ends h) ?_
    rintro - s₂ h - ⟨rfl, hmatch⟩
    exact ret_ends h ⟨i, .head _, hmatch⟩

theorem archiveManifest_ends {i : Import} {p : Option Pack} (h : At cfg start s) :
    (archiveManifest a n i p).Safe (At cfg start) (Ends s fun _ _ => True) s := by
  unfold archiveManifest
  split
  · refine Ends.bind (receipt_ends h) ?_
    rintro p s₁ h - ⟨rfl, -⟩
    refine .get (Ends.bind (Q := fun _ _ => True) ?_ ?_)
    · cases s₁.manifests n with
      | some m => exact Ends.imp (check_ends h) fun _ _ _ => trivial
      | none =>
        refine upd_ends h ?_ rfl fun h => ret_ends h trivial
        exact ⟨rfl, fun _ _ h => h, fun _ _ h => h, List.Subset.refl _, List.Subset.refl _, List.Subset.refl _⟩
    · rintro - s₂ h - -
      exact Ends.imp (run_ends h) fun _ _ _ => trivial
  · exact ret_ends h trivial

theorem runIf_ends {c : Bool} {r : Run} (h : At cfg start s) :
    (runIf c r).Safe (At cfg start) (Ends s fun _ s' => s' = s) s := by
  unfold runIf
  split
  · exact run_ends h
  · exact ret_ends h rfl

/-! ## A call keeps the invariant -/

theorem advance_inv (h : At cfg n.1 s) (hlt : n.1 < n.2) (hdone : Done cfg s (.range n)) :
    (advance cfg a n).Safe (Inv cfg) (fun _ _ => True) s := by
  refine Ends.inv (run_ends h) ?_
  rintro - s₁ h - rfl
  refine Ends.inv (runIf_ends h) ?_
  rintro - s₂ h - rfl
  have hinv : Inv cfg (s₂.setCheckpoint cfg n.2) := h.inv.advance (p := .range n) h.cursor.symm hlt hdone
  have hcar : Inv cfg ((s₂.setCheckpoint cfg n.2).setCar n none) := hinv.grows .setCar fun _ h => .inl h
  have harchive : Inv cfg (((s₂.setCheckpoint cfg n.2).setCar n none).setArchive n none) :=
    hcar.grows .setArchive fun _ h => .inl h
  exact ⟨h.inv, hinv, hcar, harchive, trivial⟩

theorem shipRange_inv (h : At cfg n.1 s) (hlt : n.1 < n.2) :
    (shipRange cfg a n).Safe (Inv cfg) (fun _ _ => True) s := by
  refine Ends.inv (exported_ends h) ?_
  rintro e s₁ h - hexp
  refine Ends.inv (packed_ends h) ?_
  rintro p s₂ h g₂ hpack
  refine Ends.inv (receipt_ends h) ?_
  rintro sha256 s₃ h - ⟨rfl, hsha⟩
  refine Ends.inv (transfer_ends h) ?_
  rintro - s₄ h - rfl
  refine Ends.inv (unpackRemoteArchive_ends h) ?_
  rintro - s₅ h - rfl
  have hexported : Exported s₅ n sha256 := by
    refine ⟨e, g₂.exports n e hexp, ?_⟩
    cases p with
    | none => exact .inl hsha
    | some p => exact .inr ⟨p, (hpack p rfl).1, (hpack p rfl).2, Option.some.inj hsha⟩
  refine Ends.inv (imported_ends h) ?_
  rintro i s₆ h g₆ himp
  refine Ends.inv (archiveManifest_ends h) ?_
  rintro - s₇ h g₇ -
  exact advance_inv h hlt ⟨sha256, himp.grows g₇, (hexported.grows g₆).grows g₇⟩

theorem verifySkip_ends {k : Skipped} (h : At cfg start s) :
    (verifySkip cfg a k).Safe (At cfg start) (Ends s fun _ s' => s' = s) s := by
  unfold verifySkip
  cases k.reason with
  | rawBlockStore => exact run_ends h
  | oversized =>
    show (verifyLargeArchive cfg a k).Safe _ _ s
    refine Ends.bind (check_ends h) ?_
    rintro - s₁ h - ⟨rfl, -⟩
    refine ⟨h, fun l => ?_⟩
    refine Ends.bind (receipt_ends h) ?_
    rintro l s₂ h - ⟨rfl, -⟩
    exact Ends.imp (check_ends h) fun _ _ h => h.1

/-- A row is skipped: the record is written when the copy has been verified. -/
theorem skipRow_inv {k : Skipped} {raw : List JsString} (h : At cfg k.row s)
    (hof : skipOf cfg.inventory raw k.row = .ok k) :
    (skipRow cfg a k).Safe (Inv cfg) (fun _ _ => True) s := by
  refine Ends.inv (verifySkip_ends h) ?_
  rintro - s₁ h - rfl
  have hverified : Grows s₁ { s₁ with verified := k :: s₁.verified } :=
    ⟨rfl, fun _ _ h => h, fun _ _ h => h, List.subset_cons_self k _, List.Subset.refl _, List.Subset.refl _⟩
  refine ⟨h.inv, ?_⟩
  replace h := h.grows hverified rfl
  refine Task.Safe.bind (P := fun r s => s.cursor cfg = k.row ∧ (r = .ok () → SkipSaved cfg s k.row)) ?_
    (fun _ _ _ => trivial) ?_
  · refine .get ?_
    cases hsaved : s₁.skips k.row with
    | some saved =>
      refine Task.Safe.imp (fun _ h => h.inv) ?_ (check_ends h).held
      rintro r s' ⟨hat, hgrows, hQ⟩
      refine ⟨hat.cursor, fun hok => ?_⟩
      obtain ⟨rfl, rfl⟩ := hQ () hok
      exact ⟨saved, hsaved, .head _, raw, hof⟩
    | none =>
      have hsave : SkipSaved cfg { s₁ with
          verified := k :: s₁.verified, skips := update s₁.skips k.row (some k) } k.row :=
        ⟨k, update_self k.row (some k) s₁.skips, .head _, raw, hof⟩
      refine ⟨h.inv, h.inv.grows ?_ ?_, h.cursor, fun _ => hsave⟩
      · refine ⟨rfl, fun row k' hk' => ?_, fun _ _ h => h, List.Subset.refl _, List.Subset.refl _,
          List.Subset.refl _⟩
        have hrow : row ≠ k.row := by
          rintro rfl
          cases hsaved.symm.trans hk'
        exact (update_of_ne hrow (some k) s₁.skips).trans hk'
      · intro row hrow
        by_cases hk : row = k.row
        · exact .inr (hk ▸ hsave)
        · left
          rwa [← update_of_ne hk (some k) s₁.skips]
  · rintro ⟨⟩ s₂ hinv ⟨hcur, hskip⟩
    exact ⟨hinv, hinv.advance (p := .skip k.row) hcur.symm (Nat.lt_succ_self _) (hskip rfl), trivial⟩

theorem selectedRows_selected {impl : Impl} {inv : Inventory} {raw : List JsString} {maxBlocks maxBytes : Nat}
    {r : List Row × Option Skipped} (h : impl.selectedRows inv raw start maxBlocks maxBytes = .ok r) :
    Selected inv raw start maxBlocks r := by
  cases impl with
  | python => exact pySelectedRows_selected h
  | kotoba => exact kotobaSelectedRows_selected h

theorem ofExcept_ends {r : Except String α} (h : At cfg start s) :
    (ofExcept r).Safe (At cfg start) (Ends s fun a s' => s' = s ∧ r = .ok a) s := by
  cases r with
  | error e => exact ⟨h, .refl s, fun _ h => by cases h⟩
  | ok a => exact ret_ends h ⟨rfl, rfl⟩

theorem shipFrom_inv {impl : Impl} {raw : List JsString} {stop : Nat} (h : At cfg start s)
    (hstop : stop ≤ cfg.inventory.length) :
    (shipFrom impl cfg a raw stop start).Safe (Inv cfg) (fun _ _ => True) s := by
  refine Ends.inv (check_ends h) ?_
  rintro - s₁ h - ⟨rfl, hle⟩
  split
  · exact ⟨h.inv, trivial⟩
  · rename_i hne
    refine Ends.inv (ofExcept_ends h) ?_
    rintro ⟨rows, skip⟩ s₂ h - ⟨rfl, hsel⟩
    cases selectedRows_selected hsel with
    | ended hend => omega
    | range hrows hrange =>
      have := List.length_pos_iff.mpr hrows
      exact shipRange_inv h (Nat.lt_add_of_pos_right this)
    | skipped hof =>
      obtain rfl := skipOf_row hof
      exact skipRow_inv h hof

/-- **A call keeps the invariant**, at every one of its operations. -/
theorem shipOnce_inv {impl : Impl} (h : Inv cfg s) :
    (shipOnce impl cfg a).Safe (Inv cfg) (fun _ _ => True) s := by
  have hat : At cfg (s.cursor cfg) s := ⟨h, rfl⟩
  refine Ends.inv (check_ends hat) ?_
  rintro - s₁ hat - ⟨rfl, -, -, -, hstop⟩
  refine Ends.inv (check_ends hat) ?_
  rintro - s₂ hat - ⟨rfl, -⟩
  refine Ends.inv (receipt_ends hat) ?_
  rintro raw s₃ hat - ⟨rfl, -⟩
  refine .get (Ends.inv (check_ends hat) ?_)
  rintro - s₄ hat - ⟨rfl, -⟩
  exact shipFrom_inv hat hstop

theorem inv_start : Inv cfg .start :=
  ⟨⟨[], rfl, fun _ h => by cases h⟩, fun _ h => absurd rfl h⟩

/-- A sequence of calls keeps the invariant. -/
theorem runs_inv (calls : List Call) (h : Inv cfg s) : Inv cfg (runs cfg calls s) := by
  induction calls generalizing s with
  | nil => exact h
  | cons c calls ih => exact ih (shipOnce_inv h).upTo.1

/-- **No gap**: in every state that calls can reach, the rows behind the checkpoint are in
pieces that follow each other, each of them shipped or skipped. -/
theorem gapless (cfg : Config) (calls : List Call) :
    cfg.startRow ≤ (runs cfg calls .start).cursor cfg ∧
    ∃ pieces, Consecutive Piece.lo Piece.hi cfg.startRow pieces ((runs cfg calls .start).cursor cfg) ∧
      (∀ p ∈ pieces, Done cfg (runs cfg calls .start) p) ∧
      ∀ row, cfg.startRow ≤ row → row < (runs cfg calls .start).cursor cfg →
        ∃! p, p ∈ pieces ∧ p.lo ≤ row ∧ row < p.hi := by
  obtain ⟨pieces, hcons, hdone⟩ := (runs_inv calls inv_start).covered
  exact ⟨hcons.le, pieces, hcons, hdone, fun row hlo hhi => hcons.existsUnique hlo hhi⟩

/-! ## Not exactly once -/

/-- Every row behind the checkpoint lies in exactly one range of which the importer has
completed the exported CAR, or its skip is on record. -/
def ExactlyOnce (cfg : Config) (s : Durable) : Prop :=
  cfg.startRow ≤ s.cursor cfg ∧ ∀ row, cfg.startRow ≤ row → row < s.cursor cfg →
    (∃! n : Name, (n.1 ≤ row ∧ row < n.2) ∧
      ∃ e sha256, s.exports n = some e ∧ e.sha256 = some sha256 ∧ Imported s n sha256) ∨
    SkipSaved cfg s row

namespace Sample

/-- A CID: `b` and letters. -/
def cid (c : String) : JsString := js ("bafkreiaaaaaaaaaaaaaaaaaaaaaaaaa" ++ c)

def car : JsString := List.replicate 64 (UInt16.ofNat 97)

def carv2 : JsString := List.replicate 64 (UInt16.ofNat 98)

def config : Config := ⟨[some ⟨cid "a", 10⟩, some ⟨cid "b", 20⟩], car, 0⟩

def args (maxBlocks : Nat) (packing : Bool) : Args := ⟨some [], none, maxBlocks, 100000, true, packing, false, false⟩

/-- Every command succeeds. The importer has the CARv2 if there is one. -/
def answer : (c : Cmd) → Reply c
  | .run _ => true
  | .readLargeArchive _ => none
  | .exportCar n _ => (true, some ⟨true, some n.1, some n.2, some n.blocks, some car⟩, none)
  | .writingCar _ => none
  | .writingArchive _ => none
  | .fetchCar _ => (true, some car)
  | .packCar n => (some ⟨true, some car, carv2, car, some n.blocks, 5, 7⟩, some (car, 5))
  | .unpackCar n => some ⟨true, car, carv2, some n.blocks⟩
  | .importCar n sha256 => some ⟨true, some n.1, some n.2, some n.blocks, some sha256, js "root"⟩

def call (maxBlocks : Nat) (packing : Bool) (kill : Nat) : Call :=
  ⟨.python, args maxBlocks packing, kill, fun _ => answer⟩

/-- The range is shipped as a CARv2 archive. -/
def archived : Durable := runs config [call 2 true 100] .start

/-- A call is killed behind the importer's receipt, and the next one has another bound. -/
def rerun : Durable := runs config [call 2 false 9, call 1 false 100] .start

/-- The importer's one receipt is for the CARv2 archive. -/
theorem archived_receipts : archived.skips 0 = none ∧ 0 < archived.cursor config ∧ carv2 ≠ car ∧
    archived.imports = [⟨true, some 0, some 2, some 2, some carv2, js "root"⟩] ∧
    archived.exports (0, 2) = some ⟨true, some 0, some 2, some 2, some car⟩ := by
  decide +kernel

theorem not_exactlyOnce_archived : ¬ ExactlyOnce config archived := by
  obtain ⟨hskips, hcur, hdiffers, himports, hexports⟩ := archived_receipts
  rintro ⟨-, hrows⟩
  obtain ⟨⟨lo, hi⟩, ⟨-, e, sha256, hexp, hsha, i, hi', -, hlo, hhi, hcar, -⟩, -⟩ | ⟨k, hk, -⟩ :=
    hrows 0 (Nat.le_refl 0) hcur
  · rw [himports] at hi'
    obtain rfl := List.mem_singleton.mp hi'
    obtain rfl : 0 = lo := Option.some.inj hlo
    obtain rfl : 2 = hi := Option.some.inj hhi
    obtain rfl := Option.some.inj (hexports.symm.trans hexp)
    have hsame : carv2 = car := Option.some.inj (hcar.trans hsha.symm)
    exact hdiffers hsame
  · cases hskips.symm.trans hk

/-- Both ranges with the first row are complete. -/
theorem rerun_receipts : rerun.skips 0 = none ∧ 0 < rerun.cursor config ∧
    rerun.imports = [⟨true, some 0, some 1, some 1, some car, js "root"⟩,
      ⟨true, some 0, some 2, some 2, some car, js "root"⟩] ∧
    rerun.exports (0, 1) = some ⟨true, some 0, some 1, some 1, some car⟩ ∧
    rerun.exports (0, 2) = some ⟨true, some 0, some 2, some 2, some car⟩ := by
  decide +kernel

theorem not_exactlyOnce_rerun : ¬ ExactlyOnce config rerun := by
  obtain ⟨hskips, hcur, himports, hexports, hexports'⟩ := rerun_receipts
  rintro ⟨-, hrows⟩
  obtain ⟨n, -, huniq⟩ | ⟨k, hk, -⟩ := hrows 0 (Nat.le_refl 0) hcur
  · have hshort : ((0, 1) : Name) = n := by
      refine huniq (0, 1) ⟨by decide, _, car, hexports, rfl, ?_⟩
      exact ⟨_, himports ▸ List.Mem.head _, rfl, rfl, rfl, rfl, rfl⟩
    have hlong : ((0, 2) : Name) = n := by
      refine huniq (0, 2) ⟨by decide, _, car, hexports', rfl, ?_⟩
      exact ⟨_, himports ▸ List.Mem.tail _ (.head _), rfl, rfl, rfl, rfl, rfl⟩
    exact absurd (hshort.trans hlong.symm) (by decide)
  · cases hskips.symm.trans hk

end Sample

/-- **Not exactly once**: neither with CARv2 archives, nor where a call is killed
behind its import and the next one has another bound. -/
theorem not_exactlyOnce :
    ¬ ExactlyOnce Sample.config (runs Sample.config [Sample.call 2 true 100] .start) ∧
    ¬ ExactlyOnce Sample.config (runs Sample.config [Sample.call 2 false 9, Sample.call 1 false 100] .start) :=
  ⟨Sample.not_exactlyOnce_archived, Sample.not_exactlyOnce_rerun⟩

end Ship
