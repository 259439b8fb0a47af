import Yataverse.BlockIngest.Sequence

/-!
# Head targets and replays

Two properties of requests handled one at a time.

- `HeadsHeld`: each stored head names a block its signer holds. A PUT of a head
  establishes it, and a DELETE does not look at the heads: `heads_held_iff`.
- `Replays`: exact repetitions of earlier requests, put anywhere into a sequence. A PUT
  and a DELETE of one CID do not commute: `replays_harmless_iff`.
-/

namespace BlockIngest

open Js GraphHead EventLoop

variable {nc : NodeCrypto} {opts : Opts}

/-! ## What a head names -/

/-- The CID a head names. -/
def target (w : World) (suffix name : JsString) : Json := (w.1.head suffix name).get (js "cid")

/-- Each stored head names a block its signer holds. -/
def HeadsHeld (w : World) : Prop :=
  ∀ suffix name cid, target w suffix name = .str cid → w.holds ⟨suffix, cid⟩ = true

theorem target_congr {w w' : World} (h : w'.1.heads = w.1.heads) (suffix name : JsString) :
    target w' suffix name = target w suffix name := by
  rw [target, target, Files.head, Files.head, Files.readAll, Files.readAll, h]

theorem headsHeld_fresh : HeadsHeld .fresh := nofun

/-- A request keeps the heads held, unless it is a DELETE of a block that one of them names. -/
theorem HeadsHeld.after {w : World} (h : HeadsHeld w) {req : Int × Request}
    (hdel : ∀ p name, blockOp nc opts req.1 req.2 = some (p, .delete) →
      target w p.suffix name ≠ .str p.cid) : HeadsHeld (after nc opts w req) := by
  intro suffix name cid ht
  cases hop : blockOp nc opts req.1 req.2 with
  | some v =>
    obtain ⟨p, op⟩ := v
    cases op with
    | put codec buf =>
      obtain ⟨hheads, hholds⟩ := after_put (w := w) hop
      rw [target_congr hheads] at ht
      exact (hholds _).mpr (.inl (h _ _ _ ht))
    | delete =>
      obtain ⟨hheads, hholds⟩ := after_delete (w := w) hop
      rw [target_congr hheads] at ht
      refine (hholds _).mpr ⟨h _ _ _ ht, ?_⟩
      rintro rfl
      exact hdel _ name hop ht
  | none =>
    cases hput : headPut req.2 with
    | none =>
      rw [after_other hop hput] at ht ⊢
      exact h _ _ _ ht
    | some v =>
      obtain ⟨p, n, seq⟩ := v
      rcases after_headPut (w := w) hput with hw | ⟨hp, hw⟩
      · rw [hw] at ht ⊢
        exact h _ _ _ ht
      · rw [hw, target, Files.head_putHead] at ht
        rw [hw]
        split at ht
        · rename_i he
          obtain ⟨rfl, rfl⟩ := he
          obtain rfl := Json.str.inj ht
          exact hp
        · exact h _ _ _ ht

/-- **Heads name held blocks just as long as no DELETE releases what one of them names**, in
every world a sequence of requests goes through. -/
theorem heads_held_iff {reqs : List (Int × Request)} :
    (∀ before, before <+: reqs → HeadsHeld (afterAll nc opts .fresh before)) ↔
      ∀ before req rest p name, reqs = before ++ req :: rest →
        blockOp nc opts req.1 req.2 = some (p, .delete) →
        target (afterAll nc opts .fresh before) p.suffix name ≠ .str p.cid := by
  constructor
  · rintro h before req rest p name rfl hop ht
    have hafter := h (before ++ [req]) ⟨rest, by simp⟩
    rw [afterAll_concat] at hafter
    obtain ⟨hheads, hholds⟩ := after_delete (w := afterAll nc opts .fresh before) hop
    rw [← target_congr hheads] at ht
    exact ((hholds p).mp (hafter _ _ _ ht)).2 rfl
  · intro h before
    induction before using List.reverseRecOn with
    | nil => exact fun _ => headsHeld_fresh
    | append_singleton before req ih =>
      rintro ⟨rest, rfl⟩
      rw [afterAll_concat]
      refine (ih ⟨req :: rest, by simp⟩).after fun p name => ?_
      exact h before req rest p name (by simp)

namespace Sample

/-- A block, a head that names it, and the block released. -/
def released : List (Int × Request) :=
  [putOf alice cidRaw rawBlock, putStatement 1, deleteOf alice cidRaw]

end Sample

open Sample in
/-- **A DELETE releases what a head names**: three accepted requests leave Alice's head with a
block she does not hold. -/
theorem head_target_released :
    target (afterAll blockCrypto Sample.opts .fresh released) (alice.drop 8) (js "statement") =
        .str cidRaw ∧
      (afterAll blockCrypto Sample.opts .fresh released).holds ⟨alice.drop 8, cidRaw⟩ = false ∧
      ¬ HeadsHeld (afterAll blockCrypto Sample.opts .fresh released) := by
  obtain ⟨h₁, h₂⟩ :
      target (afterAll blockCrypto Sample.opts .fresh released) (alice.drop 8) (js "statement") =
          .str cidRaw ∧
        (afterAll blockCrypto Sample.opts .fresh released).holds ⟨alice.drop 8, cidRaw⟩ = false := by
    decide +kernel
  refine ⟨h₁, h₂, fun h => ?_⟩
  rw [h _ _ _ h₁] at h₂
  cases h₂

/-! ## Replays -/

/-- `rs` is `gs` with repetitions of earlier requests put in, each at a time of its own. -/
inductive Replays : List Request → List (Int × Request) → List (Int × Request) → Prop
  | nil (seen : List Request) : Replays seen [] []
  | genuine {seen : List Request} {r : Int × Request} {gs rs : List (Int × Request)} :
      Replays (r.2 :: seen) gs rs → Replays seen (r :: gs) (r :: rs)
  | replay {seen : List Request} {r : Int × Request} {gs rs : List (Int × Request)} :
      r.2 ∈ seen → Replays seen gs rs → Replays seen gs (r :: rs)

variable (nc opts) in
/-- What a request does to a hold: it is held, it is released, or nothing. -/
def effect (p : Hold) (req : Int × Request) : Option Bool :=
  match blockOp nc opts req.1 req.2 with
  | some (q, .put codec buf) => if q = p ∧ cidOf nc codec buf = p.cid then some true else none
  | some (q, .delete) => if q = p then some false else none
  | none => none

variable (nc opts) in
/-- What the last request with an effect on a hold does to it. -/
def lastEffect (p : Hold) (reqs : List (Int × Request)) : Option Bool :=
  (reqs.filterMap (effect nc opts p)).getLast?

/-- A hold behind a request. -/
theorem holds_after {w : World} {p : Hold} {req : Int × Request} :
    (after nc opts w req).holds p = (effect nc opts p req).getD (w.holds p) := by
  unfold effect
  cases hop : blockOp nc opts req.1 req.2 with
  | some v =>
    obtain ⟨q, op⟩ := v
    cases op with
    | put codec buf =>
      rw [Bool.eq_iff_iff, (after_put hop).2 p]
      by_cases hq : q = p
      · subst hq
        by_cases hc : cidOf nc codec buf = q.cid <;> simp [hc]
      · simp [hq, Ne.symm hq]
    | delete =>
      rw [Bool.eq_iff_iff, (after_delete hop).2 p]
      by_cases hq : q = p
      · simp [hq]
      · simp [hq, Ne.symm hq]
  | none =>
    show _ = w.holds p
    cases hput : headPut req.2 with
    | none => rw [after_other hop hput]
    | some v =>
      obtain ⟨q, n, seq⟩ := v
      rcases after_headPut (w := w) hput with hw | ⟨-, hw⟩
      · rw [hw]
      · rw [hw]
        rfl

/-- A hold behind a sequence: what its last effect made of it. -/
theorem holds_afterAll {w : World} {p : Hold} (reqs : List (Int × Request)) :
    (afterAll nc opts w reqs).holds p = (lastEffect nc opts p reqs).getD (w.holds p) := by
  induction reqs using List.reverseRecOn with
  | nil => rfl
  | append_singleton reqs req ih =>
    rw [afterAll_concat, holds_after, ih, lastEffect, lastEffect, List.filterMap_append]
    cases he : effect nc opts p req with
    | none => simp [he]
    | some b => simp [he]

namespace Replays

variable {seen : List Request} {gs rs : List (Int × Request)}

theorem sublist (h : Replays seen gs rs) : gs.Sublist rs := by
  induction h with
  | nil => exact List.Sublist.slnil
  | genuine _ ih => exact ih.cons_cons _
  | replay _ _ ih => exact ih.cons _

/-- What is handled is a genuine request, or repeats one. -/
theorem mem (h : Replays seen gs rs) : ∀ r ∈ rs, r.2 ∈ seen ∨ ∃ g ∈ gs, g.2 = r.2 := by
  induction h with
  | nil => nofun
  | genuine _ ih =>
    rename_i r gs rs _
    intro r' hr'
    rcases List.mem_cons.mp hr' with rfl | hr'
    · exact .inr ⟨_, List.mem_cons_self .., rfl⟩
    · rcases ih r' hr' with h | ⟨g, hg, he⟩
      · rcases List.mem_cons.mp h with h | h
        · exact .inr ⟨r, List.mem_cons_self .., h.symm⟩
        · exact .inl h
      · exact .inr ⟨g, List.mem_cons_of_mem _ hg, he⟩
  | replay hs _ ih =>
    intro r' hr'
    rcases List.mem_cons.mp hr' with rfl | hr'
    · exact .inl hs
    · exact ih r' hr'

end Replays

/-- An accepted request is the same operation whenever it is accepted. -/
theorem blockOp_time {now now' : Int} {req : Request} (h : (blockOp nc opts now req).isSome = true)
    (h' : (blockOp nc opts now' req).isSome = true) :
    blockOp nc opts now req = blockOp nc opts now' req := by
  unfold blockOp at h h' ⊢
  split at h
  · rfl
  split at h
  · rfl
  split at h
  case isFalse => cases h
  rename_i hc
  simp only [*] at h' ⊢
  split at h'
  · rename_i hc'
    rw [if_pos hc']
    rfl
  · cases h'

/-- Replays have no effect on a hold that the genuine requests have none on. -/
theorem lastEffect_isSome {gs rs : List (Int × Request)} {p : Hold} (h : Replays [] gs rs)
    (ha : ∀ r ∈ rs, (blockOp nc opts r.1 r.2).isSome = true) :
    (lastEffect nc opts p rs).isSome = (lastEffect nc opts p gs).isSome := by
  have hnone : ∀ reqs, (lastEffect nc opts p reqs).isSome = true ↔
      ∃ r ∈ reqs, (effect nc opts p r).isSome = true := by
    intro reqs
    rw [lastEffect, List.getLast?_isSome, ne_eq, List.filterMap_eq_nil_iff]
    simp [Option.ne_none_iff_isSome]
  rw [Bool.eq_iff_iff, hnone, hnone]
  constructor
  · rintro ⟨r, hr, he⟩
    obtain ⟨g, hg, hgr⟩ := (h.mem r hr).resolve_left (List.not_mem_nil)
    refine ⟨g, hg, ?_⟩
    have hop : blockOp nc opts g.1 g.2 = blockOp nc opts r.1 r.2 := by
      have hga := ha g (h.sublist.subset hg)
      rw [hgr] at hga ⊢
      exact blockOp_time hga (ha r hr)
    rwa [effect, hop]
  · rintro ⟨g, hg, he⟩
    exact ⟨g, h.sublist.subset hg, he⟩

/-- **Replays are harmless just when they change no last effect**: the signer holds the same
CIDs as behind the genuine requests alone, if and only if the last accepted request for each
CID is of the same kind. -/
theorem replays_harmless_iff {w : World} {gs rs : List (Int × Request)} {suffix : JsString}
    (h : Replays [] gs rs) (ha : ∀ r ∈ rs, (blockOp nc opts r.1 r.2).isSome = true) :
    (∀ cid, (afterAll nc opts w rs).holds ⟨suffix, cid⟩ = (afterAll nc opts w gs).holds ⟨suffix, cid⟩) ↔
      ∀ cid, lastEffect nc opts ⟨suffix, cid⟩ rs = lastEffect nc opts ⟨suffix, cid⟩ gs := by
  refine forall_congr' fun cid => ?_
  rw [holds_afterAll, holds_afterAll]
  have hsome := lastEffect_isSome (p := ⟨suffix, cid⟩) h ha
  cases hr : lastEffect nc opts ⟨suffix, cid⟩ rs <;> cases hg : lastEffect nc opts ⟨suffix, cid⟩ gs <;>
    simp [hr, hg] at hsome ⊢

namespace Sample

/-- A block put and released. -/
def putAndReleased : List (Int × Request) := [putOf alice cidRaw rawBlock, deleteOf alice cidRaw]

/-- The PUT repeated at once. -/
def repeatedAtOnce : List (Int × Request) :=
  [putOf alice cidRaw rawBlock, putOf alice cidRaw rawBlock, deleteOf alice cidRaw]

/-- The PUT repeated at the end. -/
def repeatedLater : List (Int × Request) :=
  [putOf alice cidRaw rawBlock, deleteOf alice cidRaw, putOf alice cidRaw rawBlock]

theorem replays_atOnce : Replays [] putAndReleased repeatedAtOnce :=
  .genuine (.replay (List.mem_cons_self ..) (.genuine (.nil _)))

theorem replays_later : Replays [] putAndReleased repeatedLater :=
  .genuine (.genuine (.replay (List.mem_cons_of_mem _ (List.mem_cons_self ..)) (.nil _)))

theorem accepted_atOnce :
    ∀ r ∈ repeatedAtOnce, (blockOp blockCrypto Sample.opts r.1 r.2).isSome = true := by decide +kernel

end Sample

open Sample in
/-- The PUT repeated at once changes nothing. -/
theorem replays_harmless_iff_sample :
    (∀ cid, (afterAll blockCrypto Sample.opts .fresh repeatedAtOnce).holds ⟨alice.drop 8, cid⟩ =
        (afterAll blockCrypto Sample.opts .fresh putAndReleased).holds ⟨alice.drop 8, cid⟩) ↔
      ∀ cid, lastEffect blockCrypto Sample.opts ⟨alice.drop 8, cid⟩ repeatedAtOnce =
        lastEffect blockCrypto Sample.opts ⟨alice.drop 8, cid⟩ putAndReleased :=
  replays_harmless_iff replays_atOnce accepted_atOnce

open Sample in
/-- **A replayed PUT holds a block again that its signer has released.** -/
theorem replay_holds_again :
    Replays [] putAndReleased repeatedLater ∧
      (∀ r ∈ repeatedLater, (blockOp blockCrypto Sample.opts r.1 r.2).isSome = true) ∧
      (afterAll blockCrypto Sample.opts .fresh putAndReleased).holds ⟨alice.drop 8, cidRaw⟩ = false ∧
      (afterAll blockCrypto Sample.opts .fresh repeatedLater).holds ⟨alice.drop 8, cidRaw⟩ = true :=
  ⟨replays_later, by decide +kernel⟩

end BlockIngest
