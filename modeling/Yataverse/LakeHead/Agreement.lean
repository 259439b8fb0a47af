import Yataverse.Grouping.Groups
import Yataverse.Js.Text

/-!
# Which head the witnesses agree on

A head is believed when enough witnesses prove it. The graph recovery counts the same answers on its own.

- `verdict`: `verdict` of `lake_head.cljk`, with the witnesses that it names.
- `agreed`: `agreed` of `recover_graph_heads.cljk`.
- `verdict_verified_iff`: when a head is verified.
- **`verdict_agrees`**: with a majority as the limit, the order of the answers does not matter, and both agree.
-/

namespace HeadAgreement

open Js Grouping

/-- Why an answer does not count. -/
inductive Refused where
  | noHead
  | unreachable
  | noProof
  | other (reason : JsString)
deriving DecidableEq

/-- What `check-one` makes of the answer of a witness. -/
inductive Answer (σ γ : Type) where
  | proved (id : JsString) (seq : σ) (cid : γ)
  | refused (id : JsString) (why : Refused)

/-- `:status`, with the rest of the map. -/
inductive Verdict (σ γ : Type) where
  | verified (seq : σ) (cid : γ) (witnesses : List JsString)
  | split (groups : List ((σ × γ) × List JsString))
  | absent
  | unmeasured (verified : Nat)

variable {σ γ : Type} [DecidableEq σ] [DecidableEq γ]

/-- `[seq cid]` of an answer that counts, with the witness. -/
def Answer.ok? : Answer σ γ → Option ((σ × γ) × JsString)
  | proved id seq cid => some ((seq, cid), id)
  | refused _ _ => none

/-- The answer is `:no-head`. -/
def Answer.isNoHead : Answer σ γ → Bool
  | refused _ .noHead => true
  | _ => false

/-- `verdict`; `keys` is how maps list their keys. -/
def verdict (keys : Listing (σ × γ)) (results : List (Answer σ γ)) (minAgree : Nat) : Verdict σ γ :=
  let ok := results.filterMap Answer.ok?
  let groups := groupBy keys Prod.fst ok
  match (groups.mergeSort fun g g' => g.2.length ≤ g'.2.length).getLast?.filter fun g => minAgree ≤ g.2.length with
  | some ((seq, cid), members) => .verified seq cid (sorted (members.map Prod.snd))
  | none =>
    if 1 < groups.length then .split (groups.map fun g => (g.1, g.2.map Prod.snd))
    else if ok = [] ∧ minAgree ≤ (results.filter Answer.isNoHead).length then .absent
    else .unmeasured ok.length

/-- `agreed`: an answer is `nil` where there is no head. -/
def agreed (keys : Listing (σ × γ)) (answers : List (Option (σ × γ))) (minimum : Nat) : Option (σ × γ) :=
  match ((frequencies keys answers.reduceOption).mergeSort fun e e' => e'.2 ≤ e.2).head? with
  | some (top, n) => if minimum ≤ n then some top else none
  | none => none

/-- The answer as `agreed` is given it. -/
def Answer.head? (a : Answer σ γ) : Option (σ × γ) := a.ok?.map Prod.fst

/-- How many answers name the head. -/
def named (results : List (Answer σ γ)) (head : σ × γ) : Nat := occurrences (results.filterMap Answer.head?) head

/-- `:status` -/
inductive Status where
  | verified
  | split
  | absent
  | unmeasured
deriving DecidableEq

namespace Verdict

def status : Verdict σ γ → Status
  | verified _ _ _ => .verified
  | split _ => .split
  | absent => .absent
  | unmeasured _ => .unmeasured

/-- `[seq cid]` of a verified head. -/
def head? : Verdict σ γ → Option (σ × γ)
  | verified seq cid _ => some (seq, cid)
  | _ => none

/-- `:witnesses` -/
def witnesses : Verdict σ γ → List JsString
  | verified _ _ ws => ws
  | _ => []

end Verdict

variable {keys keys' : Listing (σ × γ)} {results results' : List (Answer σ γ)} {minAgree : Nat} {seq : σ} {cid : γ}
  {head : σ × γ} {ws : List JsString}

/-! ## Counting -/

/-- The witnesses that name the head. -/
def members (results : List (Answer σ γ)) (head : σ × γ) : List JsString :=
  ((results.filterMap Answer.ok?).filter fun e => e.1 = head).map Prod.snd

theorem filterMap_head : results.filterMap Answer.head? = (results.filterMap Answer.ok?).map Prod.fst :=
  (List.map_filterMap ..).symm

theorem members_length : (members results head).length = named results head := by
  rw [members, List.length_map, group_length, named, filterMap_head]

theorem named_perm (h : results.Perm results') : named results head = named results' head :=
  occurrences_perm (h.filterMap _)

/-- Only one head is named by a majority. -/
theorem named_unique {head' : σ × γ} (hm : results.length < 2 * minAgree) (h : minAgree ≤ named results head)
    (h' : minAgree ≤ named results head') : head = head' :=
  majority_unique (Nat.lt_of_le_of_lt (List.length_filterMap_le Answer.head? results) hm) h h'

/-- `sort` forgets the order. -/
theorem sorted_perm {a b : List JsString} (h : a.Perm b) : sorted a = sorted b := by
  have hperm : (sorted a).Perm (sorted b) :=
    (List.perm_insertionSort _ _).trans (h.trans (List.perm_insertionSort _ _).symm)
  exact hperm.eq_of_pairwise' (List.pairwise_insertionSort _ _) (List.pairwise_insertionSort _ _)

theorem members_perm (h : results.Perm results') : sorted (members results head) = sorted (members results' head) :=
  sorted_perm (((h.filterMap _).filter _).map _)

/-! ## The verdict -/

/-- A head that a majority names is verified. -/
theorem verdict_of_named (hm : results.length < 2 * minAgree) (h : minAgree ≤ named results head) :
    verdict keys results minAgree = .verified head.1 head.2 (sorted (members results head)) := by
  have hgroup : (head, (results.filterMap Answer.ok?).filter fun e => e.1 = head) ∈
      groupBy keys Prod.fst (results.filterMap Answer.ok?) := by
    refine mem_groupBy.mpr ⟨?_, rfl⟩
    rw [← filterMap_head]
    exact mem_of_occurrences (Nat.lt_of_lt_of_le (by omega) h)
  unfold verdict
  dsimp only
  cases hlast : ((groupBy keys Prod.fst (results.filterMap Answer.ok?)).mergeSort
      fun g g' => g.2.length ≤ g'.2.length).getLast? with
  | none =>
    rw [List.getLast?_eq_none_iff] at hlast
    rw [← List.mem_mergeSort, hlast] at hgroup
    cases hgroup
  | some g =>
    obtain ⟨hg, hlargest⟩ := @last_sorted _ _ _ (fun g : (σ × γ) × List ((σ × γ) × JsString) => g.2.length) hlast
    obtain ⟨-, hmembers⟩ := mem_groupBy.mp hg
    have hlength : ∀ k, ((results.filterMap Answer.ok?).filter fun e => e.1 = k).length = named results k := fun k => by
      rw [group_length, named, filterMap_head]
    have hle := hlargest _ hgroup
    rw [hmembers, hlength, hlength] at hle
    have hkey : g.1 = head := named_unique hm (h.trans hle) h
    have hsize : minAgree ≤ g.2.length := by
      rw [hmembers, hlength]
      exact h.trans hle
    rw [Option.filter_some, if_pos (decide_eq_true hsize)]
    obtain ⟨⟨seq, cid⟩, ms⟩ := g
    dsimp only at hkey hmembers ⊢
    rw [hmembers, hkey, ← hkey]
    rfl

/-- Where no head is named often enough, the status is read off the numbers. -/
theorem verdict_of_not_named (h : ∀ head, ¬ minAgree ≤ named results head) :
    verdict keys results minAgree =
      if 1 < (groupBy keys Prod.fst (results.filterMap Answer.ok?)).length then
        .split ((groupBy keys Prod.fst (results.filterMap Answer.ok?)).map fun g => (g.1, g.2.map Prod.snd))
      else if results.filterMap Answer.ok? = [] ∧ minAgree ≤ (results.filter Answer.isNoHead).length then .absent
      else .unmeasured (results.filterMap Answer.ok?).length := by
  unfold verdict
  dsimp only
  cases hlast : ((groupBy keys Prod.fst (results.filterMap Answer.ok?)).mergeSort
      fun g g' => g.2.length ≤ g'.2.length).getLast? with
  | none => rfl
  | some g =>
    obtain ⟨hg, -⟩ := @last_sorted _ _ _ (fun g : (σ × γ) × List ((σ × γ) × JsString) => g.2.length) hlast
    obtain ⟨-, hmembers⟩ := mem_groupBy.mp hg
    have hsize : ¬ minAgree ≤ g.2.length := by
      rw [hmembers, group_length, ← filterMap_head]
      exact h g.1
    rw [Option.filter_some, if_neg (by rw [decide_eq_true_iff]; exact hsize)]

/-- In that case, the order of the answers does not matter. -/
theorem status_of_not_named (h : ∀ head, ¬ minAgree ≤ named results head) :
    (verdict keys results minAgree).status =
      (if 1 < (results.filterMap Answer.head?).dedup.length then .split
      else if (results.filterMap Answer.head?).length = 0 ∧ minAgree ≤ (results.filter Answer.isNoHead).length then .absent
      else .unmeasured) ∧
    (verdict keys results minAgree).head? = none ∧ (verdict keys results minAgree).witnesses = [] := by
  rw [verdict_of_not_named h, groupBy_length, ← filterMap_head]
  have hnil : results.filterMap Answer.ok? = [] ↔ (results.filterMap Answer.head?).length = 0 := by
    rw [filterMap_head, List.length_map, List.length_eq_zero_iff]
  simp only [hnil]
  split_ifs
  · exact ⟨rfl, rfl, rfl⟩
  · exact ⟨rfl, rfl, rfl⟩
  · exact ⟨rfl, rfl, rfl⟩

/-- **When a head is verified.** -/
theorem verdict_verified_iff (hm : results.length < 2 * minAgree) :
    verdict keys results minAgree = .verified seq cid ws ↔
      minAgree ≤ named results (seq, cid) ∧ ws = sorted (members results (seq, cid)) := by
  constructor
  · rintro h
    by_cases hnamed : ∃ head, minAgree ≤ named results head
    · obtain ⟨head, hhead⟩ := hnamed
      rw [verdict_of_named hm hhead] at h
      cases h
      exact ⟨hhead, rfl⟩
    · rw [verdict_of_not_named (not_exists.mp hnamed)] at h
      split_ifs at h
  · rintro ⟨h, rfl⟩
    exact verdict_of_named hm h

theorem agreed_of_named (hm : results.length < 2 * minAgree) (h : minAgree ≤ named results head) :
    agreed keys (results.map Answer.head?) minAgree = some head := by
  have hreduce : (results.map Answer.head?).reduceOption = results.filterMap Answer.head? := List.filterMap_map ..
  have hentry : (head, named results head) ∈ frequencies keys (results.filterMap Answer.head?) :=
    mem_frequencies.mpr ⟨mem_of_occurrences (Nat.lt_of_lt_of_le (by omega) h), rfl⟩
  unfold agreed
  rw [hreduce]
  cases hfirst : ((frequencies keys (results.filterMap Answer.head?)).mergeSort fun e e' => e'.2 ≤ e.2).head? with
  | none =>
    rw [List.head?_eq_none_iff] at hfirst
    rw [← List.mem_mergeSort, hfirst] at hentry
    cases hentry
  | some e =>
    obtain ⟨he, hlargest⟩ := @first_sorted _ _ _ Prod.snd hfirst
    obtain ⟨-, hcount⟩ := mem_frequencies.mp he
    have hsize : minAgree ≤ e.2 := h.trans (hlargest _ hentry)
    have hcounted : minAgree ≤ named results e.1 := by
      rw [hcount] at hsize
      exact hsize
    have hkey : e.1 = head := named_unique hm hcounted h
    dsimp only
    rw [if_pos hsize, hkey]

theorem agreed_of_not_named (h : ∀ head, ¬ minAgree ≤ named results head) :
    agreed keys (results.map Answer.head?) minAgree = none := by
  have hreduce : (results.map Answer.head?).reduceOption = results.filterMap Answer.head? := List.filterMap_map ..
  unfold agreed
  rw [hreduce]
  cases hfirst : ((frequencies keys (results.filterMap Answer.head?)).mergeSort fun e e' => e'.2 ≤ e.2).head? with
  | none => rfl
  | some e =>
    obtain ⟨he, -⟩ := @first_sorted _ _ _ Prod.snd hfirst
    obtain ⟨-, hcount⟩ := mem_frequencies.mp he
    dsimp only
    rw [if_neg]
    rw [hcount]
    exact h e.1

/-- **Agreement**: with a majority as the limit, a head is verified exactly when enough answers name it. The status,
the head and its witnesses do not depend on the order of the answers; `:absent` is said where no answer has a head;
and `agreed` finds the same head. -/
theorem verdict_agrees (hm : results.length < 2 * minAgree) :
    (∀ seq cid, (∃ ws, verdict keys results minAgree = .verified seq cid ws) ↔
      minAgree ≤ named results (seq, cid)) ∧
    (∀ results' keys', results.Perm results' →
      (verdict keys' results' minAgree).status = (verdict keys results minAgree).status ∧
      (verdict keys' results' minAgree).head? = (verdict keys results minAgree).head? ∧
      (verdict keys' results' minAgree).witnesses = (verdict keys results minAgree).witnesses) ∧
    ((verdict keys results minAgree).status = .absent → ∀ a ∈ results, a.head? = none) ∧
    ∀ keys', agreed keys' (results.map Answer.head?) minAgree = (verdict keys results minAgree).head? := by
  by_cases hnamed : ∃ head, minAgree ≤ named results head
  · obtain ⟨head, hhead⟩ := hnamed
    have hverdict : verdict keys results minAgree = .verified head.1 head.2 (sorted (members results head)) :=
      verdict_of_named hm hhead
    refine ⟨fun seq cid => ?_, fun results' keys' hperm => ?_, fun h => ?_, fun keys' => ?_⟩
    · constructor
      · rintro ⟨ws, h⟩
        exact ((verdict_verified_iff hm).mp h).1
      · exact fun h => ⟨_, verdict_of_named hm h⟩
    · have hverdict' := @verdict_of_named _ _ _ _ keys' results' minAgree head (hperm.length_eq ▸ hm)
        (named_perm hperm ▸ hhead)
      rw [hverdict, hverdict', members_perm hperm.symm]
      exact ⟨rfl, rfl, rfl⟩
    · rw [hverdict] at h
      cases h
    · rw [hverdict, agreed_of_named hm hhead]
      rfl
  · have hnot := not_exists.mp hnamed
    obtain ⟨hstatus, hhead, hwitnesses⟩ := @status_of_not_named _ _ _ _ keys results minAgree hnot
    refine ⟨fun seq cid => ?_, fun results' keys' hperm => ?_, fun h => ?_, fun keys' => ?_⟩
    · refine ⟨?_, fun h => absurd h (hnot _)⟩
      rintro ⟨ws, h⟩
      exact ((verdict_verified_iff hm).mp h).1
    · have hnot' : ∀ head, ¬ minAgree ≤ named results' head := fun head => named_perm hperm ▸ hnot head
      obtain ⟨hstatus', hhead', hwitnesses'⟩ := @status_of_not_named _ _ _ _ keys' results' minAgree hnot'
      have hheads := hperm.filterMap Answer.head?
      rw [hstatus, hstatus', hhead, hhead', hwitnesses, hwitnesses', hheads.length_eq, hheads.dedup.length_eq,
        (hperm.filter _).length_eq]
      exact ⟨rfl, rfl, rfl⟩
    · rintro a ha
      rw [hstatus] at h
      split_ifs at h with hsplit hnone
      have hempty := List.length_eq_zero_iff.mp hnone.1
      rw [List.filterMap_eq_nil_iff] at hempty
      exact hempty a ha
    · rw [hhead, agreed_of_not_named hnot]

/-- Two of three witnesses prove the head; the third one has none. -/
def sample : List (Answer Nat Bool) :=
  [.proved (js "b") 4 true, .refused (js "c") .noHead, .proved (js "a") 4 true]

theorem verdict_agrees_sample : (∃ ws, verdict Listing.plain sample 2 = .verified 4 true ws) ∧
    agreed Listing.plain (sample.map Answer.head?) 2 = some (4, true) := by
  obtain ⟨hverified, -, -, hagreed⟩ := @verdict_agrees _ _ _ _ Listing.plain sample 2 (by decide)
  have h := (hverified 4 true).mpr (by decide)
  refine ⟨h, ?_⟩
  obtain ⟨ws, hws⟩ := h
  rw [hagreed, hws]
  rfl

end HeadAgreement
