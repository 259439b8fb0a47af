import Yataverse.Js.Map
import Yataverse.Limiting.TokenBucket
import Mathlib.Algebra.Order.Field.Rat
import Mathlib.Tactic.Linarith
import Mathlib.Tactic.Positivity
import Mathlib.Tactic.Ring

/-!
# The rate limit

Every address has a bucket of tokens. All buckets are in one map, which is emptied when it has grown large; every
address but the one that asks has a full bucket again then.

- `allow`: a request to `limiter`, in exact numbers.
- `serve`: requests one after the other.
- `Safe`, `safe_allow`: what holds of the buckets between requests.
- **`admitted_le`**: how many requests of an address are let through in an interval.
- `admitted_twice`: the map is emptied between two of them.
-/

namespace BlockIngest.Limiter

open Js TokenBucket

variable {κ : Type} [DecidableEq κ]

/-- `buckets`. -/
abbrev Buckets (κ : Type) [DecidableEq κ] := JsMap κ (Bucket ℚ)

/-- How many buckets there may be. -/
def maxBuckets : Nat := 10000

section Requests

variable (rate burst : ℚ)

/-- A request of `limiter`: whether it is let through, and the buckets behind it. -/
def allow (buckets : Buckets κ) (addr : κ) (nowMs : ℚ) : Bool × Buckets κ :=
  let b := (buckets.get addr).getD ⟨burst, nowMs⟩
  let tokens := min burst (b.tokens + rate * ((nowMs - b.since) / 1000))
  let ok : Bool := 1 ≤ tokens
  let buckets := if maxBuckets < buckets.entries.length then .empty else buckets
  (ok, buckets.set addr ⟨if ok then tokens - 1 else tokens, nowMs⟩)

/-- A request that has been answered. -/
structure Answered (κ : Type) where
  addr : κ
  nowMs : ℚ
  ok : Bool
  emptied : Bool

/-- Requests one after the other. -/
def serve : Buckets κ → List (κ × ℚ) → List (Answered κ)
  | _, [] => []
  | buckets, (addr, nowMs) :: reqs =>
    ⟨addr, nowMs, (allow rate burst buckets addr nowMs).1, maxBuckets < buckets.entries.length⟩ ::
      serve (allow rate burst buckets addr nowMs).2 reqs

end Requests

variable {rate burst s t τ nowMs : ℚ} {buckets : Buckets κ} {addr a : κ} {reqs : List (κ × ℚ)}

/-- How many requests of the address are let through in the interval. -/
def admitted (a : κ) (s t : ℚ) (answered : List (Answered κ)) : Nat :=
  answered.countP fun e => e.addr = a ∧ s ≤ e.nowMs ∧ e.nowMs ≤ t ∧ e.ok

/-- How often another address empties the map in the interval. -/
def emptied (a : κ) (s t : ℚ) (answered : List (Answered κ)) : Nat :=
  answered.countP fun e => e.addr ≠ a ∧ s ≤ e.nowMs ∧ e.nowMs ≤ t ∧ e.emptied

/-! ## One request -/

/-- The tokens of an address at a time. -/
def tokensOf (rate burst : ℚ) (buckets : Buckets κ) (a : κ) (τ : ℚ) : ℚ :=
  level (rate / 1000) burst ((buckets.get a).getD ⟨burst, τ⟩) τ

/-- The buckets have no debts, and none of them is ahead of the time. -/
def Safe (buckets : Buckets κ) (τ : ℚ) : Prop := ∀ a b, buckets.get a = some b → 0 ≤ b.tokens ∧ b.since ≤ τ

theorem safe_empty (τ : ℚ) : Safe (.empty : Buckets κ) τ := fun _ _ h => (by cases h)

theorem Safe.later (h : Safe buckets s) (hle : s ≤ t) : Safe buckets t :=
  fun a b hb => ⟨(h a b hb).1, (h a b hb).2.trans hle⟩

theorem tokensOf_le : tokensOf rate burst buckets a τ ≤ burst := level_le

theorem tokensOf_nonneg (hrate : 0 ≤ rate) (hburst : 0 ≤ burst) (h : Safe buckets τ) : 0 ≤ tokensOf rate burst buckets a τ := by
  have hgain : 0 ≤ rate / 1000 := div_nonneg hrate (by norm_num)
  rw [tokensOf]
  cases hb : buckets.get a with
  | none => exact level_nonneg hgain hburst hburst le_rfl
  | some b => exact level_nonneg hgain hburst (h a b hb).1 (h a b hb).2

/-- Without a bucket, an address has all tokens. -/
theorem tokensOf_none (h : buckets.get a = none) : tokensOf rate burst buckets a τ = burst := by
  rw [tokensOf, h, Option.getD_none, level, sub_self, mul_zero, add_zero, min_self]

theorem tokensOf_later (hrate : 0 ≤ rate) (h : s ≤ t) :
    tokensOf rate burst buckets a t ≤ tokensOf rate burst buckets a s + rate / 1000 * (t - s) := by
  have hgain : 0 ≤ rate / 1000 := div_nonneg hrate (by norm_num)
  cases hb : buckets.get a with
  | none =>
    rw [tokensOf_none hb, tokensOf_none hb]
    exact le_add_of_nonneg_right (mul_nonneg hgain (sub_nonneg.mpr h))
  | some b =>
    rw [tokensOf, tokensOf, hb]
    exact level_later hgain h

/-- A request is let through where there is a token, and leaves the bucket that is behind it. -/
theorem allow_eq (rate burst : ℚ) (buckets : Buckets κ) (addr : κ) (nowMs : ℚ) :
    allow rate burst buckets addr nowMs = (decide (1 ≤ tokensOf rate burst buckets addr nowMs),
      (if maxBuckets < buckets.entries.length then .empty else buckets).set addr
        (take (rate / 1000) burst ((buckets.get addr).getD ⟨burst, nowMs⟩) nowMs)) := by
  have hgain : ∀ d : ℚ, rate * (d / 1000) = rate / 1000 * d := fun d => by ring
  simp only [allow, tokensOf, take, level, hgain, decide_eq_true_eq]
  rfl

/-- The bucket of an address behind a request. -/
theorem get_allow (rate burst : ℚ) (buckets : Buckets κ) (addr : κ) (nowMs : ℚ) (a : κ) :
    (allow rate burst buckets addr nowMs).2.get a =
      if a = addr then some (take (rate / 1000) burst ((buckets.get addr).getD ⟨burst, nowMs⟩) nowMs)
      else if maxBuckets < buckets.entries.length then none else buckets.get a := by
  rw [allow_eq, JsMap.get_set]
  congr 1
  split_ifs <;> rfl

/-- **What one request preserves.** -/
theorem safe_allow (hrate : 0 ≤ rate) (hburst : 0 ≤ burst) (h : Safe buckets nowMs) :
    Safe (allow rate burst buckets addr nowMs).2 nowMs := by
  intro a b hb
  rw [get_allow] at hb
  split_ifs at hb with ha hfull
  · obtain rfl := Option.some.inj hb
    exact ⟨take_nonneg (tokensOf_nonneg hrate hburst h), le_rfl⟩
  · exact h a b hb

/-- The tokens of the address that asks: one less where it is let through. -/
theorem tokensOf_asks : tokensOf rate burst (allow rate burst buckets a nowMs).2 a nowMs =
    tokensOf rate burst buckets a nowMs - if (allow rate burst buckets a nowMs).1 then 1 else 0 := by
  rw [allow_eq, tokensOf, JsMap.get_set, if_pos rfl, Option.getD_some, level_take]
  simp only [decide_eq_true_eq]
  rfl

/-- The tokens of another address: all of them where the map is emptied. -/
theorem tokensOf_other (hne : a ≠ addr) :
    tokensOf rate burst (allow rate burst buckets addr nowMs).2 a nowMs =
      if maxBuckets < buckets.entries.length then burst else tokensOf rate burst buckets a nowMs := by
  have hget := get_allow rate burst buckets addr nowMs a
  rw [if_neg hne] at hget
  split_ifs at hget ⊢ with hfull
  · exact tokensOf_none hget
  · rw [tokensOf, hget, tokensOf]

/-! ## An interval -/

theorem admitted_cons (e : Answered κ) (answered : List (Answered κ)) : admitted a s t (e :: answered) =
    admitted a s t answered + if e.addr = a ∧ s ≤ e.nowMs ∧ e.nowMs ≤ t ∧ e.ok then 1 else 0 := by
  rw [admitted, List.countP_cons]
  simp only [decide_eq_true_eq]
  rfl

theorem emptied_cons (e : Answered κ) (answered : List (Answered κ)) : emptied a s t (e :: answered) =
    emptied a s t answered + if e.addr ≠ a ∧ s ≤ e.nowMs ∧ e.nowMs ≤ t ∧ e.emptied then 1 else 0 := by
  rw [emptied, List.countP_cons]
  simp only [decide_eq_true_eq]
  rfl

/-- The times of answered requests are those of the requests. -/
theorem nowMs_of_mem_serve {e : Answered κ} (h : e ∈ serve rate burst buckets reqs) : ∃ req ∈ reqs, e.nowMs = req.2 := by
  induction reqs generalizing buckets with
  | nil => cases h
  | cons req reqs ih =>
    rcases List.mem_cons.mp h with rfl | h
    · exact ⟨req, List.mem_cons_self .., rfl⟩
    · obtain ⟨req', hreq, heq⟩ := ih h
      exact ⟨req', List.mem_cons_of_mem _ hreq, heq⟩

/-- Nothing behind the interval counts. -/
theorem admitted_behind (h : ∀ req ∈ reqs, t < req.2) : admitted a s t (serve rate burst buckets reqs) = 0 := by
  refine List.countP_eq_zero.mpr fun e he hcount => ?_
  obtain ⟨req, hreq, heq⟩ := nowMs_of_mem_serve he
  have hle : e.nowMs ≤ t := (of_decide_eq_true hcount).2.2.1
  rw [heq] at hle
  exact absurd hle (not_le.mpr (h req hreq))

/-- **One request** within the interval: what is let through was among the tokens, or came with time, or with an
emptied map. -/
theorem allow_pays (hrate : 0 ≤ rate) (hburst : 0 ≤ burst) (hsafe : Safe buckets τ) (hnow : τ ≤ nowMs) :
    (if addr = a ∧ (allow rate burst buckets addr nowMs).1 then 1 else 0 : ℚ) +
        tokensOf rate burst (allow rate burst buckets addr nowMs).2 a nowMs ≤
      tokensOf rate burst buckets a τ + rate / 1000 * (nowMs - τ) +
        burst * if addr ≠ a ∧ maxBuckets < buckets.entries.length then 1 else 0 := by
  have hlater : tokensOf rate burst buckets a nowMs ≤ tokensOf rate burst buckets a τ + rate / 1000 * (nowMs - τ) :=
    tokensOf_later hrate hnow
  have hnonneg : 0 ≤ tokensOf rate burst buckets a nowMs := tokensOf_nonneg hrate hburst (hsafe.later hnow)
  by_cases ha : addr = a
  · subst ha
    rw [tokensOf_asks]
    simp only [true_and, ne_eq, not_true_eq_false, false_and, if_false, mul_zero]
    linarith
  · rw [tokensOf_other fun h => ha h.symm]
    simp only [ha, false_and, if_false, ne_eq, not_false_eq_true, true_and]
    split_ifs <;> linarith

/-- The requests from a time within the interval on. -/
theorem admitted_from (hrate : 0 ≤ rate) (hburst : 0 ≤ burst) (hsafe : Safe buckets τ) (hsorted : reqs.Pairwise fun r r' => r.2 ≤ r'.2)
    (hreqs : ∀ req ∈ reqs, τ ≤ req.2) (hs : s ≤ τ) (ht : τ ≤ t) :
    (admitted a s t (serve rate burst buckets reqs) : ℚ) ≤ tokensOf rate burst buckets a τ + rate / 1000 * (t - τ) +
      burst * emptied a s t (serve rate burst buckets reqs) := by
  have hgain : 0 ≤ rate / 1000 := div_nonneg hrate (by norm_num)
  induction reqs generalizing buckets τ with
  | nil =>
    have hnonneg : 0 ≤ tokensOf rate burst buckets a τ := tokensOf_nonneg hrate hburst hsafe
    have htime : 0 ≤ rate / 1000 * (t - τ) := mul_nonneg hgain (sub_nonneg.mpr ht)
    have hzero : (admitted a s t (serve rate burst buckets []) : ℚ) = 0 := rfl
    have hemptied : (emptied a s t (serve rate burst buckets []) : ℚ) = 0 := rfl
    rw [hzero, hemptied, mul_zero, add_zero]
    exact add_nonneg hnonneg htime
  | cons req reqs ih =>
    obtain ⟨addr, nowMs⟩ := req
    obtain ⟨hfirst, hsorted'⟩ := List.pairwise_cons.mp hsorted
    have hnow : τ ≤ nowMs := hreqs _ (List.mem_cons_self ..)
    rcases le_or_gt nowMs t with hle | hgt
    · have hsafe' : Safe (allow rate burst buckets addr nowMs).2 nowMs := safe_allow hrate hburst (hsafe.later hnow)
      have hrest := ih hsafe' hsorted' hfirst (hs.trans hnow) hle
      have hpays := @allow_pays _ _ rate burst τ nowMs buckets addr a hrate hburst hsafe hnow
      have hin : s ≤ nowMs := hs.trans hnow
      rw [serve, admitted_cons, emptied_cons]
      simp only [hin, hle, true_and, decide_eq_true_eq]
      push_cast
      linarith
    · have hbehind : admitted a s t (serve rate burst buckets ((addr, nowMs) :: reqs)) = 0 := by
        refine admitted_behind fun r hr => ?_
        rcases List.mem_cons.mp hr with rfl | hr
        · exact hgt
        · exact hgt.trans_le (hfirst r hr)
      have hnonneg : 0 ≤ tokensOf rate burst buckets a τ := tokensOf_nonneg hrate hburst hsafe
      have htime : 0 ≤ rate / 1000 * (t - τ) := mul_nonneg hgain (sub_nonneg.mpr ht)
      rw [hbehind]
      positivity

/-- The requests, some of them in front of the interval. -/
theorem admitted_since (hrate : 0 ≤ rate) (hburst : 0 ≤ burst) (hsafe : Safe buckets τ)
    (hsorted : reqs.Pairwise fun r r' => r.2 ≤ r'.2) (hreqs : ∀ req ∈ reqs, τ ≤ req.2) (hτ : τ ≤ s) (ht : s ≤ t) :
    (admitted a s t (serve rate burst buckets reqs) : ℚ) ≤ burst + rate / 1000 * (t - s) +
      burst * emptied a s t (serve rate burst buckets reqs) := by
  induction reqs generalizing buckets τ with
  | nil =>
    have hfrom := @admitted_from _ _ rate burst s t s buckets a [] hrate hburst (hsafe.later hτ) .nil (fun _ h => by cases h) le_rfl ht
    have hle : tokensOf rate burst buckets a s ≤ burst := tokensOf_le
    linarith
  | cons req reqs ih =>
    obtain ⟨addr, nowMs⟩ := req
    obtain ⟨hfirst, hsorted'⟩ := List.pairwise_cons.mp hsorted
    have hnow : τ ≤ nowMs := hreqs _ (List.mem_cons_self ..)
    rcases lt_or_ge nowMs s with hlt | hge
    · have hout : ¬ s ≤ nowMs := not_le.mpr hlt
      have hsafe' : Safe (allow rate burst buckets addr nowMs).2 nowMs := safe_allow hrate hburst (hsafe.later hnow)
      have hrest := ih hsafe' hsorted' hfirst hlt.le
      rw [serve, admitted_cons, emptied_cons]
      simp only [hout, false_and, and_false, if_false, add_zero]
      exact hrest
    · have hreqs' : ∀ req ∈ (addr, nowMs) :: reqs, s ≤ req.2 :=
        List.forall_mem_cons.mpr ⟨hge, fun r hr => hge.trans (hfirst r hr)⟩
      have hfrom := @admitted_from _ _ rate burst s t s buckets a _ hrate hburst (hsafe.later hτ) hsorted hreqs' le_rfl ht
      have hle : tokensOf rate burst buckets a s ≤ burst := tokensOf_le
      linarith

/-- **The limit of an address** in an interval: a burst to begin with and one for every time that another address
empties the map, and what the rate gives for the length of the interval. -/
theorem admitted_le (rate burst : ℚ) (hrate : 0 ≤ rate) (hburst : 1 ≤ burst) (reqs : List (κ × ℚ))
    (hsorted : reqs.Pairwise fun r r' => r.2 ≤ r'.2) (a : κ) (s t : ℚ) (hst : s ≤ t) :
    (admitted a s t (serve rate burst .empty reqs) : ℚ) ≤
      burst * (1 + emptied a s t (serve rate burst .empty reqs)) + rate * (t - s) / 1000 := by
  have hpos : 0 ≤ burst := zero_le_one.trans hburst
  have hbound : (admitted a s t (serve rate burst .empty reqs) : ℚ) ≤ burst + rate / 1000 * (t - s) +
      burst * emptied a s t (serve rate burst .empty reqs) := by
    cases reqs with
    | nil => exact admitted_since hrate hpos (safe_empty s) .nil (fun _ h => by cases h) le_rfl hst
    | cons req reqs =>
      refine admitted_since hrate hpos (safe_empty (min s req.2)) hsorted (fun r hr => ?_) (min_le_left _ _) hst
      rcases List.mem_cons.mp hr with rfl | hr
      · exact min_le_right _ _
      · exact (min_le_right _ _).trans ((List.pairwise_cons.mp hsorted).1 r hr)
  have hrw : rate * (t - s) / 1000 = rate / 1000 * (t - s) := by ring
  rw [hrw]
  linarith

/-! ## Filling the map -/

/-- The buckets behind requests. -/
def after (rate burst : ℚ) (buckets : Buckets κ) (reqs : List (κ × ℚ)) : Buckets κ :=
  reqs.foldl (fun buckets req => (allow rate burst buckets req.1 req.2).2) buckets

theorem serve_append (buckets : Buckets κ) (reqs reqs' : List (κ × ℚ)) : serve rate burst buckets (reqs ++ reqs') =
    serve rate burst buckets reqs ++ serve rate burst (after rate burst buckets reqs) reqs' := by
  induction reqs generalizing buckets with
  | nil => rfl
  | cons req reqs ih => exact congrArg (_ :: ·) (ih _)

omit [DecidableEq κ] in
theorem setEntry_new [DecidableEq κ] {ν : Type} {k : κ} {v : ν} {es : List (κ × ν)} (h : k ∉ es.map Prod.fst) :
    setEntry k v es = es ++ [(k, v)] := by
  induction es with
  | nil => rfl
  | cons e es ih =>
    obtain ⟨hne, h⟩ := not_or.mp fun hk => h (List.mem_cons.mpr hk)
    rw [setEntry, if_neg fun he => hne he.symm, ih h]
    rfl

/-- A new address adds a bucket, while there is room. -/
theorem keys_allow (hroom : buckets.entries.length ≤ maxBuckets) (hnew : addr ∉ buckets.entries.map Prod.fst) :
    (allow rate burst buckets addr nowMs).2.entries.map Prod.fst = buckets.entries.map Prod.fst ++ [addr] := by
  rw [allow_eq, if_neg (Nat.not_lt.mpr hroom)]
  change (setEntry addr _ buckets.entries).map Prod.fst = _
  rw [setEntry_new hnew, List.map_append]
  rfl

theorem keys_after (hroom : buckets.entries.length + reqs.length ≤ maxBuckets + 1)
    (hnew : (buckets.entries.map Prod.fst ++ reqs.map Prod.fst).Nodup) :
    (after rate burst buckets reqs).entries.map Prod.fst = buckets.entries.map Prod.fst ++ reqs.map Prod.fst := by
  induction reqs generalizing buckets with
  | nil => exact (List.append_nil _).symm
  | cons req reqs ih =>
    rw [List.length_cons] at hroom
    have hkeys : (allow rate burst buckets req.1 req.2).2.entries.map Prod.fst = buckets.entries.map Prod.fst ++ [req.1] := by
      refine keys_allow (by omega) fun hmem => ?_
      exact (List.nodup_append.mp hnew).2.2 _ hmem _ (List.mem_cons_self ..) rfl
    have hlen := congrArg List.length hkeys
    rw [List.length_map, List.length_append, List.length_map, List.length_singleton] at hlen
    have hrest := @ih (allow rate burst buckets req.1 req.2).2 (by omega) (by
      rw [hkeys, List.append_assoc]
      exact hnew)
    rw [hkeys, List.append_assoc] at hrest
    exact hrest

namespace Sample

/-- One request of each of the first addresses. -/
def crowd (n : Nat) : List (Nat × ℚ) := (List.range n).map fun addr => (addr, 0)

/-- One more address, and the first one again. -/
def requests (n : Nat) : List (Nat × ℚ) := crowd (n + 1) ++ [(n + 1, 0), (0, 0)]

theorem keys_crowd {n : Nat} (hn : n ≤ maxBuckets + 1) :
    (after 0 1 (.empty : Buckets Nat) (crowd n)).entries.map Prod.fst = List.range n := by
  have hkeys : (crowd n).map Prod.fst = List.range n := by
    rw [crowd, List.map_map]
    exact List.map_id _
  have hlength : (crowd n).length = n := by rw [crowd, List.length_map, List.length_range]
  have hnone : (JsMap.empty : Buckets Nat).entries = [] := rfl
  rw [keys_after, hkeys, hnone]
  · rfl
  · rw [hlength, hnone, List.length_nil, Nat.zero_add]
    exact hn
  · rw [hkeys, hnone]
    exact List.nodup_range

/-- The first request is let through. -/
theorem crowd_admits (n : Nat) : 1 ≤ admitted 0 0 0 (serve 0 1 (.empty : Buckets Nat) (crowd (n + 1))) := by
  have hcrowd : crowd (n + 1) = (0, 0) :: (List.range n).map fun addr => (addr + 1, 0) := by
    rw [crowd, List.range_succ_eq_map, List.map_cons, List.map_map]
    rfl
  have hok : (allow 0 1 (.empty : Buckets Nat) 0 0).1 = true := by decide +kernel
  rw [hcrowd, serve, admitted_cons, if_pos ⟨rfl, le_rfl, le_rfl, hok⟩]
  exact Nat.le_add_left _ _

theorem requests_sorted (n : Nat) : (requests n).Pairwise fun r r' => r.2 ≤ r'.2 := by
  refine List.pairwise_of_forall_mem_list fun r hr r' hr' => ?_
  have hzero : ∀ r ∈ requests n, r.2 = 0 := by
    intro r hr
    rcases List.mem_append.mp hr with hr | hr
    · obtain ⟨_, -, rfl⟩ := List.mem_map.mp hr
      rfl
    · rcases List.mem_cons.mp hr with rfl | hr
      · rfl
      · rw [List.mem_singleton.mp hr]
  rw [hzero r hr, hzero r' hr']

/-- Where the map is large behind the crowd, the first address is let through again. -/
theorem two_le_admitted {n : Nat} (hle : n ≤ maxBuckets) (hlarge : maxBuckets ≤ n) :
    2 ≤ admitted 0 0 0 (serve 0 1 (.empty : Buckets Nat) (requests n)) := by
  have hkeys := keys_crowd (Nat.succ_le_succ hle)
  have hfirst := crowd_admits n
  rw [requests, serve_append]
  generalize after 0 1 (.empty : Buckets Nat) (crowd (n + 1)) = buckets at hkeys ⊢
  have hfull : maxBuckets < buckets.entries.length := by
    have hlen := congrArg List.length hkeys
    rw [List.length_map, List.length_range] at hlen
    omega
  have hget : (allow 0 1 buckets (n + 1) 0).2.get 0 = none := by
    rw [get_allow, if_neg (Nat.succ_ne_zero n).symm, if_pos hfull]
  have hok : (allow 0 1 (allow 0 1 buckets (n + 1) 0).2 0 0).1 = true := by
    rw [allow_eq, tokensOf_none hget]
    exact decide_eq_true (le_refl (1 : ℚ))
  have hlast : 1 ≤ admitted 0 0 0 (serve 0 1 buckets [(n + 1, 0), (0, 0)]) := by
    rw [serve, admitted_cons, serve, admitted_cons, if_pos ⟨rfl, le_rfl, le_rfl, hok⟩]
    omega
  rw [admitted, List.countP_append]
  exact Nat.add_le_add hfirst hlast

end Sample

open Sample in
/-- **The limit of an address is not its own**: a burst of one request and no refill, and an address is let through
twice at one time, since others have filled the map. -/
theorem admitted_twice : (requests maxBuckets).Pairwise (fun r r' => r.2 ≤ r'.2) ∧
    ¬ (admitted 0 0 0 (serve 0 1 (.empty : Buckets Nat) (requests maxBuckets)) : ℚ) ≤ 1 + 0 * (0 - 0) / 1000 := by
  refine ⟨requests_sorted maxBuckets, fun hle => ?_⟩
  have htwo := two_le_admitted (le_refl maxBuckets) (le_refl maxBuckets)
  generalize admitted 0 0 0 (serve 0 1 (.empty : Buckets Nat) (requests maxBuckets)) = m at hle htwo
  have hle' : (m : ℚ) ≤ 1 := by linarith
  have hone : m ≤ 1 := Nat.cast_le_one.mp hle'
  omega

open Sample in
theorem admitted_le_sample : (admitted 0 0 1000 (serve 2 3 (.empty : Buckets Nat) (crowd 2)) : ℚ) ≤
    3 * (1 + emptied 0 0 1000 (serve 2 3 (.empty : Buckets Nat) (crowd 2))) + 2 * (1000 - 0) / 1000 :=
  admitted_le 2 3 (by decide) (by decide) (crowd 2) (by decide) 0 0 1000 (by decide)

end BlockIngest.Limiter
