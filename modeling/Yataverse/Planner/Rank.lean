import Yataverse.Sorting.Comparisons
import Yataverse.Fallible.Rules
import Mathlib.Data.Prod.Lex

/-!
# Ranking the providers of a CID

`rank-providers` sorts the providers by the key `(juxt :distance-km (fnil identity ##Inf)
:name)`. The second part of the key is not the tier but the provider's map, which Clojure
does not compare with another map.

- `compareRanked`: how the sort compares two providers.
- `rankProviders`, `nearestProvider`: as the source has them; the great-circle distance is a
  function of the two points.
- `Ranked.le`: the order that is declared.
- **`ranks_iff`**: providers are ranked exactly when no two of them are as far away, unless
  they are one and the same map.
- **`not_ranks`**: two providers at one place are not ranked, whatever their tiers.
-/

namespace Planner

open Fallible Sorting

/-- A requester, with the coordinates it carries. -/
structure Requester (C : Type) where
  lat : Option C
  lng : Option C

structure Provider (C T N : Type) where
  name : N
  lat : Option C
  lng : Option C
  tier : Option T

/-- A provider with its `:distance-km`. -/
structure Ranked (C T N D : Type) where
  provider : Provider C T N
  distanceKm : D

variable {C T N D : Type}

/-- `(and (:lat p) (:lng p))` -/
def point : Option C → Option C → Option (C × C)
  | some lat, some lng => some (lat, lng)
  | _, _ => none

/-- Which entries of a list are one and the same map. Those have the same content. -/
structure Identity {β : Type} (xs : List β) where
  same : Fin xs.length → Fin xs.length → Bool
  refl : ∀ i, same i i = true
  symm : ∀ i j, same i j = true → same j i = true
  trans : ∀ i j k, same i j = true → same j k = true → same i k = true
  eq : ∀ i j, same i j = true → xs.get i = xs.get j

variable [LinearOrder D] [LinearOrder N]

/-- `compare` of the keys of two providers: by distance, then their maps, which compare only
with themselves, and then by name. -/
def compareRanked (xs : List (Ranked C T N D)) (identity : Identity xs) (i j : Fin xs.length) :
    Except String Ordering :=
  match compare (xs.get i).distanceKm (xs.get j).distanceKm with
  | .eq =>
    if identity.same i j then .ok (compare (xs.get i).provider.name (xs.get j).provider.name)
    else .error "Cannot compare"
  | o => .ok o

/-- `sort-by` -/
def sortBy (S : Sorter) {β : Type} (xs : List β) (cmp : Fin xs.length → Fin xs.length → Except String Ordering) :
    Except String (List β) :=
  ((S.comparisons xs.length).run cmp).map fun order => order.map xs.get

variable (S : Sorter) (haversineKm : C × C → C × C → D)
  (identity : (xs : List (Ranked C T N D)) → Identity xs)

/-- A provider with its distance; none if it has no coordinates. -/
def withDistance (requester : C × C) (p : Provider C T N) : Except String (Ranked C T N D) :=
  match point p.lat p.lng with
  | none => .error "provider without coordinates cannot be ranked"
  | some at_ => .ok ⟨p, haversineKm requester at_⟩

/-- `rank-providers` -/
def rankProviders (requester : Requester C) (providers : List (Provider C T N)) :
    Except String (List (Ranked C T N D)) :=
  match point requester.lat requester.lng with
  | none => .error "requester must carry :lat/:lng"
  | some from_ => do
    let ranked ← providers.mapM (withDistance haversineKm from_)
    sortBy S ranked (compareRanked ranked (identity ranked))

/-- `nearest-provider` -/
def nearestProvider (requester : Requester C) (providers : List (Provider C T N)) :
    Except String (Option (Ranked C T N D)) :=
  if providers.isEmpty then .ok none
  else (rankProviders S haversineKm identity requester providers).map List.head?

/-! ## The order that is declared -/

/-- A smaller tier, where a missing one is the last. -/
def tierLt {T : Type} [LinearOrder T] : Option T → Option T → Prop
  | some t, some t' => t < t'
  | some _, none => True
  | none, _ => False

/-- By distance, ties by tier, and then by name. -/
def Ranked.le [LinearOrder T] (a b : Ranked C T N D) : Prop :=
  a.distanceKm < b.distanceKm ∨ a.distanceKm = b.distanceKm ∧
    (tierLt a.provider.tier b.provider.tier ∨
      a.provider.tier = b.provider.tier ∧ a.provider.name ≤ b.provider.name)

/-- The providers that have coordinates, with their distances. -/
def located (from_ : C × C) (providers : List (Provider C T N)) : List (Ranked C T N D) :=
  providers.filterMap fun p => (point p.lat p.lng).map fun at_ => ⟨p, haversineKm from_ at_⟩

/-- The call returns the providers in the order that is declared, and the first of them is the
nearest. -/
def Ranks [LinearOrder T] (requester : Requester C) (from_ : C × C) (providers : List (Provider C T N)) : Prop :=
  ∃ ranked, rankProviders S haversineKm identity requester providers = .ok ranked ∧
    ranked.Perm (located haversineKm from_ providers) ∧ ranked.Pairwise Ranked.le ∧
      nearestProvider S haversineKm identity requester providers = .ok ranked.head?

/-- No two places hold providers that are as far away, unless they hold one and the same. -/
def Decided (xs : List (Ranked C T N D)) (identity : Identity xs) : Prop :=
  ∀ i j, i ≠ j → (xs.get i).distanceKm = (xs.get j).distanceKm → identity.same i j = true

section Compare

variable {S haversineKm} {xs ranked : List (Ranked C T N D)} {one : Identity xs}

theorem compareRanked_eq (hdecided : Decided xs one) (i j : Fin xs.length) :
    compareRanked xs one i j = .ok (compare (xs.get i).distanceKm (xs.get j).distanceKm) := by
  rw [compareRanked]
  cases ho : compare (xs.get i).distanceKm (xs.get j).distanceKm with
  | eq =>
    have hsame : one.same i j = true := by
      by_cases hij : i = j
      · exact hij ▸ one.refl i
      · exact hdecided i j hij (compare_eq_iff_eq.mp ho)
    rw [if_pos hsame, one.eq i j hsame, compare_eq_iff_eq.mpr rfl]
  | lt => rfl
  | gt => rfl

/-- What the comparison answers is decided by the distance, or about one map. -/
theorem compareRanked_ok {i j : Fin xs.length} {o : Ordering} (h : compareRanked xs one i j = .ok o) :
    o = compare (xs.get i).distanceKm (xs.get j).distanceKm ∧
      ((xs.get i).distanceKm ≠ (xs.get j).distanceKm ∨ one.same i j = true) := by
  rw [compareRanked] at h
  cases ho : compare (xs.get i).distanceKm (xs.get j).distanceKm with
  | eq =>
    rw [ho] at h
    by_cases hsame : one.same i j = true
    · rw [if_pos hsame, one.eq i j hsame, compare_eq_iff_eq.mpr rfl] at h
      exact ⟨(Except.ok.inj h).symm, .inr hsame⟩
    · rw [if_neg hsame] at h
      cases h
  | lt =>
    rw [ho] at h
    exact ⟨(Except.ok.inj h).symm, .inl (compare_lt_iff_lt.mp ho).ne⟩
  | gt =>
    rw [ho] at h
    exact ⟨(Except.ok.inj h).symm, .inl (compare_gt_iff_gt.mp ho).ne'⟩

/-- A key that puts the map at `i` behind the others that are as far away, or in front. -/
def keyAt (one : Identity xs) (i : Fin xs.length) (behind : Bool) (k : Fin xs.length) : D ×ₗ Bool :=
  toLex ((xs.get k).distanceKm, one.same i k == behind)

/-- The comparison cannot tell the two keys apart. -/
theorem keyAt_agrees (i : Fin xs.length) (behind : Bool) (k l : Fin xs.length) (o : Ordering)
    (h : compareRanked xs one k l = .ok o) : byKey String (keyAt one i behind) k l = .ok o := by
  obtain ⟨rfl, hne | hsame⟩ := compareRanked_ok h
  · rw [byKey]
    congr 1
    obtain hlt | hgt := lt_or_gt_of_ne hne
    · rw [compare_lt_iff_lt.mpr hlt, compare_lt_iff_lt]
      exact Prod.Lex.toLex_lt_toLex.mpr (.inl hlt)
    · rw [compare_gt_iff_gt.mpr hgt, compare_gt_iff_gt]
      exact Prod.Lex.toLex_lt_toLex.mpr (.inl hgt)
  · have hclass : one.same i k = one.same i l := by
      rw [Bool.eq_iff_iff]
      exact ⟨fun h => one.trans _ _ _ h hsame, fun h => one.trans _ _ _ h (one.symm _ _ hsame)⟩
    rw [byKey, keyAt, keyAt, one.eq k l hsame, hclass, compare_eq_iff_eq.mpr rfl, compare_eq_iff_eq.mpr rfl]

/-- **The sort returns** exactly where the comparison is decided. -/
theorem sortBy_isOk_iff : (∃ ranked, sortBy S xs (compareRanked xs one) = .ok ranked) ↔ Decided xs one := by
  constructor
  · rintro ⟨ranked, h⟩ i j hij hd
    by_contra hsame
    obtain ⟨order, horder, -⟩ := map_eq_ok.mp h
    have hi : one.same i i = true := one.refl i
    have hj : one.same i j = false := by simpa using hsame
    refine S.run_undecided (keyAt_agrees i false) (keyAt_agrees i true) (i := i) (j := j) ?_ ?_ order horder
    · exact Prod.Lex.toLex_lt_toLex.mpr (.inr ⟨hd, by simp [hi, hj]⟩)
    · exact Prod.Lex.toLex_lt_toLex.mpr (.inr ⟨hd.symm, by simp [hi, hj]⟩)
  · intro hdecided
    have hcmp : compareRanked xs one = byKey String fun i => (xs.get i).distanceKm :=
      funext fun i => funext fun j => compareRanked_eq hdecided i j
    obtain ⟨order, horder, -⟩ := S.sorts String fun i => (xs.get i).distanceKm
    exact ⟨order.map xs.get, by rw [sortBy, hcmp, horder]; rfl⟩

/-- What the sort returns. -/
theorem sortBy_sorted [LinearOrder T] (h : sortBy S xs (compareRanked xs one) = .ok ranked) :
    ranked.Perm xs ∧ ranked.Pairwise Ranked.le := by
  have hdecided : Decided xs one := sortBy_isOk_iff.mp ⟨ranked, h⟩
  obtain ⟨order, horder, rfl⟩ := map_eq_ok.mp h
  have hkey : ∀ i j o, compareRanked xs one i j = .ok o →
      byKey String (fun i => (xs.get i).distanceKm) i j = .ok o := by
    intro i j o ho
    rw [byKey, (compareRanked_ok ho).1]
  obtain ⟨hperm, hsorted⟩ := S.run_sorted hkey horder
  refine ⟨?_, ?_⟩
  · have hall : (List.finRange xs.length).map xs.get = xs := by simp
    exact (hperm.map xs.get).trans (.of_eq hall)
  · refine List.pairwise_map.mpr (hsorted.imp fun {i j} hle => ?_)
    obtain hlt | heq := lt_or_eq_of_le hle
    · exact .inl hlt
    · -- one and the same map, or the same place
      have hsame : xs.get i = xs.get j := by
        by_cases hij : i = j
        · rw [hij]
        · exact one.eq i j (hdecided i j hij heq)
      rw [hsame]
      exact .inr ⟨rfl, .inr ⟨rfl, le_refl _⟩⟩

end Compare

section Ranks

variable {S haversineKm identity} {requester : Requester C} {from_ : C × C} {providers : List (Provider C T N)}

/-- With coordinates everywhere, the sort is all there is to a call. -/
theorem rankProviders_eq (hreq : point requester.lat requester.lng = some from_)
    (hall : ∀ p ∈ providers, (point p.lat p.lng).isSome = true) :
    rankProviders S haversineKm identity requester providers =
      sortBy S (located haversineKm from_ providers) (compareRanked _ (identity (located haversineKm from_ providers))) := by
  have hmap : providers.mapM (withDistance haversineKm from_) = .ok (located haversineKm from_ providers) := by
    clear hreq
    induction providers with
    | nil => rfl
    | cons p providers ih =>
      obtain ⟨at_, hat⟩ := Option.isSome_iff_exists.mp (hall p (.head _))
      rw [List.mapM_cons, ih fun q hq => hall q (.tail _ hq)]
      simp only [withDistance, located, hat, List.filterMap_cons, Option.map_some]
      rfl
  rw [rankProviders, hreq]
  simp only [hmap]
  rfl

end Ranks

/-- **The providers are ranked** exactly when no two of them are as far away, unless they are
one and the same map. -/
theorem ranks_iff [LinearOrder T] (requester : Requester C) (from_ : C × C) (providers : List (Provider C T N))
    (hreq : point requester.lat requester.lng = some from_)
    (hall : ∀ p ∈ providers, (point p.lat p.lng).isSome = true) :
    Ranks S haversineKm identity requester from_ providers ↔
      Decided (located haversineKm from_ providers) (identity (located haversineKm from_ providers)) := by
  have hcall : rankProviders S haversineKm identity requester providers = sortBy S (located haversineKm from_ providers)
      (compareRanked _ (identity (located haversineKm from_ providers))) := rankProviders_eq hreq hall
  constructor
  · rintro ⟨ranked, h, -⟩
    exact sortBy_isOk_iff.mp ⟨ranked, hcall ▸ h⟩
  · intro hdecided
    obtain ⟨ranked, h⟩ := sortBy_isOk_iff.mpr hdecided
    obtain ⟨hperm, hsorted⟩ := sortBy_sorted h
    refine ⟨ranked, hcall.trans h, hperm, hsorted, ?_⟩
    rw [nearestProvider, hcall, h]
    cases providers with
    | nil =>
      obtain rfl := hperm.eq_nil
      rfl
    | cons p providers => rfl

namespace Sample

/-- The distance on a line; the longitude does not matter. -/
def distance (a b : Int × Int) : Nat := (a.1 - b.1).natAbs

/-- No map stands at two places. -/
def distinctMaps (xs : List (Ranked Int Nat Nat Nat)) : Identity xs where
  same i j := i = j
  refl := by simp
  symm := by simp +contextual [eq_comm]
  trans := by simp +contextual
  eq := by simp +contextual

def requester : Requester Int := ⟨some 0, some 0⟩

def provider (name tier : Nat) (lat : Int) : Provider Int Nat Nat := ⟨name, some lat, some 0, some tier⟩

end Sample

/-- Two providers at different distances. -/
theorem ranks_iff_apart :
    Ranks insertionSorter Sample.distance Sample.distinctMaps Sample.requester (0, 0)
        [Sample.provider 1 1 7, Sample.provider 2 1 3] ↔
      Decided (located Sample.distance (0, 0) [Sample.provider 1 1 7, Sample.provider 2 1 3]) (Sample.distinctMaps _) :=
  ranks_iff _ _ _ _ _ _ rfl (by simp [Sample.provider, point])

/-- **Two providers at one place** are not ranked: their tiers are not looked at. -/
theorem not_ranks : ¬ ∀ (S : Sorter) (distance : Int × Int → Int × Int → Nat)
    (identity : (xs : List (Ranked Int Nat Nat Nat)) → Identity xs) (requester : Requester Int) (from_ : Int × Int)
    (providers : List (Provider Int Nat Nat)), point requester.lat requester.lng = some from_ →
      (∀ p ∈ providers, (point p.lat p.lng).isSome = true) →
        Ranks S distance identity requester from_ providers := by
  intro h
  obtain ⟨ranked, hranked, -⟩ := h insertionSorter Sample.distance Sample.distinctMaps Sample.requester (0, 0)
    [Sample.provider 1 1 5, Sample.provider 2 2 5] rfl (by simp [Sample.provider, point])
  have hrefused : rankProviders insertionSorter Sample.distance Sample.distinctMaps Sample.requester
      [Sample.provider 1 1 5, Sample.provider 2 2 5] = .error "Cannot compare" := rfl
  rw [hrefused] at hranked
  cases hranked

end Planner
