import Yataverse.Js.Text
import Yataverse.RoundRobin.Visit
import Mathlib.Data.List.Lex
import Mathlib.Data.Finset.Basic
import Mathlib.Data.Finset.Dedup

/-!
# Where the replicas of a CID live

`yataverse.distribution.planner` takes the nodes of the fleet and a replication factor, and
assigns that many of them to a CID. The nodes are grouped by zone, the zones ordered by size,
and a walk around the zones picks nodes whose name has not been picked yet.

- `nodeZone`, `zones`, `nodesInZone`: the zones of an inventory.
- `ordered`: the zones in the order in which the walk takes them.
- `candidate`: the node that step `i` of the walk looks at.
- `walk`: the loop, which the source does not bound; the model gives it fuel.
- `planReplication`: `plan-replication`.
- `walk_mono`, `planReplication_mono`: more fuel does not change what is returned.
- **`walk_invariant`**: what every step of the walk keeps, its result has.
-/

namespace Planner

open Js

/-- A value in a node: those that the planner tells apart, and `α` for all others. -/
inductive Value (α : Type) where
  | nil
  | bool (b : Bool)
  | int (n : Int)
  | string (s : JsString)
  /-- A keyword, without the colon. -/
  | keyword (k : JsString)
  | other (a : α)
deriving DecidableEq

/-- What Clojure brings: the text of the other values, and the order in which the entries of
a map are listed, by the order in which they were added. Up to eight stay in that order. -/
structure Runtime (α : Type) where
  text : α → JsString
  listed : List (Value α) → List (Value α)
  listed_perm : ∀ keys, (listed keys).Perm keys
  listed_small : ∀ keys, keys.length ≤ 8 → listed keys = keys

variable {α : Type}

def Value.truthy : Value α → Bool
  | .nil | .bool false => false
  | _ => true

/-- `str` -/
def Value.str (text : α → JsString) : Value α → JsString
  | .nil => []
  | .bool true => js "true"
  | .bool false => js "false"
  | .int n => intStr n
  | .string s => s
  | .keyword k => js ":" ++ k
  | .other a => text a

/-- A node: its `:name`, and the `:zone` of its `:labels`; `nil` where it has none. -/
structure Node (α : Type) where
  name : Value α
  zone : Value α
deriving DecidableEq

/-! ## The zones -/

/-- `::no-zone` -/
def noZone : Value α := .keyword (js "yataverse.distribution.planner/no-zone")

/-- `node-zone` -/
def nodeZone (node : Node α) : Value α := if node.zone.truthy then node.zone else noZone

/-- The first of each, in order. -/
def distinct {κ : Type} [DecidableEq κ] : List κ → List κ
  | [] => []
  | k :: ks => k :: (distinct ks).filter (· ≠ k)

variable [DecidableEq α] (R : Runtime α)

/-- `zones` -/
def zones (inventory : List (Node α)) : List (Value α) :=
  (distinct (inventory.map nodeZone)).mergeSort fun z z' => z.str R.text ≤ z'.str R.text

/-- `nodes-in-zone` -/
def nodesInZone (inventory : List (Node α)) (zone : Value α) : List (Node α) :=
  inventory.filter fun node => nodeZone node = zone

/-- `(group-by node-zone inventory)`, as it is listed. -/
def byZone (inventory : List (Node α)) : List (Value α × List (Node α)) :=
  (R.listed (distinct (inventory.map nodeZone))).map fun zone => (zone, nodesInZone inventory zone)

/-- How `ordered` compares two zones: by the number of nodes, the larger first, and then by
the text of the label. -/
def zoneLe (text : α → JsString) (count : Value α → Nat) (z z' : Value α) : Bool :=
  count z' < count z || (count z == count z' && z.str text ≤ z'.str text)

/-- The zones with their nodes, in the order of the walk. -/
def ordered (inventory : List (Node α)) : List (Value α × List (Node α)) :=
  (byZone R inventory).mergeSort fun e e' =>
    e'.2.length < e.2.length || (e.2.length == e'.2.length && e.1.str R.text ≤ e'.1.str R.text)

/-! ## The walk -/

/-- The node that step `i` looks at; `nodes-of` are the nodes of a zone. -/
def candidate (zoneNames : List (Value α)) (nodesOf : Value α → List (Node α)) (i : Nat) : Option (Node α) :=
  zoneNames[i % zoneNames.length]?.bind fun zone =>
    let nodes := nodesOf zone
    let rotate := i / zoneNames.length
    nodes[(rotate + i % zoneNames.length) % nodes.length]?

/-- The loop: `none` where it is still going on when the fuel runs out. -/
def walk (candidate : Nat → Option (Node α)) (factor : Nat) :
    Nat → Nat → List (Node α) → List (Value α) → Option (Except String (List (Node α)))
  | 0, _, _, _ => none
  | fuel + 1, i, picked, seen =>
    if picked.length = factor then
      some (.ok picked)
    else
      match candidate i with
      | none => some (.error "Index out of bounds")
      | some cand =>
        if cand.name ∈ seen then walk candidate factor fuel (i + 1) picked seen
        else walk candidate factor fuel (i + 1) (picked ++ [cand]) (cand.name :: seen)

/-! ## The plan -/

structure Assignment (α : Type) where
  zone : Value α
  node : Value α
deriving DecidableEq

structure Plan (α : Type) where
  cid : Value α
  factor : Nat
  assignments : List (Assignment α)
  coverage : Finset (Value α)
  shortfall : Int

/-- A factor for which `pos-int?` holds. -/
def posInt : Value α → Option Nat
  | .int (.ofNat (n + 1)) => some (n + 1)
  | _ => none

/-- The plan for the nodes that were picked. -/
def planOf (cid : Value α) (factor : Nat) (picked : List (Node α)) : Plan α :=
  let assignments := picked.map fun n => ⟨nodeZone n, n.name⟩
  ⟨cid, factor, assignments, (assignments.map Assignment.zone).toFinset, factor - assignments.length⟩

/-- `plan-replication` -/
def planReplication (fuel : Nat) (cid : Value α) (inventory : List (Node α)) (factor : Value α) :
    Option (Except String (Plan α)) :=
  match posInt factor with
  | none => some (.error "replication factor must be a positive integer")
  | some n =>
    if inventory.isEmpty then
      some (.error "empty inventory cannot host any replica")
    else
      let pool := (ordered R inventory).flatMap Prod.snd
      if pool.length < n then
        some (.error "inventory smaller than replication factor")
      else
        let zoneNames := (ordered R inventory).map Prod.fst
        (walk (candidate zoneNames (nodesInZone inventory)) n fuel 0 [] []).map fun r =>
          r.map (planOf cid n)

/-! ## What the walk keeps -/

section Walk

variable {cands : Nat → Option (Node α)} {factor fuel fuel' i : Nat} {picked picked' : List (Node α)}
  {seen : List (Value α)}

/-- More fuel does not change what the walk returns. -/
theorem walk_mono {r : Except String (List (Node α))} (hle : fuel ≤ fuel')
    (h : walk cands factor fuel i picked seen = some r) : walk cands factor fuel' i picked seen = some r := by
  induction fuel generalizing i picked seen fuel' with
  | zero => cases h
  | succ fuel ih =>
    obtain ⟨fuel', rfl⟩ := Nat.exists_eq_add_of_le' (Nat.le_trans (Nat.le_add_left 1 fuel) hle)
    have hle : fuel ≤ fuel' := Nat.le_of_succ_le_succ hle
    rw [walk] at h ⊢
    by_cases hlen : picked.length = factor
    · rwa [if_pos hlen] at h ⊢
    · rw [if_neg hlen] at h ⊢
      cases hc : cands i with
      | none => rwa [hc] at h
      | some cand =>
        rw [hc] at h
        dsimp only at h ⊢
        by_cases hmem : cand.name ∈ seen
        · rw [if_pos hmem] at h ⊢
          exact ih hle h
        · rw [if_neg hmem] at h ⊢
          exact ih hle h

theorem planReplication_mono {R : Runtime α} {cid factor : Value α} {inventory : List (Node α)}
    {r : Except String (Plan α)} (hle : fuel ≤ fuel') (h : planReplication R fuel cid inventory factor = some r) :
    planReplication R fuel' cid inventory factor = some r := by
  unfold planReplication at h ⊢
  cases hn : posInt factor with
  | none => rwa [hn] at h
  | some n =>
    simp only [hn] at h ⊢
    by_cases hempty : inventory.isEmpty
    · rwa [if_pos hempty] at h ⊢
    · rw [if_neg hempty] at h ⊢
      by_cases hpool : ((ordered R inventory).flatMap Prod.snd).length < n
      · rwa [if_pos hpool] at h ⊢
      · rw [if_neg hpool] at h ⊢
        obtain ⟨r', hr', hr⟩ := Option.map_eq_some_iff.mp h
        rw [walk_mono hle hr', ← hr]
        rfl

/-- The names of the nodes that were picked. -/
def Seen (picked : List (Node α)) (seen : List (Value α)) : Prop :=
  ∀ name, name ∈ seen ↔ name ∈ picked.map Node.name

omit [DecidableEq α] in
theorem Seen.nil : Seen ([] : List (Node α)) [] := fun _ => Iff.rfl

omit [DecidableEq α] in
theorem Seen.concat (h : Seen picked seen) (cand : Node α) : Seen (picked ++ [cand]) (cand.name :: seen) := by
  intro name
  rw [List.mem_cons, h name, List.map_append, List.mem_append]
  simp [or_comm]

/-- What is picked behind a step at `cand`. -/
def pick (picked : List (Node α)) (cand : Node α) : List (Node α) :=
  if cand.name ∈ picked.map Node.name then picked else picked ++ [cand]

/-- **The rule of the walk**: what every step keeps, the result has, and it is as long as the
factor. -/
theorem walk_invariant {Inv : Nat → List (Node α) → Prop}
    (hstep : ∀ i picked cand, Inv i picked → cands i = some cand → Inv (i + 1) (pick picked cand))
    (hseen : Seen picked seen) (hInv : Inv i picked)
    (h : walk cands factor fuel i picked seen = some (.ok picked')) :
    ∃ N, Inv N picked' ∧ picked'.length = factor := by
  induction fuel generalizing i picked seen with
  | zero => cases h
  | succ fuel ih =>
    rw [walk] at h
    split at h
    next hlen =>
      obtain rfl := Except.ok.inj (Option.some.inj h)
      exact ⟨i, hInv, hlen⟩
    next =>
      cases hc : cands i with
      | none =>
        rw [hc] at h
        cases Option.some.inj h
      | some cand =>
        rw [hc] at h
        dsimp only at h
        have hnext := hstep i picked cand hInv hc
        unfold pick at hnext
        split at h
        next hmem =>
          rw [if_pos ((hseen _).mp hmem)] at hnext
          exact ih hseen hnext h
        next hmem =>
          rw [if_neg fun h' => hmem ((hseen _).mpr h')] at hnext
          exact ih (hseen.concat cand) hnext h

end Walk

end Planner
