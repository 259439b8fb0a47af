import Yataverse.Planner.FullPlan
import Yataverse.Sorting.Stable
import Mathlib.Data.Finset.Card

/-!
# How the replicas are spread

With nodes of different names the walk takes a node exactly when it comes to it for the first
time, so the sizes of the zones decide which steps take one.

- `Fresh`: the nodes that were picked are those of the fresh steps.
- **`planReplication_spread`**: the zones are filled level by level, and as many are covered
  as the factor allows.
- **`zoneOrder_iff`**: the order of the inventory does not change the zones of a plan, except
  where nodes without a label and nodes that are labelled like them are as many.
- **`not_zoneOrder`**: such an inventory.
-/

namespace Planner

open Js Sorting

section Fresh

variable {α : Type} [DecidableEq α] {R : Runtime α} {inventory : List (Node α)} {n fuel i N : Nat}
  {picked : List (Node α)}

/-- The sizes of the zones, in the order of the walk. -/
def sizes (R : Runtime α) (inventory : List (Node α)) : List Nat := (rows R inventory).map List.length

@[simp] theorem length_sizes : (sizes R inventory).length = (zoneNames R inventory).length := by
  simp [sizes, rows]

theorem sizes_getElem {j : Nat} (h : j < (sizes R inventory).length) (h' : j < (zoneNames R inventory).length) :
    (sizes R inventory)[j] = (nodesInZone inventory (zoneNames R inventory)[j]).length := by
  simp [sizes, rows]

theorem sizes_pos : ∀ n ∈ sizes R inventory, 0 < n := by
  intro n hn
  obtain ⟨row, hrow, rfl⟩ := List.mem_map.mp hn
  exact List.length_pos_iff.mpr (rows_ne_nil hrow)

/-- The nodes picked before step `N` are those of the fresh steps. -/
def Fresh (R : Runtime α) (inventory : List (Node α)) (N : Nat) (picked : List (Node α)) : Prop :=
  picked.map some = (RoundRobin.freshSteps (sizes R inventory) N).map (RoundRobin.visit (rows R inventory))

theorem nodup_rows (hnames : (inventory.map Node.name).Nodup) : (rows R inventory).flatten.Nodup :=
  rows_flatten_perm.nodup_iff.mpr (hnames.of_map _)

theorem Fresh.mem_iff (h : Fresh R inventory N picked) {node : Node α} :
    node ∈ picked ↔ ∃ i < N, RoundRobin.fresh (sizes R inventory) i = true ∧
      RoundRobin.visit (rows R inventory) i = some node := by
  have hmap : node ∈ picked ↔ some node ∈ picked.map some := by simp
  rw [hmap, h, List.mem_map]
  simp [RoundRobin.freshSteps, and_assoc]

/-- The row of a step, if there is an inventory. -/
theorem exists_row (hne : inventory ≠ []) (i : Nat) :
    ∃ row, (rows R inventory)[i % (rows R inventory).length]? = some row ∧ row ≠ [] := by
  have hrows : rows R inventory ≠ [] := by
    intro h
    have hperm : (rows R inventory).flatten.Perm inventory := rows_flatten_perm
    rw [h] at hperm
    exact hne hperm.nil_eq.symm
  obtain ⟨row, hrow, hmem⟩ := RoundRobin.exists_row hrows i
  exact ⟨row, hrow, rows_ne_nil hmem⟩

/-- A step takes its node exactly when it is fresh. -/
theorem Fresh.pick (hnames : (inventory.map Node.name).Nodup) (hne : inventory ≠ []) {cand : Node α}
    (h : Fresh R inventory i picked) (hc : RoundRobin.visit (rows R inventory) i = some cand) :
    Fresh R inventory (i + 1) (pick picked cand) := by
  obtain ⟨row, hrow, hrow'⟩ := exists_row (R := R) hne i
  unfold Fresh Planner.pick
  rw [RoundRobin.freshSteps_succ, List.map_append, ← h]
  cases hf : RoundRobin.fresh (sizes R inventory) i with
  | true =>
    have hnew : cand.name ∉ picked.map Node.name := by
      intro hmem
      obtain ⟨node, hnode, hname⟩ := List.mem_map.mp hmem
      obtain ⟨i', hlt, hf', hc'⟩ := h.mem_iff.mp hnode
      obtain ⟨cand', hmem', hv'⟩ := exists_candidate (R := R) hne i'
      obtain ⟨cand'', hmem'', hv''⟩ := exists_candidate (R := R) hne i
      obtain rfl : cand' = node := Option.some.inj (hv'.symm.trans hc')
      obtain rfl : cand'' = cand := Option.some.inj (hv''.symm.trans hc)
      have hsame : cand' = cand'' := List.inj_on_of_nodup_map hnames hmem' hmem'' hname
      obtain ⟨row', hrow₂, -⟩ := exists_row (R := R) hne i'
      have := RoundRobin.fresh_injective (nodup_rows hnames) hrow hrow₂ hf hf' hc (hsame ▸ hc')
      omega
    simp [hnew, hc]
  | false =>
    obtain ⟨i', hlt, hf', hv⟩ := RoundRobin.exists_earlier_visit hrow hrow' hf
    have hold : cand.name ∈ picked.map Node.name :=
      List.mem_map_of_mem (h.mem_iff.mpr ⟨i', hlt, hf', hv.trans hc⟩)
    simp [hold]

/-- What a call picks. -/
theorem walk_fresh (hnames : (inventory.map Node.name).Nodup) (hne : inventory ≠ [])
    (h : walk (RoundRobin.visit (rows R inventory)) n fuel 0 [] [] = some (.ok picked)) :
    ∃ N, Fresh R inventory N picked ∧ picked.length = n :=
  walk_invariant (fun _ _ _ hp hc => hp.pick hnames hne hc) Seen.nil (show Fresh R inventory 0 [] from rfl) h

end Fresh

/-! ## The zones of a plan -/

section Zones

variable {α : Type} [DecidableEq α] {R : Runtime α} {cid : Value α} {inventory : List (Node α)}
  {n fuel i j N : Nat} {picked : List (Node α)} {plan : Plan α}

/-- The replicas in a zone. -/
def Plan.replicas (plan : Plan α) (zone : Value α) : Nat := plan.assignments.countP (·.zone = zone)

/-- The zones of the fresh steps. -/
def stepZones (names : List (Value α)) (sizes : List Nat) (N : Nat) : List (Option (Value α)) :=
  (RoundRobin.freshSteps sizes N).map fun i => names[i % names.length]?

theorem visit_zone {node : Node α} (hc : RoundRobin.visit (rows R inventory) i = some node) :
    (zoneNames R inventory)[i % (zoneNames R inventory).length]? = some (nodeZone node) := by
  have hlen : (rows R inventory).length = (zoneNames R inventory).length := by simp [rows]
  obtain ⟨row, hrow, hnode⟩ := Option.bind_eq_some_iff.mp hc
  rw [hlen, rows, List.getElem?_map] at hrow
  obtain ⟨z, hz, rfl⟩ := Option.map_eq_some_iff.mp hrow
  rw [hz, (mem_nodesInZone.mp (List.mem_of_getElem? hnode)).2]

/-- The zones of what was picked. -/
theorem Fresh.zones (h : Fresh R inventory N picked) :
    (picked.map nodeZone).map some = stepZones (zoneNames R inventory) (sizes R inventory) N := by
  have hmap : (picked.map some).map (Option.map nodeZone) =
      (RoundRobin.freshSteps (sizes R inventory) N).map fun i =>
        (RoundRobin.visit (rows R inventory) i).map nodeZone := by
    rw [h, List.map_map]
    rfl
  have hzones : (picked.map nodeZone).map some = (picked.map some).map (Option.map nodeZone) := by
    simp
  rw [hzones, hmap, stepZones]
  refine List.map_congr_left fun i hi => ?_
  have hmem : RoundRobin.visit (rows R inventory) i ∈ picked.map some := h ▸ List.mem_map_of_mem hi
  obtain ⟨node, -, hc⟩ := List.mem_map.mp hmem
  rw [visit_zone hc.symm, ← hc]
  rfl

theorem Fresh.length (h : Fresh R inventory N picked) :
    (RoundRobin.freshSteps (sizes R inventory) N).length = picked.length := by
  simpa using (congrArg List.length h).symm

/-- **The plan of a call** with nodes of different names: the zones of the first `n` fresh
steps. -/
theorem planReplication_zones (R : Runtime α) (cid : Value α) (hnames : (inventory.map Node.name).Nodup)
    (hpos : 0 < n) (hlen : n ≤ inventory.length) :
    ∃ fuel plan N, planReplication R fuel cid inventory (.int n) = some (.ok plan) ∧
      (plan.assignments.map Assignment.zone).map some = stepZones (zoneNames R inventory) (sizes R inventory) N ∧
      plan.coverage = (plan.assignments.map Assignment.zone).toFinset ∧
      (RoundRobin.freshSteps (sizes R inventory) N).length = n := by
  have hdistinct : n ≤ (distinct (inventory.map Node.name)).length := by
    rw [distinct_eq_self hnames, List.length_map]
    exact hlen
  obtain ⟨fuel, picked, h, -, hlen', hwalk⟩ := planReplication_ends R cid rfl hpos hlen hdistinct
  have hne : inventory ≠ [] := List.length_pos_iff.mp (Nat.lt_of_lt_of_le hpos hlen)
  obtain ⟨N, hfresh, -⟩ := walk_fresh hnames hne hwalk
  refine ⟨fuel, _, N, h, ?_, rfl, hfresh.length.trans hlen'⟩
  rw [← hfresh.zones]
  simp [planOf]

/-- The replicas in the zone of a row are the fresh steps that came to it. -/
theorem replicas_eq
    (h : (plan.assignments.map Assignment.zone).map some = stepZones (zoneNames R inventory) (sizes R inventory) N)
    (hj : j < (zoneNames R inventory).length) :
    plan.replicas (zoneNames R inventory)[j] =
      (RoundRobin.freshSteps (sizes R inventory) N).countP (· % (sizes R inventory).length = j) := by
  have hcount : plan.replicas (zoneNames R inventory)[j] =
      ((plan.assignments.map Assignment.zone).map some).countP (· = some (zoneNames R inventory)[j]) := by
    rw [Plan.replicas, List.countP_map, List.countP_map]
    exact List.countP_congr fun a _ => by simp
  rw [hcount, h, stepZones, List.countP_map]
  refine List.countP_congr fun i _ => ?_
  have hlt : i % (zoneNames R inventory).length < (zoneNames R inventory).length := Nat.mod_lt _ (by omega)
  simp [hlt, nodup_zoneNames.getElem_inj_iff]

theorem replicas_eq_zero
    (h : (plan.assignments.map Assignment.zone).map some = stepZones (zoneNames R inventory) (sizes R inventory) N)
    {z : Value α} (hz : z ∉ zoneNames R inventory) : plan.replicas z = 0 := by
  refine List.countP_eq_zero.mpr fun a ha => ?_
  have hmem : some a.zone ∈ stepZones (zoneNames R inventory) (sizes R inventory) N :=
    h ▸ List.mem_map_of_mem (List.mem_map_of_mem ha)
  obtain ⟨i, -, hi⟩ := List.mem_map.mp hmem
  simpa using ne_of_mem_of_not_mem (List.mem_of_getElem? hi) hz

/-- The walk covers the zones one a step. -/
theorem mem_stepZones {z : Value α} :
    some z ∈ stepZones (zoneNames R inventory) (sizes R inventory) N ↔ z ∈ (zoneNames R inventory).take N := by
  rw [List.mem_take_iff_getElem]
  constructor
  · intro hmem
    obtain ⟨i, hi, hz⟩ := List.mem_map.mp hmem
    obtain ⟨hlt, hz⟩ := List.getElem?_eq_some_iff.mp hz
    refine ⟨i % (zoneNames R inventory).length, ?_, hz⟩
    have hiN : i < N := List.mem_range.mp (List.mem_of_mem_filter hi)
    have hle : i % (zoneNames R inventory).length ≤ i := Nat.mod_le _ _
    omega
  · rintro ⟨j, hj, rfl⟩
    have hj' : j < (zoneNames R inventory).length := by omega
    have hsize : j < (sizes R inventory).length := by simpa using hj'
    have hpos := (RoundRobin.countP_freshSteps_pos (N := N) hsize (sizes_pos _ (List.getElem_mem hsize))).mpr (by omega)
    obtain ⟨i, hi, hij⟩ := List.countP_pos_iff.mp hpos
    refine List.mem_map.mpr ⟨i, hi, ?_⟩
    have hij : i % (zoneNames R inventory).length = j := by simpa using hij
    rw [hij, List.getElem?_eq_getElem hj']

/-- As many zones as steps, to the last zone, are as many as replicas. -/
theorem min_steps : min N (zoneNames R inventory).length =
    min (RoundRobin.freshSteps (sizes R inventory) N).length (zoneNames R inventory).length := by
  obtain hlt | hle := Nat.lt_or_ge (zoneNames R inventory).length N
  · have hfirst : RoundRobin.freshSteps (sizes R inventory) (zoneNames R inventory).length =
        List.range (zoneNames R inventory).length := RoundRobin.freshSteps_first_round sizes_pos (by simp)
    have hprefix : RoundRobin.freshSteps (sizes R inventory) (zoneNames R inventory).length <+:
        RoundRobin.freshSteps (sizes R inventory) N := RoundRobin.freshSteps_mono hlt.le
    have hlen := hprefix.length_le
    rw [hfirst, List.length_range] at hlen
    omega
  · rw [RoundRobin.freshSteps_first_round sizes_pos (by simpa using hle), List.length_range]

end Zones

/-- **Spread**: the zones are filled level by level, and as many of them are covered as there
are replicas for. -/
structure Spread {α : Type} [DecidableEq α] (inventory : List (Node α)) (n : Nat) (plan : Plan α) : Prop where
  level : ∀ z z', plan.replicas z < (nodesInZone inventory z).length → plan.replicas z' ≤ plan.replicas z + 1
  covers : plan.coverage.card = min n (inventory.map nodeZone).toFinset.card

/-- **Replicas are spread** as evenly as the zones allow. -/
theorem planReplication_spread {α : Type} [DecidableEq α] (R : Runtime α) (cid : Value α)
    (inventory : List (Node α)) (n : Nat) (hnames : (inventory.map Node.name).Nodup) (hpos : 1 ≤ n)
    (hlen : n ≤ inventory.length) :
    ∃ fuel plan, planReplication R fuel cid inventory (.int n) = some (.ok plan) ∧ Spread inventory n plan := by
  obtain ⟨fuel, plan, N, h, hzones, hcoverage, hsteps⟩ := planReplication_zones R cid hnames hpos hlen
  refine ⟨fuel, plan, h, ?_, ?_⟩
  · intro z z' hleft
    by_cases hz' : z' ∈ zoneNames R inventory
    · have hz : z ∈ zoneNames R inventory := by
        obtain ⟨node, hnode⟩ := List.exists_mem_of_length_pos (Nat.zero_lt_of_lt hleft)
        obtain ⟨hmem, hzone⟩ := mem_nodesInZone.mp hnode
        exact mem_zoneNames.mpr ⟨node, hmem, hzone⟩
      obtain ⟨j, hj, rfl⟩ := List.mem_iff_getElem.mp hz
      obtain ⟨j', hj', rfl⟩ := List.mem_iff_getElem.mp hz'
      have hsize : j < (sizes R inventory).length := by simpa using hj
      have hsize' : j' < (sizes R inventory).length := by simpa using hj'
      rw [replicas_eq hzones hj] at hleft ⊢
      rw [replicas_eq hzones hj']
      exact RoundRobin.freshSteps_level hsize hsize' (sizes_getElem hsize hj ▸ hleft)
    · rw [replicas_eq_zero hzones hz']
      exact Nat.zero_le _
  · have hcovered : plan.coverage = ((zoneNames R inventory).take N).toFinset := by
      ext z
      rw [hcoverage, List.mem_toFinset, List.mem_toFinset, ← mem_stepZones, ← hzones]
      simp
    have hall : (inventory.map nodeZone).toFinset = (zoneNames R inventory).toFinset := by
      ext z
      rw [List.mem_toFinset, List.mem_toFinset, perm_zoneNames.mem_iff, mem_distinct]
    rw [hcovered, hall, List.toFinset_card_of_nodup (nodup_zoneNames.sublist (List.take_sublist ..)),
      List.toFinset_card_of_nodup nodup_zoneNames, List.length_take, min_steps, hsteps]

namespace Sample

/-- Three nodes in one zone and one in another. -/
def fleet : List (Node Empty) :=
  [⟨.string (js "naphtali"), .string (js "jp")⟩, ⟨.string (js "simeon"), .string (js "jp")⟩,
    ⟨.string (js "judah"), .string (js "jp")⟩, ⟨.string (js "a"), .string (js "us")⟩]

end Sample

/-- Three replicas over the two zones. -/
theorem planReplication_spread_fleet :
    ∃ fuel plan, planReplication Sample.runtime fuel (.string (js "bafyTest")) Sample.fleet (.int 3) = some (.ok plan) ∧
      Spread Sample.fleet 3 plan :=
  planReplication_spread Sample.runtime _ Sample.fleet 3 (by decide) (by decide) (by decide)

/-! ## The order of the inventory -/

section Order

variable {α : Type} {text : α → JsString} {count : Value α → Nat} {a b c : Value α}

theorem zoneLe_iff : zoneLe text count a b = true ↔
    count b < count a ∨ count a = count b ∧ a.str text ≤ b.str text := by
  simp [zoneLe]

theorem zoneLe_trans : ∀ a b c : Value α, zoneLe text count a b = true → zoneLe text count b c = true →
    zoneLe text count a c = true := by
  intro a b c hab hbc
  rw [zoneLe_iff] at hab hbc ⊢
  obtain hab | ⟨hab, hab'⟩ := hab
  · left
    omega
  · obtain hbc | ⟨hbc, hbc'⟩ := hbc
    · left
      omega
    · exact .inr ⟨hab.trans hbc, List.le_trans hab' hbc'⟩

theorem zoneLe_total : ∀ a b : Value α, (zoneLe text count a b || zoneLe text count b a) = true := by
  intro a b
  rw [Bool.or_eq_true, zoneLe_iff, zoneLe_iff]
  obtain h | h | h := Nat.lt_trichotomy (count a) (count b)
  · exact .inr (.inl h)
  · obtain h' | h' := List.le_total (a.str text) (b.str text)
    · exact .inl (.inr ⟨h, h'⟩)
    · exact .inr (.inr ⟨h.symm, h'⟩)
  · exact .inl (.inl h)

/-- Two zones that `ordered` cannot tell apart. -/
theorem zoneLe_antisymm (hab : zoneLe text count a b = true) (hba : zoneLe text count b a = true) :
    count a = count b ∧ a.str text = b.str text := by
  rw [zoneLe_iff] at hab hba
  obtain h | ⟨hcount, hstr⟩ := hab
  · omega
  · obtain h' | ⟨-, hstr'⟩ := hba
    · omega
    · exact ⟨hcount, List.le_antisymm hstr hstr'⟩

end Order

section Stable

variable {α : Type} [DecidableEq α] {R : Runtime α} {cid : Value α} {inventory inventory' : List (Node α)} {n : Nat}

/-- A label that reads like `::no-zone`. -/
def namedNoZone : Value α := .string (js ":yataverse.distribution.planner/no-zone")

/-- As many nodes without a label, at least one, as nodes that are labelled like them. -/
def Tied (inventory : List (Node α)) : Prop :=
  nodesInZone inventory noZone ≠ [] ∧
    (nodesInZone inventory noZone).length = (nodesInZone inventory namedNoZone).length

/-- The zones of the inventory, in the order in which they come up in it. -/
def zoneKeys (inventory : List (Node α)) : List (Value α) := distinct (inventory.map nodeZone)

/-- A plan for `n` replicas has these zones, in this order. -/
def PlanZones (R : Runtime α) (cid : Value α) (inventory : List (Node α)) (n : Nat) (zones : List (Value α)) : Prop :=
  ∃ fuel plan, planReplication R fuel cid inventory (.int n) = some (.ok plan) ∧
    plan.assignments.map Assignment.zone = zones

theorem PlanZones.unique {zones zones' : List (Value α)} (h : PlanZones R cid inventory n zones)
    (h' : PlanZones R cid inventory n zones') : zones = zones' := by
  obtain ⟨fuel, plan, hplan, rfl⟩ := h
  obtain ⟨fuel', plan', hplan', rfl⟩ := h'
  have hsame := (planReplication_mono (Nat.le_max_left fuel fuel') hplan).symm.trans
    (planReplication_mono (Nat.le_max_right fuel fuel') hplan')
  rw [Except.ok.inj (Option.some.inj hsame)]

/-- The zones of every plan are those of the plan for any other order of the inventory. -/
def ZoneOrderFixed (R : Runtime α) (cid : Value α) (inventory : List (Node α)) : Prop :=
  ∀ inventory', List.Perm inventory' inventory → ∀ n, 1 ≤ n → n ≤ inventory.length →
    ∃ zones, PlanZones R cid inventory n zones ∧ PlanZones R cid inventory' n zones

theorem length_nodesInZone (h : inventory'.Perm inventory) (z : Value α) :
    (nodesInZone inventory' z).length = (nodesInZone inventory z).length := (h.filter _).length_eq

theorem zoneKeys_perm (h : inventory'.Perm inventory) : (zoneKeys inventory').Perm (zoneKeys inventory) := by
  refine (List.perm_ext_iff_of_nodup (nodup_distinct _) (nodup_distinct _)).mpr fun z => ?_
  rw [mem_distinct, mem_distinct, (h.map nodeZone).mem_iff]

/-- The zones of the walk are the same for two orders of the inventory when the map lists the
zones that compare equal in the same order. -/
theorem zoneNames_eq_iff (h : inventory'.Perm inventory) :
    zoneNames R inventory = zoneNames R inventory' ↔
      ∀ a b, zoneLe R.text (fun z => (nodesInZone inventory z).length) a b = true →
        zoneLe R.text (fun z => (nodesInZone inventory z).length) b a = true →
        (Before (R.listed (zoneKeys inventory)) a b ↔ Before (R.listed (zoneKeys inventory')) a b) := by
  have hperm : (R.listed (zoneKeys inventory)).Perm (R.listed (zoneKeys inventory')) :=
    (R.listed_perm _).trans ((zoneKeys_perm h).symm.trans (R.listed_perm _).symm)
  have hnodup : (R.listed (zoneKeys inventory)).Nodup := (R.listed_perm _).nodup_iff.mpr (nodup_distinct _)
  rw [zoneNames_eq, zoneNames_eq, funext fun z => length_nodesInZone h z]
  exact mergeSort_eq_iff zoneLe_trans zoneLe_total hperm hnodup

/-- The same zones of the walk give the same zones in every plan. -/
theorem planZones_of_zoneNames (h : inventory'.Perm inventory) (hnames : (inventory.map Node.name).Nodup)
    (hpos : 1 ≤ n) (hlen : n ≤ inventory.length) (hzones : zoneNames R inventory = zoneNames R inventory') :
    ∃ zones, PlanZones R cid inventory n zones ∧ PlanZones R cid inventory' n zones := by
  have hnames' : (inventory'.map Node.name).Nodup := (h.map _).nodup_iff.mpr hnames
  obtain ⟨fuel, plan, N, hplan, hz, -, hN⟩ := planReplication_zones R cid hnames hpos hlen
  obtain ⟨fuel', plan', N', hplan', hz', -, hN'⟩ :=
    planReplication_zones R cid hnames' hpos (h.length_eq ▸ hlen)
  have hsizes : sizes R inventory = sizes R inventory' := by
    simp [sizes, rows, hzones, Function.comp_def, length_nodesInZone h]
  have hsteps : RoundRobin.freshSteps (sizes R inventory) N = RoundRobin.freshSteps (sizes R inventory) N' :=
    RoundRobin.freshSteps_eq_of_length (hN.trans (by rw [hsizes, hN']))
  refine ⟨_, ⟨fuel, plan, hplan, rfl⟩, fuel', plan', hplan', ?_⟩
  refine (List.map_injective_iff.mpr (Option.some_injective _)) ?_
  rw [hz, hz', stepZones, stepZones, hsteps, ← hzones, ← hsizes]

/-- The zones of the walk are read off a plan that takes all nodes. -/
theorem zoneNames_of_planZones (hnames : (inventory.map Node.name).Nodup) (hne : inventory ≠ [])
    {zones : List (Value α)} (h : PlanZones R cid inventory inventory.length zones) :
    zones.take (zoneNames R inventory).length = zoneNames R inventory := by
  obtain ⟨fuel, plan, N, hplan, hz, -, hN⟩ :=
    planReplication_zones R cid hnames (List.length_pos_iff.mpr hne) (Nat.le_refl _)
  obtain rfl := h.unique ⟨fuel, plan, hplan, rfl⟩
  have hzones : (zoneNames R inventory).length ≤ inventory.length := by
    rw [perm_zoneNames.length_eq, ← List.length_map nodeZone]
    exact ((nodup_distinct _).subperm fun z hz => mem_distinct.mp hz).length_le
  have hfirst : RoundRobin.freshSteps (sizes R inventory) (zoneNames R inventory).length =
      List.range (zoneNames R inventory).length := RoundRobin.freshSteps_first_round sizes_pos (by simp)
  have hsteps : (RoundRobin.freshSteps (sizes R inventory) N).take (zoneNames R inventory).length =
      List.range (zoneNames R inventory).length := by
    obtain hlt | hle := Nat.lt_or_ge N (zoneNames R inventory).length
    · rw [RoundRobin.freshSteps_first_round sizes_pos (by simpa using hlt.le), List.length_range] at hN
      omega
    · have hprefix : RoundRobin.freshSteps (sizes R inventory) (zoneNames R inventory).length <+:
          RoundRobin.freshSteps (sizes R inventory) N := RoundRobin.freshSteps_mono hle
      rw [hfirst, List.prefix_iff_eq_take, List.length_range] at hprefix
      exact hprefix.symm
  refine (List.map_injective_iff.mpr (Option.some_injective _)) ?_
  rw [List.map_take, hz, stepZones, ← List.map_take, hsteps]
  refine List.ext_getElem (by simp) fun i hi hi' => ?_
  have hlt : i < (zoneNames R inventory).length := by simpa using hi'
  simp [Nat.mod_eq_of_lt hlt, hlt]

/-- Nodes that are grouped by zone come up zone by zone. -/
theorem zoneKeys_flatMap {keys : List (Value α)} (hn : keys.Nodup)
    (hall : ∀ z ∈ keys, nodesInZone inventory z ≠ []) :
    zoneKeys (keys.flatMap (nodesInZone inventory)) = keys := by
  induction keys with
  | nil => rfl
  | cons z keys ih =>
    obtain ⟨hz, hn⟩ := List.nodup_cons.mp hn
    have hrest : z ∉ (keys.flatMap (nodesInZone inventory)).map nodeZone := by
      intro hmem
      obtain ⟨node, hnode, rfl⟩ := List.mem_map.mp hmem
      obtain ⟨z', hz', hnode⟩ := List.mem_flatMap.mp hnode
      exact hz ((mem_nodesInZone.mp hnode).2 ▸ hz')
    have hconst : ∀ z' ∈ (nodesInZone inventory z).map nodeZone, z' = z := by
      intro z' hz'
      obtain ⟨node, hnode, rfl⟩ := List.mem_map.mp hz'
      exact (mem_nodesInZone.mp hnode).2
    have ih := ih hn fun z' hz' => hall z' (.tail _ hz')
    rw [zoneKeys] at ih ⊢
    rw [List.flatMap_cons, List.map_append,
      distinct_append hconst (by simpa using hall z (.head _)) hrest, ih]

/-- The labels are strings, or there is none. -/
def Labelled (inventory : List (Node α)) : Prop :=
  ∀ node ∈ inventory, node.zone = .nil ∨ ∃ s, node.zone = .string s

omit [DecidableEq α] in
theorem str_noZone (text : α → JsString) : noZone.str text = (namedNoZone : Value α).str text := by
  rw [noZone, namedNoZone, Value.str, Value.str]
  decide

theorem mem_zoneKeys {z : Value α} : z ∈ zoneKeys inventory ↔ nodesInZone inventory z ≠ [] := by
  rw [zoneKeys, mem_distinct, List.mem_map]
  constructor
  · rintro ⟨node, hnode, hz⟩
    exact List.ne_nil_of_mem (mem_nodesInZone.mpr ⟨hnode, hz⟩)
  · intro hne
    obtain ⟨node, hnode⟩ := List.exists_mem_of_ne_nil _ hne
    exact ⟨node, mem_nodesInZone.mp hnode⟩

theorem Labelled.zone (h : Labelled inventory) {z : Value α} (hz : z ∈ zoneKeys inventory) :
    z = noZone ∨ ∃ s, z = .string s := by
  obtain ⟨node, hnode, rfl⟩ := List.mem_map.mp (mem_distinct.mp hz)
  rw [nodeZone]
  obtain hnil | ⟨s, hs⟩ := h node hnode
  · rw [hnil]
    exact .inl rfl
  · rw [hs]
    exact .inr ⟨s, rfl⟩

/-- The two zones that can compare equal. -/
theorem Labelled.tied (h : Labelled inventory) {text : α → JsString} {a b : Value α}
    (ha : a ∈ zoneKeys inventory) (hb : b ∈ zoneKeys inventory) (hne : a ≠ b)
    (hcount : (nodesInZone inventory a).length = (nodesInZone inventory b).length)
    (hstr : a.str text = b.str text) :
    Tied inventory ∧ (a = noZone ∧ b = namedNoZone ∨ a = namedNoZone ∧ b = noZone) := by
  obtain rfl | ⟨s, rfl⟩ := h.zone ha
  · obtain rfl | ⟨s', rfl⟩ := h.zone hb
    · exact absurd rfl hne
    · have hb' : .string s' = (namedNoZone : Value α) :=
        congrArg Value.string (hstr.symm.trans (str_noZone text))
      rw [hb'] at hcount
      exact ⟨⟨mem_zoneKeys.mp ha, hcount⟩, .inl ⟨rfl, hb'⟩⟩
  · obtain rfl | ⟨s', rfl⟩ := h.zone hb
    · have ha' : .string s = (namedNoZone : Value α) := congrArg Value.string (hstr.trans (str_noZone text))
      rw [ha'] at hcount
      exact ⟨⟨mem_zoneKeys.mp hb, hcount.symm⟩, .inr ⟨ha', rfl⟩⟩
    · exact absurd (congrArg Value.string hstr) hne

/-- The map lists the two zones that read alike in one order, whatever the order in which it
was given the zones. -/
def ListedAlike (R : Runtime α) (inventory : List (Node α)) : Prop :=
  ∀ keys, List.Perm keys (zoneKeys inventory) →
    (Before (R.listed keys) noZone namedNoZone ↔ Before (R.listed (zoneKeys inventory)) noZone namedNoZone)

/-- Where no two zones compare equal, or the map lists them alike, the walk takes the zones in
one order. -/
theorem zoneNames_of_listedAlike (h : inventory'.Perm inventory) (hlabels : Labelled inventory)
    (hlisted : Tied inventory → ListedAlike R inventory) : zoneNames R inventory = zoneNames R inventory' := by
  refine (zoneNames_eq_iff h).mpr fun a b hab hba => ?_
  obtain ⟨hcount, hstr⟩ := zoneLe_antisymm hab hba
  have hn : (R.listed (zoneKeys inventory)).Nodup := (R.listed_perm _).nodup_iff.mpr (nodup_distinct _)
  have hn' : (R.listed (zoneKeys inventory')).Nodup := (R.listed_perm _).nodup_iff.mpr (nodup_distinct _)
  have hmem : ∀ z, z ∈ R.listed (zoneKeys inventory') ↔ z ∈ R.listed (zoneKeys inventory) := fun z =>
    ((R.listed_perm _).trans ((zoneKeys_perm h).trans (R.listed_perm _).symm)).mem_iff
  by_cases hpair : (a ∈ R.listed (zoneKeys inventory) ∧ b ∈ R.listed (zoneKeys inventory)) ∧ a ≠ b
  · obtain ⟨⟨ha, hb⟩, hne⟩ := hpair
    obtain ⟨htied, ⟨rfl, rfl⟩ | ⟨rfl, rfl⟩⟩ :=
      hlabels.tied ((R.listed_perm _).mem_iff.mp ha) ((R.listed_perm _).mem_iff.mp hb) hne hcount hstr
    · exact (hlisted htied _ (zoneKeys_perm h)).symm
    · rw [before_iff_not hn ha hb hne, before_iff_not hn' ((hmem _).mpr ha) ((hmem _).mpr hb) hne,
        hlisted htied _ (zoneKeys_perm h)]
  · constructor
    · intro hbefore
      exact absurd ⟨⟨hbefore.mem_left, hbefore.mem_right⟩, hbefore.ne hn⟩ hpair
    · intro hbefore
      exact absurd ⟨⟨(hmem _).mp hbefore.mem_left, (hmem _).mp hbefore.mem_right⟩, hbefore.ne hn'⟩ hpair

/-- What the plans for an inventory say of the map. -/
theorem ZoneOrderFixed.listedAlike (h : ZoneOrderFixed R cid inventory)
    (hnames : (inventory.map Node.name).Nodup) (htied : Tied inventory) : ListedAlike R inventory := by
  intro keys hkeys
  have hn : keys.Nodup := hkeys.nodup_iff.mpr (nodup_distinct _)
  have hperm : (keys.flatMap (nodesInZone inventory)).Perm inventory := by
    refine flatMap_nodesInZone hn inventory fun node hnode => hkeys.mem_iff.mpr ?_
    exact mem_distinct.mpr (List.mem_map_of_mem hnode)
  have hall : zoneKeys (keys.flatMap (nodesInZone inventory)) = keys :=
    zoneKeys_flatMap hn fun z hz => mem_zoneKeys.mp (hkeys.mem_iff.mp hz)
  have hne : inventory ≠ [] := by
    rintro rfl
    exact htied.1 rfl
  obtain ⟨zones, hz, hz'⟩ := h _ hperm _ (List.length_pos_iff.mpr hne) (Nat.le_refl _)
  rw [← hperm.length_eq] at hz'
  have hwalk := zoneNames_of_planZones hnames hne hz
  have hwalk' := zoneNames_of_planZones ((hperm.map _).nodup_iff.mpr hnames)
    (fun hnil => hne (hnil ▸ hperm).nil_eq.symm) hz'
  have hlen : (zoneNames R (keys.flatMap (nodesInZone inventory))).length = (zoneNames R inventory).length := by
    rw [perm_zoneNames.length_eq, perm_zoneNames.length_eq]
    exact (zoneKeys_perm hperm).length_eq
  rw [hlen] at hwalk'
  have hbefore := (zoneNames_eq_iff hperm).mp (hwalk.symm.trans hwalk') noZone namedNoZone
    (zoneLe_iff.mpr (.inr ⟨htied.2, (str_noZone _) ▸ List.le_refl _⟩))
    (zoneLe_iff.mpr (.inr ⟨htied.2.symm, (str_noZone _) ▸ List.le_refl _⟩))
  rw [hall] at hbefore
  exact hbefore.symm

/-- A map of up to eight zones lists them in the order they came in. -/
theorem not_listedAlike (hsmall : (zoneKeys inventory).length ≤ 8) (htied : Tied inventory) :
    ¬ ListedAlike R inventory := by
  intro h
  have hne : (noZone : Value α) ≠ namedNoZone := by
    intro heq
    cases heq
  have hunlabelled : noZone ∈ zoneKeys inventory := mem_zoneKeys.mpr htied.1
  have hnamed : namedNoZone ∈ zoneKeys inventory := by
    refine mem_zoneKeys.mpr (List.length_pos_iff.mp ?_)
    rw [← htied.2]
    exact List.length_pos_iff.mpr htied.1
  -- the same zones with one or the other of the two in front
  have hfront : ∀ {z z' : Value α}, z ∈ zoneKeys inventory → z' ∈ zoneKeys inventory → z ≠ z' →
      List.Perm (z :: (zoneKeys inventory).erase z) (zoneKeys inventory) ∧
        Before (R.listed (z :: (zoneKeys inventory).erase z)) z z' := by
    intro z z' hz hz' hzz'
    have hperm := (List.perm_cons_erase hz).symm
    refine ⟨hperm, ?_⟩
    rw [R.listed_small _ (hperm.length_eq.trans_le hsmall)]
    exact before_cons.mpr (.inr ⟨rfl, (List.mem_erase_of_ne hzz'.symm).mpr hz'⟩)
  obtain ⟨hperm, hbefore⟩ := hfront hunlabelled hnamed hne
  obtain ⟨hperm', hbefore'⟩ := hfront hnamed hunlabelled hne.symm
  have hn : (R.listed (namedNoZone :: (zoneKeys inventory).erase namedNoZone)).Nodup :=
    ((R.listed_perm _).trans hperm').nodup_iff.mpr (nodup_distinct _)
  exact hbefore'.asymm hn ((h _ hperm').mpr ((h _ hperm).mp hbefore))

end Stable

/-- **The zones of a plan** do not depend on the order of the inventory, except where a node
without a label and a label that reads like it make two zones of one size, which the map
lists in the order they came in. -/
theorem zoneOrder_iff {α : Type} [DecidableEq α] (R : Runtime α) (cid : Value α) (inventory : List (Node α))
    (hnames : (inventory.map Node.name).Nodup) (hlabels : Labelled inventory) :
    ZoneOrderFixed R cid inventory ↔ (Tied inventory → ListedAlike R inventory) := by
  constructor
  · intro h htied
    exact h.listedAlike hnames htied
  · intro hlisted inventory' hperm n hpos hlen
    exact planZones_of_zoneNames hperm hnames hpos hlen (zoneNames_of_listedAlike hperm hlabels hlisted)

namespace Sample

/-- A node without a label, and one that is labelled like it. -/
def tied : List (Node Empty) := [⟨.string (js "a"), .nil⟩, ⟨.string (js "b"), namedNoZone⟩]

end Sample

/-- No zone of the fleet is tied with another. -/
theorem zoneOrder_iff_fleet : ZoneOrderFixed Sample.runtime .nil Sample.fleet ↔
    (Tied Sample.fleet → ListedAlike Sample.runtime Sample.fleet) :=
  zoneOrder_iff _ _ _ (by decide) (by simp [Labelled, Sample.fleet])

/-- **A tie**: the plan begins with the zone of the node that comes first. -/
theorem not_zoneOrder : ¬ ∀ (α : Type) (_ : DecidableEq α) (R : Runtime α) (cid : Value α)
    (inventory : List (Node α)), (inventory.map Node.name).Nodup → Labelled inventory →
      ZoneOrderFixed R cid inventory := by
  intro h
  have hfixed : ZoneOrderFixed Sample.runtime .nil Sample.tied :=
    h Empty inferInstance Sample.runtime .nil Sample.tied (by decide)
      (by simp [Labelled, Sample.tied, namedNoZone])
  have htied : Tied Sample.tied := by
    constructor
    · decide
    · decide
  exact not_listedAlike (by decide) htied (hfixed.listedAlike (by decide +kernel) htied)

end Planner
