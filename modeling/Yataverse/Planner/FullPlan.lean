import Yataverse.Planner.Plan

/-!
# A full plan or none

`plan-replication` "fails closed": a plan has as many replicas as the factor asks for. The
loop takes a node only if its name is new, but what is checked before the loop is the number
of nodes.

- `ordered_zones`: the walk is a round robin over the nodes of each zone, which are all nodes.
- `Full`: what a plan must be.
- **`answers_iff`**: a call ends, with a full plan or an error, exactly when an inventory that
  is large enough for the factor has that many different names.
- **`not_answers`**: two nodes of one name, and the factor two.
-/

namespace Planner

open Js

/-! ## The first of each -/

section Distinct

variable {κ : Type} [DecidableEq κ] {k : κ} {ks : List κ}

@[simp] theorem mem_distinct : k ∈ distinct ks ↔ k ∈ ks := by
  induction ks with
  | nil => rfl
  | cons k' ks ih =>
    rw [distinct, List.mem_cons, List.mem_cons, List.mem_filter, ih]
    by_cases hk : k = k' <;> simp [hk]

theorem nodup_distinct (ks : List κ) : (distinct ks).Nodup := by
  induction ks with
  | nil => exact .nil
  | cons k ks ih => exact .cons (fun h => by simp at h) (ih.filter _)

theorem distinct_eq_self (h : ks.Nodup) : distinct ks = ks := by
  induction ks with
  | nil => rfl
  | cons k ks ih =>
    obtain ⟨hk, h⟩ := List.nodup_cons.mp h
    rw [distinct, ih h, List.filter_eq_self.mpr]
    intro k' hk'
    simpa using ne_of_mem_of_not_mem hk' hk

/-- What is repeated at the front counts once. -/
theorem distinct_append {ks' : List κ} (hconst : ∀ k' ∈ ks, k' = k) (hne : ks ≠ []) (hk : k ∉ ks') :
    distinct (ks ++ ks') = k :: distinct ks' := by
  have hself : (distinct ks').filter (· ≠ k) = distinct ks' := by
    refine List.filter_eq_self.mpr fun k' hk' => ?_
    simpa using ne_of_mem_of_not_mem (mem_distinct.mp hk') hk
  induction ks with
  | nil => exact absurd rfl hne
  | cons k' ks ih =>
    obtain rfl : k' = k := hconst k' (.head _)
    cases ks with
    | nil => rw [List.singleton_append, distinct, hself]
    | cons k'' ks =>
      rw [List.cons_append, distinct, ih (fun x hx => hconst x (.tail _ hx)) (by simp)]
      simpa using hself

/-- Different values out of `ks` are no more than there are. -/
theorem length_le_distinct {ks' : List κ} (h : ks'.Nodup) (hsub : ∀ k ∈ ks', k ∈ ks) :
    ks'.length ≤ (distinct ks).length :=
  (h.subperm fun k hk => mem_distinct.mpr (hsub k hk)).length_le

end Distinct

/-! ## The zones of the walk -/

section Zones

variable {α : Type} [DecidableEq α] (R : Runtime α) (inventory : List (Node α))

/-- The zones in the order of the walk. -/
def zoneNames : List (Value α) := (ordered R inventory).map Prod.fst

/-- The nodes of each zone. -/
def rows : List (List (Node α)) := (zoneNames R inventory).map (nodesInZone inventory)

variable {R inventory}

theorem mem_byZone {e : Value α × List (Node α)} (h : e ∈ byZone R inventory) :
    e.2 = nodesInZone inventory e.1 := by
  obtain ⟨z, -, rfl⟩ := List.mem_map.mp h
  rfl

theorem mem_ordered {e : Value α × List (Node α)} (h : e ∈ ordered R inventory) :
    e.2 = nodesInZone inventory e.1 := mem_byZone (List.mem_mergeSort.mp h)

/-- The zones are sorted as the map lists them. -/
theorem zoneNames_eq : zoneNames R inventory =
    (R.listed (distinct (inventory.map nodeZone))).mergeSort
      (zoneLe R.text fun z => (nodesInZone inventory z).length) := by
  have hfst : (byZone R inventory).map Prod.fst = R.listed (distinct (inventory.map nodeZone)) := by
    rw [byZone, List.map_map]
    exact List.map_id _
  rw [zoneNames, ordered, ← hfst]
  refine List.map_mergeSort fun e he e' he' => ?_
  rw [zoneLe, mem_byZone he, mem_byZone he']

theorem perm_zoneNames : (zoneNames R inventory).Perm (distinct (inventory.map nodeZone)) := by
  rw [zoneNames_eq]
  exact (List.mergeSort_perm _ _).trans (R.listed_perm _)

theorem nodup_zoneNames : (zoneNames R inventory).Nodup :=
  perm_zoneNames.nodup_iff.mpr (nodup_distinct _)

theorem mem_zoneNames {z : Value α} : z ∈ zoneNames R inventory ↔ ∃ node ∈ inventory, nodeZone node = z := by
  rw [perm_zoneNames.mem_iff, mem_distinct, List.mem_map]

theorem mem_nodesInZone {node : Node α} {z : Value α} :
    node ∈ nodesInZone inventory z ↔ node ∈ inventory ∧ nodeZone node = z := by
  simp [nodesInZone]

/-- The nodes of all zones are the inventory, in another order. -/
theorem flatMap_nodesInZone {zs : List (Value α)} (hn : zs.Nodup) (inventory : List (Node α))
    (hall : ∀ node ∈ inventory, nodeZone node ∈ zs) : (zs.flatMap (nodesInZone inventory)).Perm inventory := by
  induction zs generalizing inventory with
  | nil =>
    cases inventory with
    | nil => exact .nil
    | cons node inventory => exact absurd (hall node (.head _)) (by simp)
  | cons z zs ih =>
    obtain ⟨hz, hn⟩ := List.nodup_cons.mp hn
    -- the other zones have their nodes in what is left without `z`
    have hrest : zs.flatMap (nodesInZone inventory) =
        zs.flatMap (nodesInZone (inventory.filter fun node => !decide (nodeZone node = z))) := by
      refine List.flatMap_congr fun z' hz' => ?_
      have hne : z' ≠ z := ne_of_mem_of_not_mem hz' hz
      rw [nodesInZone, nodesInZone, List.filter_filter]
      refine List.filter_congr fun node _ => ?_
      by_cases h : nodeZone node = z' <;> simp [h, hne]
    rw [List.flatMap_cons, hrest]
    refine (List.Perm.append_left _ (ih hn _ ?_)).trans (List.filter_append_perm _ _)
    intro node hnode
    obtain ⟨hmem, hne⟩ := List.mem_filter.mp hnode
    exact (List.mem_cons.mp (hall node hmem)).resolve_left (by simpa using hne)

theorem rows_flatten_perm : (rows R inventory).flatten.Perm inventory := by
  rw [rows, ← List.flatMap_def]
  refine flatMap_nodesInZone nodup_zoneNames inventory fun node hnode => ?_
  exact mem_zoneNames.mpr ⟨node, hnode, rfl⟩

theorem rows_ne_nil {row : List (Node α)} (h : row ∈ rows R inventory) : row ≠ [] := by
  obtain ⟨z, hz, rfl⟩ := List.mem_map.mp h
  obtain ⟨node, hnode, rfl⟩ := mem_zoneNames.mp hz
  exact List.ne_nil_of_mem (mem_nodesInZone.mpr ⟨hnode, rfl⟩)

/-- The pool is the inventory, in another order. -/
theorem pool_length : ((ordered R inventory).flatMap Prod.snd).length = inventory.length := by
  have hrows : (ordered R inventory).map Prod.snd = rows R inventory := by
    rw [rows, zoneNames, List.map_map]
    exact List.map_congr_left fun e he => mem_ordered he
  rw [List.flatMap_def, hrows, rows_flatten_perm.length_eq]

/-- **The walk is a round robin.** -/
theorem candidate_eq : candidate (zoneNames R inventory) (nodesInZone inventory) = RoundRobin.visit (rows R inventory) := by
  funext i
  rw [candidate, RoundRobin.visit, rows, List.length_map, List.getElem?_map, Option.bind_map]
  rfl

theorem exists_candidate (hne : inventory ≠ []) (i : Nat) :
    ∃ cand ∈ inventory, RoundRobin.visit (rows R inventory) i = some cand := by
  have hrows : rows R inventory ≠ [] := by
    intro h
    have hperm : (rows R inventory).flatten.Perm inventory := rows_flatten_perm
    rw [h] at hperm
    exact hne hperm.nil_eq.symm
  obtain ⟨cand, row, hrow, hvisit, hmem⟩ := RoundRobin.exists_visit hrows (fun row hrow => rows_ne_nil hrow) i
  refine ⟨cand, ?_, hvisit⟩
  exact rows_flatten_perm.mem_iff.mp (List.mem_flatten.mpr ⟨row, List.mem_of_getElem? hrow, hmem⟩)

end Zones

/-! ## The loop -/

section Loop

variable {α : Type} [DecidableEq α] {R : Runtime α} {inventory : List (Node α)}
  {cands : Nat → Option (Node α)} {factor fuel i : Nat} {picked : List (Node α)} {seen : List (Value α)}

/-- Nodes of the inventory, no two of one name. -/
structure Picked (inventory picked : List (Node α)) : Prop where
  names : (picked.map Node.name).Nodup
  mem : ∀ node ∈ picked, node ∈ inventory

omit [DecidableEq α] in
theorem Picked.nil : Picked inventory [] := ⟨.nil, by simp⟩

omit [DecidableEq α] in
theorem Picked.concat (h : Picked inventory picked) {cand : Node α} (hmem : cand ∈ inventory)
    (hnew : cand.name ∉ picked.map Node.name) : Picked inventory (picked ++ [cand]) := by
  constructor
  · rw [List.map_append, List.map_singleton]
    exact h.names.append (List.nodup_singleton _) (by simpa using hnew)
  · intro node hnode
    obtain hnode | hnode := List.mem_append.mp hnode
    · exact h.mem node hnode
    · rw [List.mem_singleton.mp hnode]
      exact hmem

theorem Picked.pick (h : Picked inventory picked) {cand : Node α} (hmem : cand ∈ inventory) :
    Picked inventory (pick picked cand) := by
  unfold Planner.pick
  split
  next => exact h
  next hnew => exact h.concat hmem hnew

/-- No more nodes are picked than there are names. -/
theorem Picked.length_le (h : Picked inventory picked) :
    picked.length ≤ (distinct (inventory.map Node.name)).length := by
  rw [← List.length_map Node.name]
  refine length_le_distinct h.names fun name hname => ?_
  obtain ⟨node, hnode, rfl⟩ := List.mem_map.mp hname
  exact List.mem_map_of_mem (h.mem node hnode)

/-- While fewer nodes are picked than there are names, there is a node of a new name. -/
theorem Picked.exists_new (hlt : picked.length < (distinct (inventory.map Node.name)).length) :
    ∃ node ∈ inventory, node.name ∉ picked.map Node.name := by
  by_contra hall
  have hle : (distinct (inventory.map Node.name)).length ≤ (picked.map Node.name).length := by
    refine ((nodup_distinct _).subperm fun name hname => ?_).length_le
    obtain ⟨node, hnode, rfl⟩ := List.mem_map.mp (mem_distinct.mp hname)
    by_contra hnew
    exact hall ⟨node, hnode, hnew⟩
  rw [List.length_map] at hle
  omega

/-- The loop ends. -/
def Returns (cands : Nat → Option (Node α)) (factor i : Nat) (picked : List (Node α)) (seen : List (Value α)) : Prop :=
  ∃ fuel r, walk cands factor fuel i picked seen = some r

theorem returns_next {cand : Node α} (hc : cands i = some cand) (hlen : picked.length ≠ factor)
    (hold : cand.name ∈ seen → Returns cands factor (i + 1) picked seen)
    (hnew : cand.name ∉ seen → Returns cands factor (i + 1) (picked ++ [cand]) (cand.name :: seen)) :
    Returns cands factor i picked seen := by
  by_cases hmem : cand.name ∈ seen
  · obtain ⟨fuel, r, h⟩ := hold hmem
    exact ⟨fuel + 1, r, by rw [walk, if_neg hlen, hc]; simpa [hmem] using h⟩
  · obtain ⟨fuel, r, h⟩ := hnew hmem
    exact ⟨fuel + 1, r, by rw [walk, if_neg hlen, hc]; simpa [hmem] using h⟩

/-- The loop goes on until it meets a new name, `d` steps ahead at most. -/
theorem returns_search (hcands : ∀ i, ∃ cand ∈ inventory, cands i = some cand) (hlen : picked.length ≠ factor)
    (hgrow : ∀ i cand, cand ∈ inventory → cand.name ∉ seen →
      Returns cands factor (i + 1) (picked ++ [cand]) (cand.name :: seen))
    (d : Nat) (hd : ∃ cand, cands (i + d) = some cand ∧ cand.name ∉ seen) : Returns cands factor i picked seen := by
  induction d generalizing i with
  | zero =>
    obtain ⟨cand, hc, hnew⟩ := hd
    obtain ⟨cand', hmem, hc'⟩ := hcands i
    obtain rfl : cand' = cand := Option.some.inj (hc'.symm.trans hc)
    exact returns_next hc' hlen (fun h => absurd h hnew) fun h => hgrow i _ hmem h
  | succ d ih =>
    obtain ⟨cand, hmem, hc⟩ := hcands i
    refine returns_next hc hlen (fun _ => ih ?_) fun h => hgrow i cand hmem h
    rw [Nat.add_assoc, Nat.add_comm 1 d]
    exact hd

/-- **The loop ends** where there are as many names as the factor asks for. -/
theorem returns_of_names (hcands : ∀ i, ∃ cand ∈ inventory, cands i = some cand)
    (hagain : ∀ node ∈ inventory, ∀ i, ∃ i' ≥ i, cands i' = some node)
    (hfactor : factor ≤ (distinct (inventory.map Node.name)).length) (hp : Picked inventory picked)
    (hseen : Seen picked seen) (hle : picked.length ≤ factor) : Returns cands factor i picked seen := by
  obtain ⟨left, hleft⟩ : ∃ left, factor = picked.length + left := Nat.exists_eq_add_of_le hle
  induction left generalizing i picked seen with
  | zero =>
    refine ⟨1, .ok picked, ?_⟩
    rw [walk, if_pos (hleft.trans (Nat.add_zero _)).symm]
  | succ left ih =>
    have hlen : picked.length ≠ factor := by omega
    have hlt : picked.length < (distinct (inventory.map Node.name)).length := by omega
    obtain ⟨node, hnode, hnew⟩ := Picked.exists_new hlt
    obtain ⟨i', hi', hc⟩ := hagain node hnode i
    refine returns_search hcands hlen ?_ (i' - i) ⟨node, ?_, fun h => hnew ((hseen _).mp h)⟩
    · intro i cand hmem hnew
      have hnew' : cand.name ∉ picked.map Node.name := fun h => hnew ((hseen _).mpr h)
      exact ih (hp.concat hmem hnew') (hseen.concat cand) (by simp; omega) (by simp; omega)
    · rwa [Nat.add_sub_cancel' hi']

/-- What the loop returns. -/
theorem walk_returns (hcands : ∀ i, ∃ cand ∈ inventory, cands i = some cand) {r : Except String (List (Node α))}
    (h : walk cands factor fuel i picked seen = some r) (hp : Picked inventory picked) (hseen : Seen picked seen) :
    ∃ picked', r = .ok picked' ∧ Picked inventory picked' ∧ picked'.length = factor := by
  have hok : ∃ picked', r = .ok picked' := by
    clear hp hseen
    induction fuel generalizing i picked seen with
    | zero => cases h
    | succ fuel ih =>
      obtain ⟨cand, -, hc⟩ := hcands i
      rw [walk, hc] at h
      dsimp only at h
      split at h
      · exact ⟨picked, (Option.some.inj h).symm⟩
      · split at h
        · exact ih h
        · exact ih h
  obtain ⟨picked', rfl⟩ := hok
  have hstep : ∀ (i : Nat) (picked : List (Node α)) (cand : Node α), Picked inventory picked →
      cands i = some cand → Picked inventory (pick picked cand) := by
    intro i picked cand hp hc
    obtain ⟨cand', hmem, hc'⟩ := hcands i
    obtain rfl : cand' = cand := Option.some.inj (hc'.symm.trans hc)
    exact hp.pick hmem
  obtain ⟨-, hp', hlen⟩ := walk_invariant hstep hseen hp h
  exact ⟨picked', rfl, hp', hlen⟩

end Loop

/-! ## The plan -/

section Answers

variable {α : Type} [DecidableEq α] {R : Runtime α} {cid factor : Value α} {inventory : List (Node α)}
  {n fuel : Nat}

/-- A plan with as many assignments as `factor` says: nodes of the inventory with their
zones, no two of one name. -/
structure Full (inventory : List (Node α)) (factor : Value α) (plan : Plan α) : Prop where
  length : factor = .int plan.assignments.length
  names : (plan.assignments.map Assignment.node).Nodup
  taken : ∀ a ∈ plan.assignments, ∃ node ∈ inventory, a = ⟨nodeZone node, node.name⟩
  coverage : ∀ zone, zone ∈ plan.coverage ↔ ∃ a ∈ plan.assignments, a.zone = zone
  shortfall : plan.shortfall = 0

/-- A call ends, and if it returns a plan, that is a full one. -/
def Answers (R : Runtime α) (cid : Value α) (inventory : List (Node α)) (factor : Value α) : Prop :=
  ∃ fuel r, planReplication R fuel cid inventory factor = some r ∧ ∀ plan, r = .ok plan → Full inventory factor plan

omit [DecidableEq α] in
theorem posInt_eq_some : posInt factor = some n ↔ factor = .int n ∧ 0 < n := by
  unfold posInt
  split
  · rename_i k
    constructor
    · intro h
      obtain rfl := Option.some.inj h
      exact ⟨rfl, Nat.succ_pos k⟩
    · rintro ⟨h, -⟩
      exact congrArg some (Int.ofNat.inj (Value.int.inj h))
  · rename_i hnot
    constructor
    · intro h
      cases h
    rintro ⟨rfl, hpos⟩
    obtain ⟨k, rfl⟩ := Nat.exists_eq_succ_of_ne_zero hpos.ne'
    exact absurd rfl (hnot k)

/-- The call from the loop on. -/
theorem planReplication_eq (hfactor : factor = .int n) (hpos : 0 < n) (hlen : n ≤ inventory.length) :
    planReplication R fuel cid inventory factor =
      (walk (RoundRobin.visit (rows R inventory)) n fuel 0 [] []).map fun r => r.map (planOf cid n) := by
  have hne : inventory.isEmpty = false := by
    cases inventory with
    | nil => exact absurd hlen (Nat.not_le.mpr hpos)
    | cons => rfl
  have hcand : candidate ((ordered R inventory).map Prod.fst) (nodesInZone inventory) =
      RoundRobin.visit (rows R inventory) := candidate_eq
  rw [planReplication, posInt_eq_some.mpr ⟨hfactor, hpos⟩]
  simp only [hne, pool_length, hcand, if_neg (Nat.not_lt.mpr hlen), Bool.false_eq_true, if_false]

theorem Full.of_picked {picked : List (Node α)} (h : Picked inventory picked) (hlen : picked.length = n) :
    Full inventory (.int n) (planOf cid n picked) := by
  refine ⟨by simp [planOf, hlen], ?_, ?_, ?_, by simp [planOf, hlen]⟩
  · simpa [planOf, Function.comp_def] using h.names
  · intro a ha
    obtain ⟨node, hnode, rfl⟩ := List.mem_map.mp ha
    exact ⟨node, h.mem node hnode, rfl⟩
  · simp [planOf]

/-- The loop of a call that gets to it. -/
theorem visit_mem (hpos : 0 < n) (hlen : n ≤ inventory.length) (i : Nat) :
    ∃ cand ∈ inventory, RoundRobin.visit (rows R inventory) i = some cand :=
  exists_candidate (List.length_pos_iff.mp (Nat.lt_of_lt_of_le hpos hlen)) i

theorem visit_again (node : Node α) (h : node ∈ inventory) (i : Nat) :
    ∃ i' ≥ i, RoundRobin.visit (rows R inventory) i' = some node := by
  obtain ⟨row, hrow, hnode⟩ := List.mem_flatten.mp ((rows_flatten_perm (R := R)).mem_iff.mpr h)
  exact RoundRobin.exists_visit_ge hrow hnode i

/-- A call that gets to the loop ends where there are enough names. -/
theorem planReplication_ends (R : Runtime α) (cid : Value α) (hfactor : factor = .int n) (hpos : 0 < n) (hlen : n ≤ inventory.length)
    (hnames : n ≤ (distinct (inventory.map Node.name)).length) :
    ∃ fuel picked, planReplication R fuel cid inventory factor = some (.ok (planOf cid n picked)) ∧
      Picked inventory picked ∧ picked.length = n ∧
      walk (RoundRobin.visit (rows R inventory)) n fuel 0 [] [] = some (.ok picked) := by
  obtain ⟨fuel, r, hr⟩ := returns_of_names (visit_mem (R := R) hpos hlen) visit_again hnames Picked.nil
    Seen.nil (i := 0) (Nat.zero_le n)
  obtain ⟨picked, rfl, hp, hlen'⟩ := walk_returns (visit_mem hpos hlen) hr Picked.nil Seen.nil
  refine ⟨fuel, picked, ?_, hp, hlen', hr⟩
  rw [planReplication_eq hfactor hpos hlen, hr]
  rfl

/-- A call that gets to the loop and ends has found enough names. -/
theorem names_of_planReplication (hfactor : factor = .int n) (hpos : 0 < n) (hlen : n ≤ inventory.length)
    {r : Except String (Plan α)} (h : planReplication R fuel cid inventory factor = some r) :
    n ≤ (distinct (inventory.map Node.name)).length := by
  rw [planReplication_eq hfactor hpos hlen] at h
  obtain ⟨r', hr', -⟩ := Option.map_eq_some_iff.mp h
  obtain ⟨picked, -, hp, rfl⟩ := walk_returns (visit_mem hpos hlen) hr' Picked.nil Seen.nil
  exact hp.length_le

/-- A call that does not get to the loop is refused. -/
theorem planReplication_refused (R : Runtime α) (cid : Value α) (h : ∀ n : Nat, factor = .int n → 0 < n → inventory.length < n) :
    ∃ e, planReplication R 0 cid inventory factor = some (.error e) := by
  rw [planReplication]
  cases hn : posInt factor with
  | none => exact ⟨_, rfl⟩
  | some n =>
    obtain ⟨hfactor, hpos⟩ := posInt_eq_some.mp hn
    dsimp only
    split
    · exact ⟨_, rfl⟩
    · rw [if_pos (by rw [pool_length]; exact h n hfactor hpos)]
      exact ⟨_, rfl⟩

end Answers

/-- **A call answers**, with a full plan or an error, exactly when an inventory that is large
enough for the factor has as many different names. -/
theorem answers_iff {α : Type} [DecidableEq α] (R : Runtime α) (cid : Value α) (inventory : List (Node α))
    (factor : Value α) :
    Answers R cid inventory factor ↔
      ∀ n : Nat, factor = .int n → 0 < n → n ≤ inventory.length →
        n ≤ (distinct (inventory.map Node.name)).length := by
  constructor
  · rintro ⟨fuel, r, h, -⟩ n hfactor hpos hlen
    exact names_of_planReplication hfactor hpos hlen h
  · intro hnames
    by_cases hloop : ∃ n : Nat, factor = .int n ∧ 0 < n ∧ n ≤ inventory.length
    · obtain ⟨n, hfactor, hpos, hlen⟩ := hloop
      obtain ⟨fuel, picked, h, hp, hlen', -⟩ :=
        planReplication_ends R cid hfactor hpos hlen (hnames n hfactor hpos hlen)
      refine ⟨fuel, _, h, ?_⟩
      rintro plan ⟨⟩
      exact hfactor ▸ Full.of_picked hp hlen'
    · obtain ⟨e, h⟩ := planReplication_refused R cid fun n hfactor hpos =>
        Nat.lt_of_not_le fun hlen => hloop ⟨n, hfactor, hpos, hlen⟩
      refine ⟨0, _, h, ?_⟩
      rintro plan ⟨⟩

namespace Sample

/-- No other values, and maps that keep their order. -/
def runtime : Runtime Empty := ⟨Empty.elim, id, fun _ => .refl _, fun _ _ => rfl⟩

def node (name : String) : Node Empty := ⟨.string (js name), .nil⟩

end Sample

/-- **Two nodes of one name**: the loop for two replicas never ends. -/
theorem not_answers : ¬ ∀ (α : Type) (_ : DecidableEq α) (R : Runtime α) (cid : Value α)
    (inventory : List (Node α)) (factor : Value α), Answers R cid inventory factor := by
  intro h
  obtain ⟨fuel, r, hr, -⟩ := h Empty inferInstance Sample.runtime .nil [Sample.node "a", Sample.node "a"] (.int 2)
  exact absurd (names_of_planReplication (n := 2) rfl (by decide) (by decide) hr) (by decide)

end Planner
