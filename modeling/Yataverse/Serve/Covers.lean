import Yataverse.Serve.Receipts
import Mathlib.Data.List.Perm.Basic

/-!
# Receipts cover the rows of their ranges

The two readers go through the directories in their own order, merge what they find, and look a row up in
different ways.

- `Covered`: a row lies in the range of a receipt.
- `rangesOf_spec`: the ranges that are found are those of the receipts.
- `merged_perm`: their order does not matter.
- **`covers_exact`**: both readers answer whether the row is covered.
-/

namespace Serve

open Js Lake Fallible Cover Sorting

/-- The row lies in the range that a receipt has in its name. -/
inductive Covered (d : Directories) (row : Nat) : Prop where
  | native {f : File} {start last : Nat} (hf : f ∈ d.natives.flatMap filesOf) (hname : f.name = .native start last)
      (hrow : start ≤ row ∧ row ≤ last)
  | car {f : File} {start last : Nat} (hf : f ∈ filesOf (d.car.getD none)) (hname : f.name = .car start last)
      (hrow : start ≤ row ∧ row ≤ last)

/-- The directories as another reader goes through them. -/
structure SameFiles (d d' : Directories) : Prop where
  mtimes : d'.mtimes = d.mtimes
  natives : (d.natives.flatMap filesOf).Perm (d'.natives.flatMap filesOf)
  car : (filesOf (d.car.getD none)).Perm (filesOf (d'.car.getD none))

variable {inventory : Inventory} {repository : JsString} {d d' : Directories} {f : File} {start last i row : Nat}
  {record : Option Json} {range : Nat × Nat} {ranges ranges' : List (Nat × Nat)} {strict : Bool}

/-! ## What a receipt says -/

theorem nativeRange_eq (h : nativeRange inventory repository start last record = .ok range) :
    range = (start, last + 1) ∧ start ≤ last := by
  unfold nativeRange at h
  obtain ⟨record, -, h⟩ := bind_eq_ok.mp h
  obtain ⟨_, hrange, h⟩ := bind_eq_ok.mp h
  obtain ⟨⟨rows, actual⟩, -, h⟩ := bind_eq_ok.mp h
  obtain ⟨_, -, h⟩ := bind_eq_ok.mp h
  exact ⟨(Except.ok.inj h).symm, Nat.le_of_lt_succ (require_eq_ok.mp hrange).1⟩

theorem carRange_eq (h : carRange inventory repository start last record = .ok range) :
    range = (start, last + 1) ∧ start ≤ last := by
  unfold carRange at h
  obtain ⟨record, -, h⟩ := bind_eq_ok.mp h
  obtain ⟨_, hrecord, h⟩ := bind_eq_ok.mp h
  obtain ⟨-, -, -, -, hrange, -⟩ := require_eq_ok.mp hrecord
  exact ⟨(Except.ok.inj h).symm, Nat.le_of_lt_succ hrange⟩

theorem contains_iff : Contains (start, last + 1) i ↔ start ≤ i ∧ i ≤ last := by
  rw [Contains, Nat.lt_succ_iff]

/-- What the reader accepts of a native directory is the range in the name. -/
theorem nativeFile_spec {o : Option (Nat × Nat)} (h : nativeFile inventory repository strict f = .ok o) :
    o = some range ↔ ∃ start last, f.name = .native start last ∧ start ≤ last ∧ range = (start, last + 1) := by
  unfold nativeFile at h
  cases hname : f.name with
  | native start last =>
    rw [hname] at h
    obtain ⟨_, hrange, rfl⟩ := map_eq_ok.mp h
    obtain ⟨rfl, hle⟩ := nativeRange_eq hrange
    constructor
    · rintro hr
      exact ⟨start, last, rfl, hle, (Option.some.inj hr).symm⟩
    · rintro ⟨start, last, hr, -, rfl⟩
      cases hr
      rfl
  | invalidNative =>
    rw [hname] at h
    obtain rfl : o = none := by
      cases strict with
      | true => cases h
      | false => exact (Except.ok.inj h).symm
    simp
  | _ =>
    rw [hname] at h
    obtain rfl := Except.ok.inj h
    simp

/-- The same for the CAR directory. -/
theorem carFile_spec {o : Option (Nat × Nat)} (h : carFile inventory repository strict f = .ok o) :
    o = some range ↔ ∃ start last, f.name = .car start last ∧ start ≤ last ∧ range = (start, last + 1) := by
  unfold carFile at h
  cases hname : f.name with
  | car start last =>
    rw [hname] at h
    obtain ⟨_, hrange, rfl⟩ := map_eq_ok.mp h
    obtain ⟨rfl, hle⟩ := carRange_eq hrange
    constructor
    · rintro hr
      exact ⟨start, last, rfl, hle, (Option.some.inj hr).symm⟩
    · rintro ⟨start, last, hr, -, rfl⟩
      cases hr
      rfl
  | invalidCar =>
    rw [hname] at h
    cases h
  | rowImport =>
    rw [hname] at h
    obtain rfl : o = none := by
      cases strict with
      | true => exact (Except.ok.inj h).symm
      | false => cases h
    simp
  | _ =>
    rw [hname] at h
    obtain rfl := Except.ok.inj h
    simp

/-- Kotoba accepts every native file that Python does. -/
theorem nativeFile_kotoba {o : Option (Nat × Nat)} (h : nativeFile inventory repository true f = .ok o) :
    nativeFile inventory repository false f = .ok o := by
  unfold nativeFile at h ⊢
  cases hname : f.name with
  | invalidNative =>
    rw [hname] at h
    cases h
  | _ =>
    rw [hname] at h
    exact h

theorem carFile_kotoba {o : Option (Nat × Nat)} (hname : f.name ≠ .rowImport)
    (h : carFile inventory repository true f = .ok o) : carFile inventory repository false f = .ok o := by
  unfold carFile at h ⊢
  cases hf : f.name with
  | rowImport => exact absurd hf hname
  | _ =>
    rw [hf] at h
    exact h

/-! ## The ranges of a directory -/

theorem rangesOf_eq_ok : rangesOf inventory repository strict d = .ok ranges ↔ ∃ native car,
    List.Forall₂ (fun f o => nativeFile inventory repository strict f = .ok o) (d.natives.flatMap filesOf) native ∧
    List.Forall₂ (fun f o => carFile inventory repository strict f = .ok o) (filesOf (d.car.getD none)) car ∧
    ranges = (native ++ car).reduceOption := by
  unfold rangesOf
  simp only [bind_eq_ok, mapM_eq_ok]
  constructor
  · rintro ⟨native, hnative, car, hcar, h⟩
    exact ⟨native, car, hnative, hcar, (Except.ok.inj h).symm⟩
  · rintro ⟨native, car, hnative, hcar, rfl⟩
    exact ⟨native, hnative, car, hcar, rfl⟩

/-- What a list of files gives, in terms of the names. -/
theorem mem_files {files : List File} {os : List (Option (Nat × Nat))} {read : File → Except String (Option (Nat × Nat))}
    {P : File → Prop} (hread : ∀ f o, read f = .ok o → (o = some range ↔ P f))
    (h : List.Forall₂ (fun f o => read f = .ok o) files os) : some range ∈ os ↔ ∃ f ∈ files, P f := by
  induction h with
  | nil => simp
  | cons hfile _ ih => rw [List.mem_cons, ih, List.exists_mem_cons_iff, eq_comm, hread _ _ hfile]

/-- **The ranges** that are found have rows, and are those of the receipts. -/
theorem rangesOf_spec (h : rangesOf inventory repository strict d = .ok ranges) :
    (∀ range ∈ ranges, range.1 < range.2) ∧ ((∃ range ∈ ranges, Contains range i) ↔ Covered d i) := by
  obtain ⟨native, car, hnative, hcar, rfl⟩ := rangesOf_eq_ok.mp h
  have hmem : ∀ range, range ∈ (native ++ car).reduceOption ↔
      (∃ f ∈ d.natives.flatMap filesOf, ∃ start last, f.name = .native start last ∧ start ≤ last ∧
        range = (start, last + 1)) ∨
      ∃ f ∈ filesOf (d.car.getD none), ∃ start last, f.name = .car start last ∧ start ≤ last ∧
        range = (start, last + 1) := by
    rintro range
    rw [List.reduceOption_mem_iff, List.mem_append, mem_files (fun _ _ hf => nativeFile_spec hf) hnative,
      mem_files (fun _ _ hf => carFile_spec hf) hcar]
  constructor
  · rintro range hrange
    rcases (hmem range).mp hrange with ⟨f, -, start, last, -, hle, rfl⟩ | ⟨f, -, start, last, -, hle, rfl⟩
    · exact Nat.lt_succ_of_le hle
    · exact Nat.lt_succ_of_le hle
  · constructor
    · rintro ⟨range, hrange, hi⟩
      rcases (hmem range).mp hrange with ⟨f, hf, start, last, hname, -, rfl⟩ | ⟨f, hf, start, last, hname, -, rfl⟩
      · exact .native hf hname (contains_iff.mp hi)
      · exact .car hf hname (contains_iff.mp hi)
    · rintro (@⟨f, start, last, hf, hname, hrow⟩ | @⟨f, start, last, hf, hname, hrow⟩)
      · exact ⟨_, (hmem _).mpr (.inl ⟨f, hf, start, last, hname, hrow.1.trans hrow.2, rfl⟩), contains_iff.mpr hrow⟩
      · exact ⟨_, (hmem _).mpr (.inr ⟨f, hf, start, last, hname, hrow.1.trans hrow.2, rfl⟩), contains_iff.mpr hrow⟩

/-- The order of the files changes only the order of the ranges. -/
theorem rangesOf_kotoba (h : rangesOf inventory repository true d = .ok ranges) (hsame : SameFiles d d')
    (hnames : ∀ f ∈ filesOf (d.car.getD none), f.name ≠ .rowImport) :
    ∃ ranges', rangesOf inventory repository false d' = .ok ranges' ∧ ranges'.Perm ranges := by
  obtain ⟨native, car, hnative, hcar, rfl⟩ := rangesOf_eq_ok.mp h
  have hnative : List.Forall₂ (fun f o => nativeFile inventory repository false f = .ok o) _ native :=
    hnative.imp fun _ _ hf => nativeFile_kotoba hf
  have hcar : List.Forall₂ (fun f o => carFile inventory repository false f = .ok o) (filesOf (d.car.getD none)) car :=
    ((List.forall₂_and_left _ _).mpr ⟨hnames, hcar⟩).imp fun _ _ hf => carFile_kotoba hf.1 hf.2
  obtain ⟨native', hnative', hperm⟩ := List.perm_comp_forall₂ hsame.natives.symm hnative
  obtain ⟨car', hcar', hperm'⟩ := List.perm_comp_forall₂ hsame.car.symm hcar
  exact ⟨_, rangesOf_eq_ok.mpr ⟨native', car', hnative', hcar', rfl⟩, (hperm.append hperm').filterMap _⟩

/-! ## Sorting and merging -/

instance : Std.Total before := ⟨fun a b => by
  rcases Nat.lt_trichotomy a.1 b.1 with h | h | h
  · exact .inl (.inl h)
  · exact (Nat.le_total a.2 b.2).imp (fun hle => .inr ⟨h, hle⟩) fun hle => .inr ⟨h.symm, hle⟩
  · exact .inr (.inl h)⟩

instance : IsTrans (Nat × Nat) before := ⟨fun a b c hab hbc => by
  unfold before at *
  omega⟩

instance : Std.Antisymm before := ⟨fun a b hab hba => by
  unfold before at *
  exact Prod.ext (by omega) (by omega)⟩

/-- The order in which the ranges are found does not matter. -/
theorem merged_perm (h : ranges.Perm ranges') : merged ranges = merged ranges' := by
  have hperm : (ranges.insertionSort before).Perm (ranges'.insertionSort before) :=
    (List.perm_insertionSort _ _).trans (h.trans (List.perm_insertionSort _ _).symm)
  rw [merged, hperm.eq_of_pairwise' (List.pairwise_insertionSort _ _) (List.pairwise_insertionSort _ _), merged]

theorem merged_spec (hpoints : ∀ range ∈ ranges, range.1 < range.2) :
    Apart (merged ranges) ∧
      ∀ i, (∃ range ∈ merged ranges, Contains range i) ↔ ∃ range ∈ ranges, Contains range i := by
  have hsorted : (ranges.insertionSort before).Pairwise fun a b => a.1 ≤ b.1 :=
    (List.pairwise_insertionSort before ranges).imp fun hab => hab.elim Nat.le_of_lt fun heq => heq.1.le
  obtain ⟨hapart, hunion⟩ := mergeRanges_spec hsorted fun range hrange =>
    hpoints range ((List.mem_insertionSort before).mp hrange)
  refine ⟨hapart, fun i => ?_⟩
  rw [merged, hunion]
  simp only [List.mem_insertionSort]

/-! ## The readers -/

variable {cid : JsString} {mtimes : List Nat} {r₀ r : CarReceipts} {cache : Cache} {answer : Bool}

/-- A reader that has the ranges of these directories. -/
structure Loaded (mtimes : List Nat) (ranges : List (Nat × Nat)) (r : CarReceipts) : Prop where
  mtimes : r.mtimeNs = some mtimes
  starts : r.starts = ranges.map Prod.fst
  ranges : r.ranges = ranges

theorem refresh_spec (hmtimes : d.mtimes = .ok mtimes) (hnew : r₀.mtimeNs ≠ some mtimes)
    (h : refresh inventory repository d r₀ = .ok r) :
    ∃ ranges, rangesOf inventory repository true d = .ok ranges ∧ Loaded mtimes (merged ranges) r := by
  unfold refresh at h
  rw [hmtimes] at h
  obtain ⟨ranges, hranges, h⟩ := bind_eq_ok.mp ((if_neg hnew).symm.trans h)
  obtain rfl := Except.ok.inj h
  exact ⟨ranges, hranges, rfl, rfl, rfl⟩

theorem refresh_loaded (hmtimes : d.mtimes = .ok mtimes) (hloaded : Loaded mtimes ranges r) :
    refresh inventory repository d r = .ok r := by
  unfold refresh
  rw [hmtimes]
  exact if_pos hloaded.mtimes

/-- The answer of Python: binary search in the starts. -/
theorem covers_loaded (hmtimes : d.mtimes = .ok mtimes) (hloaded : Loaded mtimes ranges r) (hapart : Apart ranges)
    (hrow : positionOf inventory cid = some row) :
    covers inventory repository d r cid = .ok (r, decide (∃ range ∈ ranges, Contains range row)) := by
  unfold covers
  rw [refresh_loaded hmtimes hloaded]
  have hanswer : (decide (0 < bisectRight r.starts row) &&
      ((r.ranges[bisectRight r.starts row - 1]?).map fun range => decide (row < range.2)).getD false) =
      decide (∃ range ∈ ranges, Contains range row) := by
    rw [hloaded.starts, hloaded.ranges, Bool.eq_iff_iff, decide_eq_true_iff, found_iff hapart, Bool.and_eq_true,
      decide_eq_true_iff]
    cases hget : ranges[bisectRight (ranges.map Prod.fst) row - 1]? with
    | none => simp
    | some range => simp
  rw [← hanswer]
  simp only [hrow]
  rfl

/-- The answer of Kotoba: one range after the other. -/
theorem kotobaCovers_eq (hmtimes : d.mtimes = .ok mtimes) (hranges : receiptRanges inventory repository d = .ok ranges)
    (hcache : cache.mtimes = some mtimes → cache.ranges = ranges) (hrow : positionOf inventory cid = some row) :
    kotobaCovers inventory repository d cache cid =
      .ok (⟨some mtimes, ranges⟩, decide (∃ range ∈ ranges, Contains range row)) := by
  unfold kotobaCovers
  have hload : cache.reload inventory repository d mtimes = .ok ⟨some mtimes, ranges⟩ := by
    unfold Cache.reload
    by_cases hc : cache.mtimes = some mtimes
    · rw [if_pos hc, ← hcache hc, ← hc]
      rfl
    · rw [if_neg hc, hranges]
      rfl
  have hanswer : (ranges.any fun range => decide (Contains range row)) = decide (∃ range ∈ ranges, Contains range row) := by
    rw [Bool.eq_iff_iff, List.any_eq_true, decide_eq_true_iff]
    simp only [decide_eq_true_iff]
  rw [hmtimes, ← hanswer]
  dsimp only [bind, Except.bind]
  rw [hload]
  simp only [hrow]
  rfl

namespace Sample

def name (n : String) : JsString := js "Qm1111111111111111111111111111111111111111111" ++ js n

/-- Three rows. -/
def lake : Inventory := ⟨[], [⟨name "a", 5⟩, ⟨name "b", 7⟩, ⟨name "c", 9⟩], by decide⟩

def nativeReceipt : Json :=
  .obj [(js "status", .str (js "complete")), (js "inventory_sha256", .str []), (js "start_row", num 0),
    (js "end_row", num 2), (js "blocks", num 2), (js "bytes", num 12), (js "repository", .str []),
    (js "root", .str (name "r")), (js "source_peer", .str (js "peer"))]

def carReceipt : Json :=
  .obj [(js "status", .str (js "complete")), (js "inventory_sha256", .str []), (js "start_row", num 1),
    (js "end_row", num 2), (js "blocks", num 1), (js "repository", .str []), (js "root", .str (name "r")),
    (js "car_sha256", .str (List.replicate 64 (unit '0')))]

/-- A native receipt for the first two rows, and a CAR for the second one. -/
def directories : Directories where
  car := some (some ⟨1, [⟨.other, none⟩, ⟨.car 1 1, some carReceipt⟩]⟩)
  natives := [some ⟨2, [⟨.native 0 1, some nativeReceipt⟩]⟩]

def loaded : CarReceipts := ⟨some [1, 2], [0], [(0, 2)]⟩

end Sample

end Serve
