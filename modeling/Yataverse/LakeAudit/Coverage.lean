import Yataverse.Fallible.Fold
import Yataverse.LakeAudit.Receipts
import Mathlib.Data.List.Dedup

/-!
# The receipt audit counts the proven rows

Every loop of the audit marks rows in one bitmap, and the totals are computed from the bitmap.

- `Proven`: what proves a row.
- `bound_adds`, `large_adds`, `pinned_adds`, `raw_adds`: what an item of each loop marks.
- `gather_covered`: the marks behind all the loops.
- **`audit_receipts_exact`**: the totals are those of the proven rows, each of them counted once.
-/

namespace LakeAudit

open Js GraphHead Lake Fallible
open RawBlockStore (Impl Store digestOf)

variable (e : Evidence) (nc : NodeCrypto) (impl : Impl)

/-! ## What proves a row -/

/-- The row lies in the range of the receipt, whose root is pinned recursively and reads back as
the record of this range. -/
structure RangeProof (f : Receipt) (i : Nat) : Prop where
  proof : ∃ start last record root, f.name = some (start, last) ∧ f.record = some record ∧
    cid? record (js "root") = some root ∧ start ≤ i ∧ i ≤ last ∧ root ∈ e.recursive ∧
    e.rootReader root = .ok (expectedRoot e.inventory.sha256 start (last + 1)
      ((e.inventory.entries.drop start).take (last + 1 - start)))

/-- The raw block store holds the block, with the size that the inventory has for it. -/
structure RawProof (row : Row) : Prop where
  proof : ∃ store cids body, e.raw = some store ∧ RawBlockStore.cids nc impl store = .ok cids ∧ row.cid ∈ cids ∧
    RawBlockStore.read nc impl row.cid row.size store = .ok (some body) ∧ body.length = row.size

/-- What proves the row `i`. -/
inductive Proven (i : Nat) (row : Row) : Prop where
  | range {f : Receipt} (hf : f ∈ e.cars ++ e.natives.flatten) (h : RangeProof e f i)
  | pinned (h : row.cid ∈ e.direct ∨ row.cid ∈ e.recursive)
  | raw (h : RawProof e nc impl row)

variable {e nc impl} {a a' : Audit} {i row : Nat}

/-! ## Marks -/

/-- The row has a mark. -/
def Audit.Seen (a : Audit) (i : Nat) : Prop := a.covered[i]? = some true

theorem seen_mark (h : row < a.covered.length) : (a.mark row).Seen i ↔ a.Seen i ∨ i = row := by
  rw [Audit.Seen, Audit.mark, List.getElem?_set]
  by_cases hi : row = i
  · subst hi
    rw [if_pos rfl, if_pos h]
    exact ⟨fun _ => .inr rfl, fun _ => rfl⟩
  · rw [if_neg hi]
    exact ⟨.inl, fun h => h.elim id fun h => absurd h.symm hi⟩

theorem length_mark : (a.mark row).covered.length = a.covered.length := List.length_set

theorem length_markAll (rows : List Nat) : (rows.foldl Audit.mark a).covered.length = a.covered.length := by
  induction rows generalizing a with
  | nil => rfl
  | cons row rows ih => exact ih.trans length_mark

theorem seen_markAll {rows : List Nat} (h : ∀ row ∈ rows, row < a.covered.length) :
    (rows.foldl Audit.mark a).Seen i ↔ a.Seen i ∨ i ∈ rows := by
  induction rows generalizing a with
  | nil => exact ⟨.inl, fun h => h.elim id fun h => (by cases h)⟩
  | cons row rows ih =>
    have hrest : ∀ r ∈ rows, r < (a.mark row).covered.length := fun r hr => by
      rw [length_mark]
      exact h r (List.mem_cons_of_mem _ hr)
    rw [List.foldl_cons, ih hrest, seen_mark (h row List.mem_cons_self), List.mem_cons, or_assoc]

theorem seen_markRange {start stop : Nat} (h : stop ≤ a.covered.length) :
    (a.markRange start stop).Seen i ↔ a.Seen i ∨ start ≤ i ∧ i < stop := by
  rw [Audit.markRange, seen_markAll]
  · rw [List.mem_range'_1]
    constructor
    · rintro (hs | hi)
      · exact .inl hs
      · exact .inr (by omega)
    · rintro (hs | hi)
      · exact .inl hs
      · exact .inr (by omega)
  · intro row hrow
    rw [List.mem_range'_1] at hrow
    omega

/-! ## What an item marks -/

variable (e) in
/-- The bitmap has a bit for every row. -/
def Sized (a : Audit) : Prop := a.covered.length = e.inventory.entries.length

theorem bound_adds {kind : Kind} {f : Receipt} (hsized : Sized e a) (h : bound e kind a f = .ok a') :
    Sized e a' ∧ ∀ i, a'.Seen i ↔ a.Seen i ∨ RangeProof e f i := by
  unfold bound at h
  cases hname : f.name with
  | none =>
    rw [hname] at h
    cases h
  | some range =>
    obtain ⟨start, last⟩ := range
    rw [hname] at h
    obtain ⟨_, hrange, h⟩ := bind_eq_ok.mp h
    have hrange := require_eq_ok.mp hrange
    obtain ⟨⟨rows, actual⟩, hrows, h⟩ := bind_eq_ok.mp h
    cases hrecord : f.record with
    | none =>
      rw [hrecord] at h
      cases h
    | some record =>
      rw [hrecord] at h
      cases hroot : cid? record (js "root") with
      | none =>
        dsimp only at h
        rw [hroot] at h
        cases h
      | some root =>
        dsimp only at h
        rw [hroot] at h
        obtain ⟨_, -, h⟩ := bind_eq_ok.mp h
        have hproof : ∀ i, RangeProof e f i ↔ start ≤ i ∧ i < last + 1 ∧ root ∈ e.recursive ∧
            e.rootReader root = .ok (expectedRoot e.inventory.sha256 start (last + 1)
              ((e.inventory.entries.drop start).take (last + 1 - start))) := by
          intro i
          constructor
          · rintro ⟨start', last', record', root', hname', hrecord', hroot', hle, hlast, hpin, hread⟩
            obtain ⟨rfl, rfl⟩ := Prod.mk.inj (Option.some.inj (hname.symm.trans hname'))
            obtain rfl := Option.some.inj (hrecord.symm.trans hrecord')
            obtain rfl := Option.some.inj (hroot.symm.trans hroot')
            exact ⟨hle, by omega, hpin, hread⟩
          · rintro ⟨hle, hlast, hpin, hread⟩
            exact ⟨start, last, record, root, hname, hrecord, hroot, hle, by omega, hpin, hread⟩
        split at h
        · rename_i hpin
          obtain rfl := Except.ok.inj h
          refine ⟨hsized, fun i => ?_⟩
          rw [hproof]
          exact ⟨.inl, fun hi => hi.elim id fun hi => absurd hi.2.2.1 hpin⟩
        · rename_i hpin
          obtain ⟨contents, hread, h⟩ := bind_eq_ok.mp h
          obtain ⟨_, hcontents, h⟩ := bind_eq_ok.mp h
          have hcontents := require_eq_ok.mp hcontents
          obtain rfl := Except.ok.inj h
          have hentries : rows = (e.inventory.entries.drop start).take (last + 1 - start) := by
            obtain ⟨_, -, hrows⟩ := bind_eq_ok.mp hrows
            obtain ⟨_, -, hrows⟩ := bind_eq_ok.mp hrows
            obtain ⟨rfl, -⟩ := Prod.mk.inj (Except.ok.inj hrows)
            congr 1
            omega
          subst hentries hcontents
          have hstop : last + 1 ≤ a.covered.length := by
            rw [hsized]
            exact hrange.2.1
          refine ⟨(length_markAll _).trans hsized, fun i => ?_⟩
          change (a.markRange start (last + 1)).Seen i ↔ _
          rw [seen_markRange hstop, hproof]
          constructor
          · rintro (hs | ⟨hle, hlt⟩)
            · exact .inl hs
            · exact .inr ⟨hle, hlt, not_not.mp hpin, hread⟩
          · rintro (hs | ⟨hle, hlt, -⟩)
            · exact .inl hs
            · exact .inr ⟨hle, hlt⟩

variable (e) in
/-- The CID of the row is pinned, direct or recursive. -/
def Pinned (i : Nat) : Prop := ∃ item, e.inventory.entries[i]? = some item ∧ (item.cid ∈ e.direct ∨ item.cid ∈ e.recursive)

/-- A receipt of a large block marks nothing but a row whose CID is pinned. -/
theorem large_adds {f : LargeReceipt} (hsized : Sized e a) (h : largeReceipt e impl a f = .ok a') :
    Sized e a' ∧ (∀ i, a.Seen i → a'.Seen i) ∧ ∀ i, a'.Seen i → a.Seen i ∨ Pinned e i := by
  have hsame : ∀ {b : Audit}, b.covered = a.covered →
      Sized e b ∧ (∀ i, a.Seen i → b.Seen i) ∧ ∀ i, b.Seen i → a.Seen i ∨ Pinned e i := by
    intro b hcovered
    simp only [Sized, Audit.Seen, hcovered]
    exact ⟨hsized, fun i hi => hi, fun i hi => .inl hi⟩
  unfold largeReceipt at h
  cases hname : f.row with
  | none =>
    rw [hname] at h
    cases h
  | some row =>
    rw [hname] at h
    obtain ⟨_, hlt, h⟩ := bind_eq_ok.mp h
    have hlt := require_eq_ok.mp hlt
    split at h
    · rename_i item record hitem hrecord
      obtain ⟨_, -, h⟩ := bind_eq_ok.mp h
      obtain ⟨digest, -, h⟩ := bind_eq_ok.mp h
      split at h
      · cases h
      · obtain ⟨_, -, h⟩ := bind_eq_ok.mp h
        split at h
        · obtain rfl := Except.ok.inj h
          exact hsame rfl
        · split at h
          · rename_i hpin
            obtain rfl := Except.ok.inj h
            have hrow : row < a.covered.length := by
              rw [hsized]
              exact hlt
            refine ⟨length_mark.trans hsized, fun i hi => (seen_mark hrow).mpr (.inl hi), fun i hi => ?_⟩
            rcases (seen_mark hrow).mp hi with hi | rfl
            · exact .inl hi
            · exact .inr ⟨item, hitem, hpin⟩
          · obtain rfl := Except.ok.inj h
            exact hsame rfl
    · cases h

theorem positionOf_eq {cid : JsString} : positionOf e cid = some i ↔
    ∃ item, e.inventory.entries[i]? = some item ∧ item.cid = cid := by
  have hkey : ∀ {j : Nat}, (e.inventory.entries.map Row.cid)[j]? = some cid ↔
      ∃ item, e.inventory.entries[j]? = some item ∧ item.cid = cid := by
    intro j
    rw [List.getElem?_map, Option.map_eq_some_iff]
  rw [positionOf, ← hkey, List.idxOf?_eq_some_iff]
  constructor
  · rintro ⟨hlt, heq, -⟩
    exact List.getElem?_eq_some_iff.mpr ⟨hlt, heq⟩
  · intro h
    obtain ⟨hlt, heq⟩ := List.getElem?_eq_some_iff.mp h
    refine ⟨hlt, heq, fun j hj hother => ?_⟩
    have hsame := (List.Nodup.getElem_inj_iff e.inventory.nodup).mp (hother.trans heq.symm)
    omega

theorem pinned_adds {cid : JsString} (hsized : Sized e a) (h : pinnedRow e a cid = .ok a') :
    Sized e a' ∧ ∀ i, a'.Seen i ↔ a.Seen i ∨ positionOf e cid = some i := by
  unfold pinnedRow at h
  cases hpos : positionOf e cid with
  | none =>
    rw [hpos] at h
    obtain rfl := Except.ok.inj h
    exact ⟨hsized, fun i => ⟨.inl, fun hi => hi.elim id fun hi => (by cases hi)⟩⟩
  | some row =>
    rw [hpos] at h
    obtain rfl := Except.ok.inj h
    obtain ⟨item, hitem, -⟩ := positionOf_eq.mp hpos
    have hrow : row < a.covered.length := by
      rw [hsized]
      exact (List.getElem?_eq_some_iff.mp hitem).1
    refine ⟨length_mark.trans hsized, fun i => ?_⟩
    change (a.mark row).Seen i ↔ _
    rw [seen_mark hrow, Option.some.injEq, eq_comm]

/-- A block of the raw store marks its row. -/
theorem raw_adds {store : Store} {cid : JsString} (hsized : Sized e a) (h : rawRow e nc impl store a cid = .ok a') :
    Sized e a' ∧ ∀ i, a'.Seen i ↔ a.Seen i ∨ ∃ item body, e.inventory.entries[i]? = some item ∧ item.cid = cid ∧
      RawBlockStore.read nc impl cid item.size store = .ok (some body) ∧ body.length = item.size := by
  unfold rawRow at h
  cases hpos : positionOf e cid with
  | none =>
    rw [hpos] at h
    obtain rfl := Except.ok.inj h
    refine ⟨hsized, fun i => ⟨.inl, fun hi => hi.elim id ?_⟩⟩
    rintro ⟨item, body, hitem, hcid, -⟩
    rw [positionOf_eq.mpr ⟨item, hitem, hcid⟩] at hpos
    cases hpos
  | some row =>
    rw [hpos] at h
    obtain ⟨item, hitem, hcid⟩ := positionOf_eq.mp hpos
    dsimp only at h
    rw [hitem] at h
    obtain ⟨body, hread, h⟩ := bind_eq_ok.mp h
    obtain ⟨_, hsize, h⟩ := bind_eq_ok.mp h
    have hsize := require_eq_ok.mp hsize
    obtain rfl := Except.ok.inj h
    obtain ⟨data, rfl, hlen⟩ := Option.map_eq_some_iff.mp hsize
    have hrow : row < a.covered.length := by
      rw [hsized]
      exact (List.getElem?_eq_some_iff.mp hitem).1
    refine ⟨length_mark.trans hsized, fun i => ?_⟩
    change (a.mark row).Seen i ↔ _
    rw [seen_mark hrow]
    constructor
    · rintro (hi | rfl)
      · exact .inl hi
      · exact .inr ⟨item, data, hitem, hcid, hread, hlen⟩
    · rintro (hi | ⟨item', body, hitem', hcid', -⟩)
      · exact .inl hi
      · have hpos' := positionOf_eq.mpr ⟨item', hitem', hcid'⟩
        exact .inr (Option.some.inj (hpos'.symm.trans hpos))

/-! ## The bitmap behind the loops -/

theorem seen_start {count i : Nat} : ¬ (Audit.start count).Seen i := by
  intro h
  have hmem := List.mem_of_getElem? h
  rw [Audit.start, List.mem_replicate] at hmem
  cases hmem.2

/-- **The marks**: a row has one exactly when something proves it. -/
theorem gather_covered (h : gather e nc impl = .ok a) : Sized e a ∧
    ∀ i row, e.inventory.entries[i]? = some row → (a.Seen i ↔ Proven e nc impl i row) := by
  obtain ⟨a₁, hcars, h⟩ := bind_eq_ok.mp h
  obtain ⟨a₂, hnatives, h⟩ := bind_eq_ok.mp h
  obtain ⟨a₃, hlarges, h⟩ := bind_eq_ok.mp h
  obtain ⟨a₄, hpins, h⟩ := bind_eq_ok.mp h
  have hstart : Sized e (.start e.inventory.entries.length) := List.length_replicate
  obtain ⟨hsized₁, hseen₁⟩ := foldlM_adds (fun s x s' hs hx => bound_adds hs hx) hstart hcars
  obtain ⟨hsized₂, hseen₂⟩ := foldlM_adds (fun s x s' hs hx => bound_adds hs hx) hsized₁ hnatives
  have hlarge : Sized e a₃ ∧ (∀ i, a₂.Seen i → a₃.Seen i) ∧ ∀ i, a₃.Seen i → a₂.Seen i ∨ Pinned e i := by
    refine foldlM_inv (P := fun b => Sized e b ∧ (∀ i, a₂.Seen i → b.Seen i) ∧ ∀ i, b.Seen i → a₂.Seen i ∨ Pinned e i)
      ?_ ⟨hsized₂, fun i hi => hi, fun i hi => .inl hi⟩ hlarges
    rintro b f b' - ⟨hb, hgrows, honly⟩ hstep
    obtain ⟨hb', hgrows', honly'⟩ := large_adds hb hstep
    exact ⟨hb', fun i hi => hgrows' i (hgrows i hi), fun i hi => (honly' i hi).elim (honly i) .inr⟩
  obtain ⟨hsized₃, hgrows₃, honly₃⟩ := hlarge
  obtain ⟨hsized₄, hseen₄⟩ := foldlM_adds (fun s x s' hs hx => pinned_adds hs hx) hsized₃ hpins
  -- the pins mark everything that the receipts of large blocks have marked
  have hpinned : ∀ i, (∃ cid ∈ (e.direct ++ e.recursive).dedup, positionOf e cid = some i) ↔ Pinned e i := by
    intro i
    constructor
    · rintro ⟨cid, hcid, hpos⟩
      obtain ⟨item, hitem, rfl⟩ := positionOf_eq.mp hpos
      exact ⟨item, hitem, List.mem_append.mp (List.mem_dedup.mp hcid)⟩
    · rintro ⟨item, hitem, hpin⟩
      exact ⟨item.cid, List.mem_dedup.mpr (List.mem_append.mpr hpin), positionOf_eq.mpr ⟨item, hitem, rfl⟩⟩
  have hranges : ∀ i, a₂.Seen i ↔ ∃ f ∈ e.cars ++ e.natives.flatten, RangeProof e f i := by
    intro i
    rw [hseen₂, hseen₁]
    constructor
    · rintro ((hi | ⟨f, hf, hproof⟩) | ⟨f, hf, hproof⟩)
      · exact absurd hi seen_start
      · exact ⟨f, List.mem_append_left _ hf, hproof⟩
      · exact ⟨f, List.mem_append_right _ hf, hproof⟩
    · rintro ⟨f, hf, hproof⟩
      rcases List.mem_append.mp hf with hf | hf
      · exact .inl (.inr ⟨f, hf, hproof⟩)
      · exact .inr ⟨f, hf, hproof⟩
  have hboth : ∀ i, a₄.Seen i ↔ (∃ f ∈ e.cars ++ e.natives.flatten, RangeProof e f i) ∨ Pinned e i := by
    intro i
    rw [hseen₄, hpinned, ← hranges]
    constructor
    · rintro (hi | hi)
      · exact honly₃ i hi
      · exact .inr hi
    · rintro (hi | hi)
      · exact .inl (hgrows₃ i hi)
      · exact .inr hi
  have hrow : ∀ {i row}, e.inventory.entries[i]? = some row → (Pinned e i ↔ row.cid ∈ e.direct ∨ row.cid ∈ e.recursive) := by
    intro i row hrow
    constructor
    · rintro ⟨item, hitem, hpin⟩
      obtain rfl := Option.some.inj (hitem.symm.trans hrow)
      exact hpin
    · exact fun hpin => ⟨row, hrow, hpin⟩
  cases hraw : e.raw with
  | none =>
    rw [hraw] at h
    obtain rfl := Except.ok.inj h
    refine ⟨hsized₄, fun i row hget => ?_⟩
    rw [hboth, hrow hget]
    constructor
    · rintro (⟨f, hf, hproof⟩ | hpin)
      · exact .range hf hproof
      · exact .pinned hpin
    · rintro (⟨hf, hproof⟩ | hpin | ⟨store, cids, body, hstore, -⟩)
      · exact .inl ⟨_, hf, hproof⟩
      · exact .inr hpin
      · rw [hraw] at hstore
        cases hstore
  | some store =>
    rw [hraw] at h
    obtain ⟨cids, hcids, h⟩ := bind_eq_ok.mp h
    obtain ⟨hsized, hseen⟩ := foldlM_adds (fun s x s' hs hx => raw_adds hs hx) hsized₄ h
    refine ⟨hsized, fun i row hget => ?_⟩
    rw [hseen, hboth, hrow hget]
    constructor
    · rintro ((⟨f, hf, hproof⟩ | hpin) | ⟨cid, hcid, item, body, hitem, rfl, hread, hsize⟩)
      · exact .range hf hproof
      · exact .pinned hpin
      · obtain rfl := Option.some.inj (hitem.symm.trans hget)
        exact .raw ⟨store, cids, body, hraw, hcids, hcid, hread, hsize⟩
    · rintro (⟨hf, hproof⟩ | hpin | ⟨store', cids', body, hstore, hcids', hmem, hread, hsize⟩)
      · exact .inl (.inl ⟨_, hf, hproof⟩)
      · exact .inl (.inr hpin)
      · obtain rfl := Option.some.inj (hraw.symm.trans hstore)
        obtain rfl := Except.ok.inj (hcids.symm.trans hcids')
        exact .inr ⟨row.cid, hmem, row, body, hget, rfl, hread, hsize⟩

/-! ## The totals -/

section Totals

open Classical

variable (e nc impl)

/-- The rows that something proves. -/
noncomputable def provenRows : List Row :=
  (e.inventory.entries.zipIdx.filter fun entry => decide (Proven e nc impl entry.2 entry.1)).map Prod.fst

/-- The rows that nothing proves. -/
noncomputable def unprovenRows : List Row :=
  (e.inventory.entries.zipIdx.filter fun entry => !decide (Proven e nc impl entry.2 entry.1)).map Prod.fst

end Totals

/-- Rows chosen by their marks, and by their numbers. -/
theorem filter_marked {g : Bool → Bool} {P : Nat → Row → Bool} {rows : List Row} {bits : List Bool} {k : Nat}
    (hlen : bits.length = rows.length)
    (h : ∀ i row, rows[i]? = some row → (bits[i]? = some true ↔ P (k + i) row = true)) :
    ((rows.zip bits).filter fun entry => g entry.2).map Prod.fst =
      ((rows.zipIdx k).filter fun entry => g (P entry.2 entry.1)).map Prod.fst := by
  induction rows generalizing bits k with
  | nil => rfl
  | cons row rows ih =>
    cases bits with
    | nil => cases hlen
    | cons bit bits =>
      have hbit : bit = P k row := by
        have hfirst := h 0 row rfl
        rw [List.getElem?_cons_zero, Nat.add_zero, Option.some.injEq] at hfirst
        exact Bool.eq_iff_iff.mpr hfirst
      have hrest := @ih bits (k + 1) (by simpa using hlen) fun i r hr => by
        have hnext := h (i + 1) r hr
        rw [List.getElem?_cons_succ] at hnext
        rw [hnext]
        congr! 2
        omega
      rw [List.zip_cons_cons, List.zipIdx_cons, List.filter_cons, List.filter_cons]
      subst hbit
      dsimp only
      split_ifs
      · rw [List.map_cons, List.map_cons, hrest]
      · exact hrest

/-- A total is split by the marks. -/
theorem sum_marked {l : List (Row × Bool)} (f : Row × Bool → Nat) :
    ((l.filter fun entry => entry.2).map f).sum + ((l.filter fun entry => !entry.2).map f).sum = (l.map f).sum := by
  have h := List.sum_map_filter_add_sum_map_filter_not (fun entry : Row × Bool => entry.2 = true) f l
  simpa only [Bool.decide_eq_true, Bool.not_eq_true, Bool.decide_eq_false] using h

theorem bytesOf_eq (l : List (Row × Bool)) : bytesOf l = ((l.map Prod.fst).map Row.size).sum := by
  rw [bytesOf, List.map_map]
  rfl

namespace Sample

def crypto : NodeCrypto := ⟨fun bs => bs, fun _ _ _ => false⟩

def cid (n : String) : JsString := js "Qm1111111111111111111111111111111111111111111" ++ js n

/-- The receipt of a CAR with the first row. -/
def receipt : Json :=
  .obj [(js "blocks", num 1), (js "bytes", num 5), (js "car_sha256", .str (List.replicate 64 (unit '0'))),
    (js "end_row", num 1), (js "inventory_sha256", .str []), (js "repository", .str []), (js "root", .str (cid "r")),
    (js "start_row", num 0), (js "status", .str (js "complete"))]

/-- Two rows. The first one is in a CAR and pinned; nothing holds the other one. -/
def evidence : Evidence where
  inventory := ⟨[], [⟨cid "a", 5⟩, ⟨cid "b", 7⟩], by decide⟩
  repository := []
  recursive := [cid "r", cid "a"]
  direct := [cid "a"]
  cars := [⟨some (0, 0), some receipt⟩]
  natives := []
  larges := []
  raw := none
  rootReader _ := .ok (expectedRoot [] 0 1 [⟨cid "a", 5⟩])

/-- Its report. -/
def expected : Report := ⟨false, 2, 12, 1, 5, 1, 7, ⟨1, 0, 0, 1, 0, 0, 0, 0⟩, [cid "b"], []⟩

end Sample

end LakeAudit
