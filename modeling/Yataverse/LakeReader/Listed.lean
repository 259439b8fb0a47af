import Yataverse.LakeReader.Handler
import Yataverse.Lake.Walked

/-!
# Blocks that the lake reader lists

- `addParts_get`: which inventory a CID is from.
- `partOf_of_row`: each row of the listing has an inventory that lists it.
- `page_of_served`: each page is a part of the rows.
- `Listed.mem`: what a reader looks for is a row of the listing.
-/

namespace LakeReader

open Js Json GraphHead Fallible Lake

variable {c : Config} {x : Wanted} {epochs : List (List Row)} {row : Row} {cid : JsString} {k : Nat} {index : Index}
  {disk disk' : Disk} {source : Source}

/-- The rows of one part are its own. -/
theorem addPart_get {entries : List (JsString × Nat)} {acc acc' : JsMap JsString Nat × JsMap JsString Nat}
    (h : addPart k entries acc = .ok acc') :
    (∀ e ∈ entries, acc'.1.get e.1 = some e.2 ∧ acc'.2.get e.1 = some k) ∧
      ∀ cid, acc.1.has cid = true → acc'.1.get cid = acc.1.get cid ∧ acc'.2.get cid = acc.2.get cid := by
  induction entries generalizing acc with
  | nil =>
    obtain rfl := Except.ok.inj h
    exact ⟨fun e he => absurd he List.not_mem_nil, fun _ _ => ⟨rfl, rfl⟩⟩
  | cons e entries ih =>
    rw [addPart] at h
    split_ifs at h with hnew
    obtain ⟨heach, hkept⟩ := ih h
    have hfirst := hkept e.1 ((JsMap.has_set _ _ _ _).mpr (.inl rfl))
    rw [JsMap.get_set, JsMap.get_set, if_pos rfl, if_pos rfl] at hfirst
    refine ⟨fun e' he' => ?_, fun cid hcid => ?_⟩
    · rcases List.mem_cons.mp he' with rfl | he'
      · exact hfirst
      · exact heach e' he'
    -- what is known is not listed again
    · have hne : cid ≠ e.1 := fun heq => hnew (heq ▸ hcid)
      have hmore := hkept cid ((JsMap.has_set _ _ _ _).mpr (.inr hcid))
      rwa [JsMap.get_set, JsMap.get_set, if_neg hne, if_neg hne] at hmore

theorem addParts_get {parts : List Index} {acc acc' : JsMap JsString Nat × JsMap JsString Nat}
    (h : addParts k parts acc = .ok acc') :
    (∀ j index, parts[j]? = some index → ∀ e ∈ index.sizes.entries,
      acc'.1.get e.1 = some e.2 ∧ acc'.2.get e.1 = some (k + j)) ∧
      ∀ cid, acc.1.has cid = true → acc'.1.get cid = acc.1.get cid ∧ acc'.2.get cid = acc.2.get cid := by
  induction parts generalizing k acc with
  | nil =>
    obtain rfl := Except.ok.inj h
    exact ⟨fun j index hj => absurd hj (by simp), fun _ _ => ⟨rfl, rfl⟩⟩
  | cons part parts ih =>
    obtain ⟨acc₁, hpart, h⟩ := bind_eq_ok.mp h
    obtain ⟨hrest, hkept⟩ := ih h
    obtain ⟨hfirst, hkept₁⟩ := addPart_get hpart
    have hhas : ∀ {cid size}, acc₁.1.get cid = some size → acc₁.1.has cid = true := fun hget =>
      JsMap.has_eq_true.mpr ⟨_, hget⟩
    refine ⟨fun j index hj e he => ?_, fun cid hcid => ?_⟩
    · cases j with
      | zero =>
        obtain rfl := Option.some.inj hj
        obtain ⟨hsize, howner⟩ := hfirst e he
        obtain ⟨hsize', howner'⟩ := hkept e.1 (hhas hsize)
        exact ⟨hsize'.trans hsize, howner'.trans howner⟩
      | succ j =>
        obtain ⟨hsize, howner⟩ := hrest j index hj e he
        exact ⟨hsize, by rw [howner]; congr 1; omega⟩
    · obtain ⟨hsize, howner⟩ := hkept₁ cid hcid
      obtain ⟨size, hget⟩ := JsMap.has_eq_true.mp hcid
      obtain ⟨hsize', howner'⟩ := hkept cid (hhas (hsize.trans hget))
      exact ⟨hsize'.trans hsize, howner'.trans howner⟩

/-- What a source knows of its inventories. -/
theorem indexed_of_open {nc : NodeCrypto} {language : Language} {disk : Disk} {config : Lake.Config} {source : Source}
    (h : openSource nc language disk config = .ok source) : ∃ epochs, RowsOf language disk config.paths epochs ∧
      List.Forall₂ (Indexed language disk) (partsOf source) epochs ∧
      ∀ k index, (partsOf source)[k]? = some index → ∀ e ∈ index.sizes.entries,
        partOf e.1 source = some (k, index) ∧ (sizesOf source).get e.1 = some e.2 := by
  cases config with
  | inventory spec =>
    obtain ⟨index, hopen, h⟩ := bind_eq_ok.mp h
    obtain rfl := Except.ok.inj h
    obtain ⟨rows, hindex, hpath, -, -⟩ := openIndex_eq_ok.mp hopen
    refine ⟨[rows], .cons (hpath ▸ hindex.lines) .nil, .cons hindex .nil, fun k index' hk e he => ?_⟩
    cases k with
    | zero =>
      obtain rfl := Option.some.inj hk
      exact ⟨rfl, JsMap.get_eq_some.mpr he⟩
    | succ k => cases hk
  | epochs specs sha256 count =>
    obtain ⟨parts, hparts, h⟩ := bind_eq_ok.mp h
    obtain ⟨lake, hlake, h⟩ := bind_eq_ok.mp h
    obtain rfl := Except.ok.inj h
    obtain ⟨epochs, hindexed, hrows⟩ := indexed_of_specs hparts
    simp only [openComposite, bind_eq_ok, require_eq_ok, Prod.exists] at hlake
    obtain ⟨_, -, _, -, sizes, owner, hadd, hlake⟩ := hlake
    obtain rfl := Except.ok.inj hlake
    refine ⟨epochs, hrows, hindexed, fun k index hk e he => ?_⟩
    obtain ⟨hsize, howner⟩ := (addParts_get hadd).1 k index hk e he
    rw [Nat.zero_add] at howner
    refine ⟨?_, hsize⟩
    show (owner.get e.1).bind _ = _
    rw [howner, Option.bind_some]
    show ((parts[k]?).map _) = _
    have hk : parts[k]? = some index := hk
    rw [hk]
    rfl

/-- The lines of a file decide its rows. -/
theorem rowsOf_eq {language : Language} {disk : Disk} {paths : List JsString} {epochs' : List (List Row)}
    (h : RowsOf language disk paths epochs) (h' : RowsOf language disk paths epochs') : epochs = epochs' := by
  induction h generalizing epochs' with
  | nil =>
    cases h'
    rfl
  | cons hrows more ih =>
    cases h' with
    | cons hrows' more' =>
      rw [List.map_injective_iff.mpr (Option.some_injective Row) (hrows.symm.trans hrows'), ih more']

/-- **The inventory of a row** that is listed. -/
theorem partOf_of_row (hrows : RowsOf c.language c.disk c.lake.paths epochs) (hrow : row ∈ epochs.flatten) :
    ∃ k index, partOf row.cid c.source = some (k, index) ∧ index.sizes.get row.cid = some row.size ∧
      (sizesOf c.source).get row.cid = some row.size := by
  obtain ⟨epochs', hrows', hindexed, hparts⟩ := indexed_of_open c.opened
  obtain rfl := rowsOf_eq hrows hrows'
  obtain ⟨rows, hrows, hrow⟩ := List.mem_flatten.mp hrow
  obtain ⟨index, hindex, hi⟩ := exists_of_forall₂ hindexed hrows
  obtain ⟨k, hk⟩ := List.getElem?_of_mem hindex
  have he : (row.cid, row.size) ∈ index.sizes.entries := by
    rw [hi.sizes]
    exact List.mem_map.mpr ⟨row, hrow, rfl⟩
  obtain ⟨hpart, hsize⟩ := hparts k index hk _ he
  exact ⟨k, index, hpart, JsMap.get_eq_some.mpr he, hsize⟩

theorem readerRe_of_row {language : Language} {line : Bytes} (h : lineRow language line = some row) : readerRe row.cid = true := by
  cases language with
  | python =>
    obtain ⟨v, -, h⟩ := Option.bind_eq_some_iff.mp h
    exact (rowIn_eq_some.mp h).2.2.1
  | kotoba =>
    obtain ⟨v, -, h⟩ := Option.bind_eq_some_iff.mp h
    exact (rowIn_eq_some.mp h).2.2.1

theorem readerRe_of_mem (hrows : RowsOf c.language c.disk c.lake.paths epochs) (hrow : row ∈ epochs.flatten) :
    readerRe row.cid = true := by
  obtain ⟨rows, hmem, hrow⟩ := List.mem_flatten.mp hrow
  obtain ⟨path, -, hlines⟩ := exists_of_forall₂ hrows hmem
  have hsome : some row ∈ rows.map some := List.mem_map_of_mem hrow
  rw [← hlines] at hsome
  obtain ⟨line, -, hline⟩ := List.mem_map.mp hsome
  exact readerRe_of_row hline

theorem partsOf_of_partOf {source : Source} (h : partOf cid source = some (k, index)) : (partsOf source)[k]? = some index := by
  cases source with
  | single index' =>
    obtain ⟨rfl, rfl⟩ := Prod.mk.inj (Option.some.inj h)
    rfl
  | epochs lake =>
    obtain ⟨k', -, h⟩ := Option.bind_eq_some_iff.mp h
    obtain ⟨index', hindex, h⟩ := Option.map_eq_some_iff.mp h
    obtain ⟨rfl, rfl⟩ := Prod.mk.inj h
    exact hindex

/-! ## Pages -/

theorem rows_congr (h : disk index.path = disk' index.path) (language : Language) (offset limit : Nat) :
    index.rows disk language offset limit = index.rows disk' language offset limit := by
  cases language with
  | python => simp only [Index.rows, Index.pyRows, Index.checkRows, h]
  | kotoba => simp only [Index.rows, Index.kotobaRows, Index.checkRows, h]

/-- A page depends on the files of the inventories alone. -/
theorem served_congr (h : ∀ index ∈ partsOf source, disk index.path = disk' index.path) (language : Language)
    (cursor : JsString) : source.served language disk cursor = source.served language disk' cursor := by
  have hrows : ∀ offset limit, source.rows language disk offset limit = source.rows language disk' offset limit := by
    intro offset limit
    cases source with
    | single index => exact rows_congr (h index (List.mem_singleton_self index)) language offset limit
    | epochs lake =>
      simp only [Source.rows, Composite.rows]
      cases hpart : lake.parts[lake.place language offset]? with
      | none => rfl
      | some part => simp only [rows_congr (h part (List.mem_of_getElem? hpart))]
  simp only [Source.served, Source.page, hrows]

theorem path_of_open {nc : NodeCrypto} {language : Language} {config : Lake.Config}
    (h : openSource nc language disk config = .ok source) (hindex : index ∈ partsOf source) : index.path ∈ config.paths := by
  cases config with
  | inventory spec =>
    obtain ⟨index', hopen, h⟩ := bind_eq_ok.mp h
    obtain rfl := Except.ok.inj h
    obtain rfl := List.mem_singleton.mp hindex
    obtain ⟨rows, -, hpath, -⟩ := openIndex_eq_ok.mp hopen
    exact List.mem_singleton.mpr hpath
  | epochs specs sha256 count =>
    obtain ⟨parts, hparts, h⟩ := bind_eq_ok.mp h
    obtain ⟨lake, hlake, h⟩ := bind_eq_ok.mp h
    obtain rfl := Except.ok.inj h
    simp only [openComposite, bind_eq_ok, require_eq_ok, Prod.exists] at hlake
    obtain ⟨_, -, _, -, sizes, owner, -, hlake⟩ := hlake
    obtain rfl := Except.ok.inj hlake
    obtain ⟨spec, hspec, hopen⟩ := exists_of_forall₂ (mapM_eq_ok.mp hparts) hindex
    obtain ⟨rows, -, hpath, -⟩ := openIndex_eq_ok.mp hopen
    exact hpath ▸ List.mem_map_of_mem hspec

/-- **Each page** is a part of the rows, from the offset that its cursor names on. -/
theorem page_of_served {cursor : JsString} {page : Listing} (hrows : RowsOf c.language c.disk c.lake.paths epochs)
    (hsame : ∀ path ∈ c.lake.paths, disk path = c.disk path) (h : c.source.served c.language disk cursor = .ok page) :
    ∃ offset got, offset? cursor = some offset ∧ PartFrom epochs offset pageSize got ∧
      page = listingOf c.lake.sha256 epochs.flatten.length offset got := by
  obtain ⟨epochs', hrows', hserves, hsha⟩ := serves_of_open c.opened
  obtain rfl := rowsOf_eq hrows hrows'
  rw [served_congr (fun index hindex => hsame _ (path_of_open c.opened hindex)) c.language cursor, Source.served] at h
  cases hoffset : offset? cursor with
  | none =>
    rw [hoffset] at h
    cases h
  | some offset =>
    rw [hoffset] at h
    dsimp only at h
    rcases Nat.lt_or_ge offset epochs.flatten.length with hlt | hge
    · obtain ⟨got, hpart, hpage⟩ := hserves.page_eq hlt
      exact ⟨offset, got, rfl, hpart, by rw [← hsha, Except.ok.inj (h.symm.trans hpage)]⟩
    · rw [Source.page, hserves.outside offset pageSize hge] at h
      cases h

theorem sum_sizes {language : Language} {parts : List Index} (h : List.Forall₂ (Indexed language disk) parts epochs) :
    (parts.map fun index => (index.sizes.entries.map Prod.snd).sum).sum = (epochs.flatten.map Row.size).sum := by
  induction h with
  | nil => rfl
  | cons hindex _ ih =>
    rw [List.map_cons, List.sum_cons, ih, List.flatten_cons, List.map_append, List.sum_append, hindex.sizes, Lake.sizesOf,
      List.map_map]
    rfl

/-- What `/health` counts. -/
theorem counted_rows (hrows : RowsOf c.language c.disk c.lake.paths epochs) :
    c.source.total = epochs.flatten.length ∧ totalBytes c.source = (epochs.flatten.map Row.size).sum := by
  obtain ⟨epochs', hrows', hserves, -⟩ := serves_of_open c.opened
  obtain rfl := rowsOf_eq hrows hrows'
  obtain ⟨epochs', hrows', hindexed, -⟩ := indexed_of_open c.opened
  obtain rfl := rowsOf_eq hrows hrows'
  exact ⟨hserves.total, sum_sizes hindexed⟩

/-! ## What is looked for -/

/-- A block that is listed, and not too large. -/
structure Listed (c : Config) (x : Wanted) : Prop where
  part : partOf x.cid c.source = some (x.part, x.index)
  size : x.index.sizes.get x.cid = some x.size
  le : x.size ≤ c.maxBytes

/-- **A row of the listing.** -/
theorem Listed.mem (h : Listed c x) (hrows : RowsOf c.language c.disk c.lake.paths epochs) : ⟨x.cid, x.size⟩ ∈ epochs.flatten := by
  obtain ⟨epochs', hrows', hindexed, -⟩ := indexed_of_open c.opened
  obtain rfl := rowsOf_eq hrows hrows'
  have hpart := partsOf_of_partOf h.part
  obtain ⟨hlt, hget⟩ := List.getElem?_eq_some_iff.mp hpart
  have hindex := (List.forall₂_iff_get.mp hindexed).2 x.part hlt (hindexed.length_eq ▸ hlt)
  have he : (x.cid, x.size) ∈ x.index.sizes.entries := JsMap.get_eq_some.mp h.size
  simp only [List.get_eq_getElem, hget] at hindex
  rw [hindex.sizes] at he
  obtain ⟨row, hrow, heq⟩ := List.mem_map.mp he
  obtain ⟨hcid, hsize⟩ := Prod.mk.inj heq
  have hrow' : row = ⟨x.cid, x.size⟩ := by rw [← hcid, ← hsize]
  exact List.mem_flatten.mpr ⟨_, List.getElem_mem _, hrow' ▸ hrow⟩

end LakeReader
