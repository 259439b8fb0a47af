import Yataverse.Lake.Written

/-!
# Walking the listing

- `Composed`: what the inventories of all epochs are together.
- `isPlace_place`: the search finds the epoch that holds an offset, however many epochs are empty.
- `Source.Serves`, `serves_of_open`: what a reader has been started with.
- **`walks_once`**: the pages that follow each other's cursors are the rows of the inventories, in order.
- **`same_pages`**: both languages serve the same pages.
-/

namespace Lake

open Js Json GraphHead Fallible Sorting Splitting

variable {language : Language} {disk : Disk} {nc : NodeCrypto} {part : Index} {parts : List Index} {lake : Composite}
  {rows xs : List Row} {epochs : List (List Row)} {offset limit : Nat} {sha256 : JsString} {total : Nat}

/-! ## All epochs -/

theorem pyStarts_eq (start : Nat) (parts : List Index) : pyStarts start parts = startsFrom start (parts.map Index.count) := by
  induction parts generalizing start with
  | nil => rfl
  | cons part parts ih => rw [pyStarts, ih, List.map_cons, startsFrom]

theorem reductions_eq (start : Nat) (part : Index) (parts : List Index) :
    reductions start ((part :: parts).dropLast.map Index.count) = startsFrom start ((part :: parts).map Index.count) := by
  induction parts generalizing start part with
  | nil => rfl
  | cons next parts ih =>
    rw [List.dropLast_cons_cons, List.map_cons, reductions, ih]
    rfl

/-- Both languages have the same starts. -/
theorem startsOf_eq (h : parts ≠ []) : startsOf language parts = startsFrom 0 (parts.map Index.count) := by
  cases language with
  | python => exact pyStarts_eq 0 parts
  | kotoba =>
    obtain ⟨part, parts, rfl⟩ := List.exists_cons_of_ne_nil h
    exact reductions_eq 0 part parts

/-- What the inventories of all epochs are together. -/
structure Composed (language : Language) (disk : Disk) (lake : Composite) (epochs : List (List Row)) : Prop where
  parts : List.Forall₂ (Indexed language disk) lake.parts epochs
  starts : lake.starts = startsFrom 0 (epochs.map List.length)
  total : lake.total = epochs.flatten.length

theorem composed_of_open (hparts : List.Forall₂ (Indexed language disk) parts epochs)
    (h : openComposite nc language disk parts sha256 total = .ok lake) :
    Composed language disk lake epochs ∧ lake.sha256 = sha256 ∧ lake.total = total := by
  simp only [openComposite, bind_eq_ok, require_eq_ok, Prod.exists] at h
  obtain ⟨_, hne, _, ⟨-, htotal⟩, sizes, owner, -, h⟩ := h
  obtain rfl := Except.ok.inj h
  refine ⟨⟨hparts, ?_, ?_⟩, rfl, htotal⟩
  · rw [← counts_eq hparts]
    exact startsOf_eq hne
  · rw [List.length_flatten, ← counts_eq hparts]

/-- **The search finds the epoch of an offset.** -/
theorem isPlace_place (h : Composed language disk lake epochs) (hoffset : offset < epochs.flatten.length) :
    IsPlace epochs offset (lake.place language offset) := by
  have hsorted : lake.starts.Pairwise (· ≤ ·) := h.starts ▸ startsFrom_sorted 0 _
  have hlength : lake.starts.length = epochs.length := by rw [h.starts, length_startsFrom, List.length_map]
  have hget : ∀ j < epochs.length, lake.starts[j]? = some (start epochs j) := by
    intro j hj
    rw [h.starts]
    exact getElem?_starts hj
  cases language with
  | python =>
    refine isPlace_of_search (fun j hj => lt_bisectRight_iff hsorted (hget j hj)) ?_ hoffset
    exact hlength ▸ bisectRight_le
  | kotoba =>
    refine isPlace_of_search (fun j hj => lt_length_takeWhile_iff hsorted (hget j hj)) ?_ hoffset
    exact hlength ▸ (List.takeWhile_prefix _).length_le

/-! ## What a reader serves -/

/-- A reader of these inventories: a part of the rows of one inventory, from any offset on that is inside. -/
structure Source.Serves (language : Language) (disk : Disk) (source : Source) (epochs : List (List Row)) : Prop where
  total : source.total = epochs.flatten.length
  inside : ∀ offset limit, offset < epochs.flatten.length → 1 ≤ limit ∧ limit ≤ 1000 →
    ∃ i rows, epochs[i]? = some rows ∧ IsPlace epochs offset i ∧ source.rows language disk offset limit =
      .ok (((rows.drop (offset - start epochs i)).take limit).map Row.block,
        min (offset + limit) (start epochs (i + 1)))
  outside : ∀ offset limit, epochs.flatten.length ≤ offset →
    source.rows language disk offset limit = .error (js "cursor outside inventory")

theorem serves_single {index : Index} (h : Indexed language disk index rows) :
    (Source.single index).Serves language disk [rows] := by
  have hflat : [rows].flatten = rows := List.append_nil rows
  refine ⟨?_, fun offset limit hoffset hlimit => ⟨0, rows, rfl, ?_, ?_⟩, fun offset limit hoffset => ?_⟩
  · rw [hflat]
    exact h.count_eq
  · rw [hflat] at hoffset
    exact ⟨Nat.one_pos, Nat.zero_le _, hoffset⟩
  · rw [hflat] at hoffset
    exact rows_of_indexed h hoffset hlimit
  · rw [hflat] at hoffset
    have hout : ¬ offset < index.count := by
      rw [h.count_eq]
      omega
    have hcheck : index.checkRows disk offset limit = .error (js "cursor outside inventory") :=
      bind_eq_error.mpr (.inr ⟨(), require_eq_ok.mpr h.identity,
        bind_eq_error.mpr (.inl (require_eq_error.mpr ⟨hout, rfl⟩))⟩)
    cases language with
    | python => exact bind_eq_error.mpr (.inl hcheck)
    | kotoba => exact bind_eq_error.mpr (.inl hcheck)

theorem serves_epochs (h : Composed language disk lake epochs) : (Source.epochs lake).Serves language disk epochs := by
  refine ⟨h.total, fun offset limit hoffset hlimit => ?_, fun offset limit hoffset => ?_⟩
  rotate_left
  · have hout : ¬ offset < lake.total := by
      rw [h.total]
      omega
    exact bind_eq_error.mpr (.inl (require_eq_error.mpr ⟨hout, rfl⟩))
  have hplace := isPlace_place h hoffset
  have hlt' := hplace.lt
  have hlt : lake.place language offset < lake.parts.length := h.parts.length_eq ▸ hlt'
  have hrows : epochs[lake.place language offset]? = some epochs[lake.place language offset] :=
    List.getElem?_eq_getElem hplace.lt
  refine ⟨_, _, hrows, hplace, ?_⟩
  have hpart : Indexed language disk lake.parts[lake.place language offset] epochs[lake.place language offset] :=
    (List.forall₂_iff_get.mp h.parts).2 _ hlt hplace.lt
  have hstart : lake.starts.getD (lake.place language offset) 0 = start epochs (lake.place language offset) := by
    rw [List.getD_eq_getElem?_getD, h.starts, getElem?_starts hplace.lt, Option.getD_some]
  have htotal : offset < lake.total := h.total ▸ hoffset
  simp only [Source.rows, Composite.rows, bind_eq_ok, require_eq_ok]
  refine ⟨(), htotal, (), hlimit, ?_⟩
  rw [List.getElem?_eq_getElem hlt, hstart]
  dsimp only
  rw [rows_of_indexed hpart (hplace.lt_length hrows) hlimit]
  have hlast : start epochs (lake.place language offset) + min (offset - start epochs (lake.place language offset) + limit)
      epochs[lake.place language offset].length = min (offset + limit) (start epochs (lake.place language offset + 1)) := by
    have := hplace.le
    rw [start_succ hrows]
    omega
  exact congrArg Except.ok (Prod.ext rfl hlast)

/-- The rows of the files at these paths. -/
def RowsOf (language : Language) (disk : Disk) : List JsString → List (List Row) → Prop :=
  List.Forall₂ fun path rows => (fileLines (disk path).content).map (lineRow language) = rows.map some

theorem rowsOf_of_holds {specs : List Spec} {files : List Bytes} (hspecs : List.Forall₂ (Declared nc disk) specs files)
    (h : List.Forall₂ (Holds language) files epochs) : RowsOf language disk (specs.map Spec.path) epochs := by
  induction hspecs generalizing epochs with
  | nil =>
    cases h
    exact .nil
  | cons hspec more ih =>
    cases h with
    | cons hrows hmore => exact .cons (hspec.content ▸ hrows.lines) (ih hmore)

theorem indexed_of_specs {specs : List Spec} (h : specs.mapM (Spec.openIndex nc language disk) = .ok parts) :
    ∃ epochs, List.Forall₂ (Indexed language disk) parts epochs ∧ RowsOf language disk (specs.map Spec.path) epochs := by
  replace h := mapM_eq_ok.mp h
  induction h with
  | nil => exact ⟨[], .nil, .nil⟩
  | cons hopen more ih =>
    obtain ⟨epochs, hindexed, hrows⟩ := ih
    obtain ⟨rows, hindex, hpath, -⟩ := openIndex_eq_ok.mp hopen
    exact ⟨rows :: epochs, .cons hindex hindexed, .cons (hpath ▸ hindex.lines) hrows⟩

/-- **What a reader has been started with**, it serves. -/
theorem serves_of_open {config : Config} {source : Source} (h : openSource nc language disk config = .ok source) :
    ∃ epochs, RowsOf language disk config.paths epochs ∧ source.Serves language disk epochs ∧
      source.sha256 = config.sha256 := by
  cases config with
  | inventory spec =>
    obtain ⟨index, hopen, h⟩ := bind_eq_ok.mp h
    obtain rfl := Except.ok.inj h
    obtain ⟨rows, hindex, hpath, hsha, -⟩ := openIndex_eq_ok.mp hopen
    exact ⟨[rows], .cons (hpath ▸ hindex.lines) .nil, serves_single hindex, hsha⟩
  | epochs specs sha256 count =>
    obtain ⟨parts, hparts, h⟩ := bind_eq_ok.mp h
    obtain ⟨lake, hlake, h⟩ := bind_eq_ok.mp h
    obtain rfl := Except.ok.inj h
    obtain ⟨epochs, hindexed, hrows⟩ := indexed_of_specs hparts
    obtain ⟨hcomposed, hsha, -⟩ := composed_of_open hindexed hlake
    exact ⟨epochs, hrows, serves_epochs hcomposed, hsha⟩

/-! ## Walks -/

/-- Rows that stand in one epoch. -/
def InOneEpoch (epochs : List (List Row)) (first last : Nat) : Prop :=
  ∃ before here behind, epochs = before ++ here :: behind ∧ before.flatten.length ≤ first ∧
    last ≤ before.flatten.length + here.length

/-- Rows from an offset on, at least one of them, and all in its epoch. -/
structure PartFrom (epochs : List (List Row)) (offset limit : Nat) (got : List Row) : Prop where
  ne_nil : got ≠ []
  length : got.length ≤ limit
  part : got <+: epochs.flatten.drop offset
  epoch : InOneEpoch epochs offset (offset + got.length)

theorem Source.Serves.rows_eq {source : Source} (h : source.Serves language disk epochs)
    (hoffset : offset < epochs.flatten.length) (hlimit : 1 ≤ limit ∧ limit ≤ 1000) :
    ∃ got, source.rows language disk offset limit = .ok (got.map Row.block, offset + got.length) ∧
      PartFrom epochs offset limit got := by
  obtain ⟨i, rows, hi, hplace, hrows⟩ := h.inside offset limit hoffset hlimit
  have hlt := hplace.lt_length hi
  have hnext := start_succ hi
  have hle := hplace.le
  have hlen : ((rows.drop (offset - start epochs i)).take limit).length =
      min limit (rows.length - (offset - start epochs i)) := by
    rw [List.length_take, List.length_drop]
  refine ⟨(rows.drop (offset - start epochs i)).take limit, ?_, ?_, ?_, ?_, ?_⟩
  · rw [hrows, hlen]
    refine congrArg Except.ok (Prod.ext rfl ?_)
    dsimp only
    omega
  · rw [← List.length_pos_iff, hlen]
    omega
  · rw [hlen]
    exact Nat.min_le_left _ _
  · rw [hplace.drop hi]
    exact (List.take_prefix _ _).trans (List.prefix_append _ _)
  · obtain ⟨hilt, rfl⟩ := List.getElem?_eq_some_iff.mp hi
    refine ⟨epochs.take i, epochs[i], epochs.drop (i + 1), ?_, ?_, ?_⟩
    · rw [← List.drop_eq_getElem_cons hilt, List.take_append_drop]
    · rw [List.length_flatten]
      exact hle
    · rw [hlen, List.length_flatten]
      have hstart : start epochs i = ((epochs.take i).map List.length).sum := rfl
      omega

/-- The page of these rows, which start at an offset. -/
def listingOf (sha256 : JsString) (total offset : Nat) (got : List Row) : Listing where
  sha256 := sha256
  blocks := got.map Row.block
  cursor := if offset + got.length < total then some (natStr (offset + got.length)) else none
  truncated := decide (offset + got.length < total)

theorem Source.Serves.page_eq {source : Source} (h : source.Serves language disk epochs)
    (hoffset : offset < epochs.flatten.length) : ∃ got, PartFrom epochs offset pageSize got ∧
      source.page language disk offset = .ok (listingOf source.sha256 epochs.flatten.length offset got) := by
  obtain ⟨got, hrows, hpart⟩ := @Source.Serves.rows_eq _ _ _ _ pageSize source h hoffset (by decide)
  refine ⟨got, hpart, ?_⟩
  rw [Source.page, hrows, h.total]
  rfl

/-- **The walk** from the first cursor on, and what each page and each part of the rows is. -/
structure WalksOnce (language : Language) (disk : Disk) (source : Source) (epochs : List (List Row)) : Prop where
  walk : ∃ pages, Paging.walk (fun cursor => (source.served language disk cursor).toOption) follow
      epochs.flatten.length (js "0") = some pages ∧
    pages.flatMap Listing.blocks = epochs.flatten.map Row.block ∧
    ∀ page ∈ pages, page.blocks ≠ [] ∧ page.blocks.length ≤ 200 ∧ page.sha256 = source.sha256
  cursor : ∀ offset < epochs.flatten.length, ∃ page, source.page language disk offset = .ok page ∧
    page.truncated = page.cursor.isSome ∧
    ∀ c ∈ page.cursor, ∃ next, offset < next ∧ next < epochs.flatten.length ∧ c = natStr next ∧ offset? c = some next
  rows : ∀ offset limit, offset < epochs.flatten.length → 1 ≤ limit ∧ limit ≤ 1000 →
    ∃ got, source.rows language disk offset limit = .ok (got.map Row.block, offset + got.length) ∧
      PartFrom epochs offset limit got

theorem PartFrom.end_le {got : List Row} (h : PartFrom epochs offset limit got) (hoffset : offset < epochs.flatten.length) :
    offset + got.length ≤ epochs.flatten.length := by
  have := h.part.length_le
  rw [List.length_drop] at this
  omega

theorem listingOf_cursor {total : Nat} {got : List Row} : (listingOf sha256 total offset got).cursor =
    if offset + got.length < total then some (natStr (offset + got.length)) else none := rfl

/-- A page has a cursor where it is truncated. -/
theorem follow_listingOf {total : Nat} {got : List Row} :
    follow (listingOf sha256 total offset got) = (listingOf sha256 total offset got).cursor ∧
      (listingOf sha256 total offset got).truncated = (listingOf sha256 total offset got).cursor.isSome := by
  by_cases hmore : offset + got.length < total
  · simp [follow, listingOf, hmore]
  · simp [follow, listingOf, hmore]

theorem Source.Serves.served_eq {source : Source} (h : source.Serves language disk epochs)
    (hoffset : offset < epochs.flatten.length) : ∃ got, PartFrom epochs offset pageSize got ∧
      (source.served language disk (natStr offset)).toOption =
        some (listingOf source.sha256 epochs.flatten.length offset got) := by
  obtain ⟨got, hpart, hpage⟩ := h.page_eq hoffset
  refine ⟨got, hpart, ?_⟩
  rw [Source.served, offset?_natStr]
  exact congrArg Except.toOption hpage

/-- The pages cut the rows into parts. -/
theorem Source.Serves.chunked {source : Source} (h : source.Serves language disk epochs) :
    Paging.Chunked (fun cursor => (source.served language disk cursor).toOption) follow Listing.blocks natStr
      (epochs.flatten.map Row.block) := by
  intro offset hoffset
  rw [List.length_map] at hoffset
  obtain ⟨got, hpart, hserved⟩ := h.served_eq hoffset
  refine ⟨_, hserved, fun hnil => hpart.ne_nil (List.map_eq_nil_iff.mp hnil), ?_, ?_⟩
  · rw [← List.map_drop]
    exact hpart.part.map Row.block
  · have hlength : (listingOf source.sha256 epochs.flatten.length offset got).blocks.length = got.length := List.length_map _
    rw [follow_listingOf.1, listingOf_cursor, hlength, List.length_map]

theorem Source.Serves.walksOnce {source : Source} (h : source.Serves language disk epochs)
    (hsome : 0 < epochs.flatten.length) : WalksOnce language disk source epochs := by
  refine ⟨?_, fun offset hoffset => ?_, fun offset limit hoffset hlimit => h.rows_eq hoffset hlimit⟩
  · obtain ⟨pages, hwalk, hflat, hchunks⟩ := @Paging.Chunked.walk _ _ _ _ _ _ _ _ h.chunked 0 epochs.flatten.length
      (by rwa [List.length_map]) (by rw [List.length_map]; exact Nat.le_refl _)
    refine ⟨pages, hwalk, hflat, fun page hpage => ?_⟩
    obtain ⟨o, -, ho, hserved, hchunk⟩ := hchunks page hpage
    rw [List.length_map] at ho
    obtain ⟨got, hpart, hgot⟩ := h.served_eq ho
    obtain rfl := Option.some.inj (hserved.symm.trans hgot)
    refine ⟨hchunk.ne_nil, ?_, rfl⟩
    exact (List.length_map _).trans_le hpart.length
  · obtain ⟨got, hpart, hpage⟩ := h.page_eq hoffset
    refine ⟨_, hpage, follow_listingOf.2, fun c hc => ?_⟩
    rw [listingOf_cursor] at hc
    by_cases hmore : offset + got.length < epochs.flatten.length
    · rw [if_pos hmore] at hc
      obtain rfl := Option.some.inj hc
      have := List.length_pos_of_ne_nil hpart.ne_nil
      exact ⟨_, by omega, hmore, rfl, offset?_natStr _⟩
    · rw [if_neg hmore] at hc
      cases hc

/-- **Walking the listing** sees the rows of the inventories once each and in order. -/
theorem walks_once {config : Config} {source : Source} (h : openSource nc language disk config = .ok source)
    (hsome : 0 < source.total) :
    ∃ epochs, RowsOf language disk config.paths epochs ∧ WalksOnce language disk source epochs := by
  obtain ⟨epochs, hrows, hserves, -⟩ := serves_of_open h
  exact ⟨epochs, hrows, hserves.walksOnce (hserves.total ▸ hsome)⟩

namespace Sample

def one : Row := ⟨js "bafkreidwslb22nkaxoadyaqlhlxgntmiq4jdenhkbrxhcq6avxlt75br5u", 3⟩

def three : Row := ⟨js "bafkreielloo3bqj5wjbfnsbjvi3evkimnuxlummlsizkjk4tco4vju2vl4", 5⟩

/-- The epoch in the middle is empty. -/
def threeEpochs : List (List Row) := [[one], [], [three]]

def epochFiles : List Bytes := threeEpochs.map fun rows => utf8 (rows.flatMap lineOf)

/-- The SHA-256 of each epoch, and of all. -/
def digest (data : Bytes) : Bytes :=
  if data = utf8 (lineOf one) then
    [176, 157, 51, 37, 174, 8, 90, 78, 157, 220, 146, 70, 54, 227, 158, 23, 171, 153, 79, 110, 59, 94, 66, 138, 223,
      255, 0, 15, 113, 100, 138, 179]
  else if data = utf8 (lineOf three) then
    [226, 189, 255, 174, 170, 188, 132, 130, 212, 157, 16, 57, 24, 1, 40, 38, 172, 217, 19, 46, 49, 59, 120, 72, 6, 221,
      174, 197, 122, 36, 9, 114]
  else if data = epochFiles.flatten then
    [65, 32, 84, 147, 78, 193, 66, 248, 86, 33, 1, 90, 213, 126, 125, 68, 97, 83, 117, 243, 220, 1, 163, 115, 174, 49,
      116, 13, 119, 129, 112, 166]
  else
    [227, 176, 196, 66, 152, 252, 28, 20, 154, 251, 244, 200, 153, 111, 185, 36, 39, 174, 65, 228, 100, 155, 147, 76,
      164, 149, 153, 27, 120, 82, 184, 85]

def crypto : NodeCrypto := ⟨digest, fun _ _ _ => false⟩

def onDisk (path : JsString) : File :=
  if path = js "epoch-0" then ⟨1, 10, utf8 ([one].flatMap lineOf)⟩
  else if path = js "epoch-2" then ⟨2, 20, utf8 ([three].flatMap lineOf)⟩
  else ⟨3, 30, []⟩

def spec (path : String) (rows : List Row) : Spec :=
  ⟨js path, hexdigest (digest (utf8 (rows.flatMap lineOf))), (fileLines (utf8 (rows.flatMap lineOf))).length⟩

def specs : List Spec := [spec "epoch-0" [one], spec "epoch-1" [], spec "epoch-2" [three]]

def config : Config := .epochs specs (hexdigest (crypto.sha256 epochFiles.flatten)) threeEpochs.flatten.length

theorem readable (language : Language) : ∀ row ∈ [one, three], readerRe row.cid = true ∧ Printed language row := by
  have hre : ∀ row ∈ [one, three], readerRe row.cid = true := by decide
  have hsize : ∀ row ∈ [one, three], row.size ≤ 2 ^ 53 := by decide
  exact fun row hrow => ⟨hre row hrow, fun _ => inDigits_of_le hsize row hrow⟩

theorem holdsRows (language : Language) {rows : List Row} (h : rows ⊆ [one, three]) :
    Holds language (utf8 (rows.flatMap lineOf)) rows := by
  have hsize : ∀ row ∈ [one, three], row.size ≤ 2 ^ 53 ∧ 1 ≤ row.size := by decide
  exact holds_rows (fun row hrow => (readable language row (h hrow)).1)
    (fun row hrow => ⟨held_of_le (hsize row (h hrow)).1, (hsize row (h hrow)).2⟩)
    fun row hrow => (readable language row (h hrow)).2

theorem holds (language : Language) : List.Forall₂ (Holds language) epochFiles threeEpochs :=
  .cons (holdsRows language (by simp)) (.cons (holdsRows language (by simp)) (.cons (holdsRows language (by simp)) .nil))

theorem declared {path : String} {rows : List Row} (h : (onDisk (js path)).content = utf8 (rows.flatMap lineOf)) :
    Declared crypto onDisk (spec path rows) (utf8 (rows.flatMap lineOf)) := ⟨h, rfl, rfl⟩

theorem declares : List.Forall₂ (Declared crypto onDisk) specs epochFiles := by
  have hzero : onDisk (js "epoch-0") = ⟨1, 10, utf8 ([one].flatMap lineOf)⟩ := if_pos rfl
  have hone : onDisk (js "epoch-1") = ⟨3, 30, []⟩ := (if_neg (by decide)).trans (if_neg (by decide))
  have htwo : onDisk (js "epoch-2") = ⟨2, 20, utf8 ([three].flatMap lineOf)⟩ := (if_neg (by decide)).trans (if_pos rfl)
  exact .cons (declared (congrArg File.content hzero))
    (.cons (declared (congrArg File.content hone)) (.cons (declared (congrArg File.content htwo)) .nil))

theorem opens (language : Language) : ∃ lake, openSource crypto language onDisk config = .ok (.epochs lake) ∧
    (Source.epochs lake).Serves language onDisk threeEpochs := by
  obtain ⟨parts, lake, hindexed, hlake, hopen⟩ := openSource_of_holds (by decide) declares (holds language) (by decide)
  exact ⟨lake, hopen, serves_epochs (composed_of_open hindexed hlake).1⟩

end Sample

theorem walks_once_sample : ∃ source, openSource Sample.crypto .python Sample.onDisk Sample.config = .ok source ∧
    ∃ epochs, RowsOf .python Sample.onDisk Sample.config.paths epochs ∧
      WalksOnce .python Sample.onDisk source epochs := by
  obtain ⟨lake, hopen, hserves⟩ := Sample.opens .python
  exact ⟨_, hopen, walks_once hopen (hserves.total ▸ by decide)⟩

/-! ## Two languages -/

/-- Lines that both languages take hold the same rows. -/
theorem rows_of_lines {lines : List Bytes} {as bs : List Row} (ha : lines.map kotobaRow = as.map some)
    (hb : lines.map loadsRow = bs.map some) (hsize : ∀ row ∈ bs, row.size < 2 ^ 53) : as = bs := by
  induction lines generalizing as bs with
  | nil =>
    rw [List.map_eq_nil_iff.mp ha.symm, List.map_eq_nil_iff.mp hb.symm]
  | cons line lines ih =>
    cases as with
    | nil => cases ha
    | cons a as =>
      cases bs with
      | nil => cases hb
      | cons b bs =>
        obtain ⟨ha, has⟩ := List.cons.inj ha
        obtain ⟨hb, hbs⟩ := List.cons.inj hb
        obtain ⟨hsize, hsizes⟩ := List.forall_mem_cons.mp hsize
        rw [same_row_exact ha hb hsize.le, ih has hbs hsizes]

theorem rowsOf_unique {paths : List JsString} {epochs epochs' : List (List Row)} (hk : RowsOf .kotoba disk paths epochs)
    (hp : RowsOf .python disk paths epochs') (hsize : ∀ rows ∈ epochs', ∀ row ∈ rows, row.size < 2 ^ 53) :
    epochs = epochs' := by
  induction hk generalizing epochs' with
  | nil =>
    cases hp
    rfl
  | cons hrows more ih =>
    cases hp with
    | cons hrows' more' =>
      obtain ⟨hsize, hsizes⟩ := List.forall_mem_cons.mp hsize
      rw [rows_of_lines hrows hrows' hsize, ih more' hsizes]

theorem exists_of_forall₂ {α β : Type} {R : α → β → Prop} {xs : List α} {ys : List β} (h : List.Forall₂ R xs ys) {y : β}
    (hy : y ∈ ys) : ∃ x ∈ xs, R x y := by
  induction h with
  | nil => cases hy
  | cons hxy more ih =>
    rcases List.mem_cons.mp hy with rfl | hy
    · exact ⟨_, List.mem_cons_self, hxy⟩
    · obtain ⟨x, hx, hR⟩ := ih hy
      exact ⟨x, List.mem_cons_of_mem _ hx, hR⟩

/-- The inventories decide what is served. -/
theorem Source.Serves.rows_unique {language' : Language} {source source' : Source} (h : source.Serves language disk epochs)
    (h' : source'.Serves language' disk epochs) (hlimit : 1 ≤ limit ∧ limit ≤ 1000) :
    source.rows language disk offset limit = source'.rows language' disk offset limit := by
  rcases Nat.lt_or_ge offset epochs.flatten.length with hoffset | hoffset
  · obtain ⟨i, rows, hi, hplace, hrows⟩ := h.inside offset limit hoffset hlimit
    obtain ⟨j, rows', hj, hplace', hrows'⟩ := h'.inside offset limit hoffset hlimit
    obtain rfl := hplace.unique hplace'
    obtain rfl := Option.some.inj (hi.symm.trans hj)
    rw [hrows, hrows']
  · rw [h.outside offset limit hoffset, h'.outside offset limit hoffset]

/-- **Both languages serve the same pages** of inventories that both accept, where a double counts the sizes exactly. -/
theorem same_pages {config : Config} {source source' : Source} (hp : openSource nc .python disk config = .ok source)
    (hk : openSource nc .kotoba disk config = .ok source')
    (hsize : ∀ path ∈ config.paths, ∀ line ∈ fileLines (disk path).content, ∀ row ∈ loadsRow line, row.size < 2 ^ 53) :
    ∀ offset cursor, source.page .python disk offset = source'.page .kotoba disk offset ∧
      source.served .python disk cursor = source'.served .kotoba disk cursor := by
  obtain ⟨epochs, hrows, hserves, hsha⟩ := serves_of_open hp
  obtain ⟨epochs', hrows', hserves', hsha'⟩ := serves_of_open hk
  have hsizes : ∀ rows ∈ epochs, ∀ row ∈ rows, row.size < 2 ^ 53 := by
    intro rows hmem row hrow
    obtain ⟨path, hpath, hlines⟩ := exists_of_forall₂ hrows hmem
    have hsome : some row ∈ (fileLines (disk path).content).map (lineRow .python) :=
      hlines ▸ List.mem_map_of_mem hrow
    obtain ⟨line, hline, hread⟩ := List.mem_map.mp hsome
    exact hsize path hpath line hline row hread
  obtain rfl := rowsOf_unique hrows' hrows hsizes
  have hpage : ∀ offset, source.page .python disk offset = source'.page .kotoba disk offset := by
    intro offset
    rw [Source.page, Source.page, hserves.rows_unique hserves' (by decide), hserves.total, hserves'.total, hsha, hsha']
  refine fun offset cursor => ⟨hpage offset, ?_⟩
  rw [Source.served, Source.served]
  cases offset? cursor with
  | none => rfl
  | some offset => exact hpage offset

theorem same_pages_sample : ∃ source source', openSource Sample.crypto .python Sample.onDisk Sample.config = .ok source ∧
    openSource Sample.crypto .kotoba Sample.onDisk Sample.config = .ok source' ∧
    ∀ offset cursor, source.page .python Sample.onDisk offset = source'.page .kotoba Sample.onDisk offset ∧
      source.served .python Sample.onDisk cursor = source'.served .kotoba Sample.onDisk cursor := by
  obtain ⟨lake, hp, hserves⟩ := Sample.opens .python
  obtain ⟨lake', hk, -⟩ := Sample.opens .kotoba
  refine ⟨_, _, hp, hk, same_pages hp hk fun path hpath line hline row hrow => ?_⟩
  have hsize : ∀ rows ∈ Sample.threeEpochs, ∀ row ∈ rows, row.size < 2 ^ 53 := by decide
  have hall := rowsOf_of_holds Sample.declares (Sample.holds .python)
  obtain ⟨rows, hrows, hread⟩ := exists_of_forall₂ (List.Forall₂.flip hall) hpath
  have hmem : some row ∈ rows.map some := hread ▸ List.mem_map.mpr ⟨line, hline, hrow⟩
  obtain ⟨row', hrow', heq⟩ := List.mem_map.mp hmem
  exact hsize rows hrows row (Option.some.inj heq ▸ hrow')

end Lake
