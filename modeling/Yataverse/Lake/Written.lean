import Yataverse.Lake.Indexed

/-!
# Files that the readers open

- `Holds`: a file of rows.
- `Holds.flatten`: files of rows one behind the other.
- `lineRow_lineOf`, `holds_rows`: rows that are written are read back, in both languages.
- **`openSource_of_holds`**: the inventories of all epochs are opened where no CID is in them twice.
-/

namespace Lake

open Js Json GraphHead Fallible Splitting

variable {nc : NodeCrypto} {language : Language} {disk : Disk} {file more line : Bytes} {files : List Bytes}
  {rows : List Row} {row : Row} {epochs : List (List Row)} {parts : List Index} {index : Index}

/-! ## Files of rows -/

/-- Nothing stands behind the last newline. -/
def Ended (file : Bytes) : Prop := file = [] ∨ ∃ front, file = front ++ [10]

/-- A file of rows, each in a line that ends with a newline. -/
structure Holds (language : Language) (file : Bytes) (rows : List Row) : Prop where
  lines : (fileLines file).map (lineRow language) = rows.map some
  ended : Ended file

theorem Ended.append (h : Ended file) (hmore : Ended more) : Ended (file ++ more) := by
  rcases hmore with rfl | ⟨front, rfl⟩
  · rwa [List.append_nil]
  · exact .inr ⟨file ++ front, (List.append_assoc _ _ _).symm⟩

/-- Behind a newline, lines begin anew. -/
theorem fileLines_append_ended (h : Ended file) (more : Bytes) :
    fileLines (file ++ more) = fileLines file ++ fileLines more := by
  induction hn : (fileLines file).length generalizing file with
  | zero =>
    rw [List.length_eq_zero_iff] at hn
    rw [hn, fileLines_eq_nil hn]
    rfl
  | succ n ih =>
    cases hlines : fileLines file with
    | nil =>
      rw [hlines] at hn
      cases hn
    | cons l ls =>
      rw [hlines] at hn
      rcases fileLines_cases hlines with ⟨x, rest, hx, rfl, rfl, rfl⟩ | ⟨hmem, rfl, rfl⟩
      · have hrest : Ended rest := by
          rcases h with h | ⟨front, h⟩
          · exact absurd h (by simp)
          · rcases List.eq_nil_or_concat rest with rfl | ⟨front', b, rfl⟩
            · exact .inl rfl
            · rw [List.concat_eq_append, ← List.cons_append, ← List.append_assoc] at h
              obtain ⟨-, hb⟩ := List.append_inj' h rfl
              exact .inr ⟨front', by rw [List.concat_eq_append, hb]⟩
        rw [List.append_assoc, List.cons_append, fileLines_append hx, ih hrest (Nat.succ.inj hn), List.cons_append]
      · rcases h with rfl | ⟨front, rfl⟩
        · cases hlines
        · exact absurd (List.mem_append_right _ List.mem_cons_self) hmem

theorem Holds.append {others : List Row} (h : Holds language file rows) (hmore : Holds language more others) :
    Holds language (file ++ more) (rows ++ others) := by
  refine ⟨?_, h.ended.append hmore.ended⟩
  rw [fileLines_append_ended h.ended, List.map_append, h.lines, hmore.lines, List.map_append]

/-- **Files of rows one behind the other.** -/
theorem Holds.flatten (h : List.Forall₂ (Holds language) files epochs) : Holds language files.flatten epochs.flatten := by
  induction h with
  | nil => exact ⟨rfl, .inl rfl⟩
  | cons hfile more ih => exact hfile.append ih

/-! ## What is written -/

theorem held_of_le {n : Nat} (h : n ≤ 2 ^ 53) : (Number.int n).Held := by
  have hexact : Number.ofInt n = .int n := Number.ofInt_exact (by rwa [Int.natAbs_natCast])
  exact hexact ▸ Number.ofRat_held _

/-- How a size is printed. Python has an integer where its digits are. -/
def Printed (language : Language) (row : Row) : Prop :=
  language = .python → numStr (.int row.size) = natStr row.size

theorem plain_of_readerRe {cid : JsString} (h : readerRe cid = true) : Plain cid := by
  simp only [readerRe, Bool.and_eq_true] at h
  exact List.all_eq_true.mp h.1.1

/-- Python decodes the line of a row. -/
theorem jsonText_lineOf (h : Plain row.cid) (hrow : kotobaRow (utf8 (lineOf row)) = some row) :
    jsonText (utf8 (lineOf row)) = some (lineOf row) := by
  obtain ⟨v, hv, hrow⟩ := Option.bind_eq_some_iff.mp hrow
  obtain ⟨e, kvs, rfl⟩ := obj_of_rowIn hrow
  rw [jsonText, detectEncoding_of_parse hv]
  dsimp only
  rw [List.drop_zero, utf8_ascii (ascii_lineOf h)]
  exact loadBytes_ascii (ascii_lineOf h)

/-- **A line that is written** is read back. -/
theorem lineRow_lineOf (hre : readerRe row.cid = true) (hheld : (Number.int row.size).Held) (hsize : 1 ≤ row.size)
    (hprinted : Printed language row) : lineRow language (utf8 (lineOf row)) = some row := by
  have hplain := plain_of_readerRe hre
  have hkotoba : kotobaRow (utf8 (lineOf row)) = some row := by
    rw [kotobaRow_lineOf hplain hheld hsize, if_pos ((readerRe_plain hplain).mp hre)]
  cases language with
  | kotoba => exact hkotoba
  | python =>
    obtain ⟨y, hloads, -, hdecimal⟩ := @loads_rowText row.cid [10] row.size hheld (by decide)
    rw [lineRow, loadsRow, jsonText_lineOf hplain hkotoba, Option.bind_some, lineOf, hloads, Option.bind_some,
      hdecimal _ (hprinted rfl), rowIn_rowJson hplain, if_pos ⟨(readerRe_plain hplain).mp hre, by omega⟩,
      Int.toNat_natCast]

theorem ended_written (h : ∀ row ∈ rows, Plain row.cid) : Ended (utf8 (rows.flatMap lineOf)) := by
  induction rows with
  | nil => exact .inl rfl
  | cons row rows ih =>
    obtain ⟨hrow, hrows⟩ := List.forall_mem_cons.mp h
    obtain ⟨line, hline, -⟩ := utf8_lineOf hrow
    rw [List.flatMap_cons, utf8_append_ascii (ascii_lineOf hrow) (ascii_flatMap hrows), hline]
    exact Ended.append (.inr ⟨line, rfl⟩) (ih hrows)

/-- **A file of rows that were written.** -/
theorem holds_rows (hre : ∀ row ∈ rows, readerRe row.cid = true)
    (hheld : ∀ row ∈ rows, (Number.int row.size).Held ∧ 1 ≤ row.size) (hprinted : ∀ row ∈ rows, Printed language row) :
    Holds language (utf8 (rows.flatMap lineOf)) rows := by
  have hplain : ∀ row ∈ rows, Plain row.cid := fun row hrow => plain_of_readerRe (hre row hrow)
  refine ⟨?_, ended_written hplain⟩
  rw [fileLines_rows hplain, List.map_map]
  exact List.map_congr_left fun row hrow =>
    lineRow_lineOf (hre row hrow) (hheld row hrow).1 (hheld row hrow).2 (hprinted row hrow)

/-! ## Opening -/

/-- The file is at its path, with its digest and the number of its lines. -/
structure Declared (nc : NodeCrypto) (disk : Disk) (spec : Spec) (file : Bytes) : Prop where
  content : (disk spec.path).content = file
  sha256 : spec.sha256 = hexdigest (nc.sha256 file)
  count : spec.count = (fileLines file).length

theorem openIndex_of_holds {spec : Spec} (hspec : Declared nc disk spec file) (h : Holds language file rows)
    (hdistinct : (rows.map Row.cid).Nodup) : ∃ index, spec.openIndex nc language disk = .ok index ∧
      Indexed language disk index rows ∧ (disk index.path).content = file := by
  obtain ⟨hcontent, hsha, hcount⟩ := hspec
  have hkeys : ((sizesOf rows).map Prod.fst).Nodup := by
    rwa [sizesOf, List.map_map]
  have hlength := congrArg List.length h.lines
  rw [List.length_map, List.length_map] at hlength
  have hindexed : Indexed language disk ⟨spec.path, spec.sha256,
      Splitting.startsFrom 0 ((fileLines (disk spec.path).content).map List.length), ⟨sizesOf rows, hkeys⟩,
      (disk spec.path).identity⟩ rows := ⟨hcontent ▸ h.lines, rfl, rfl, rfl⟩
  refine ⟨_, openIndex_eq_ok.mpr ⟨rows, hindexed, rfl, rfl, ?_, ?_⟩, hindexed, hcontent⟩
  · rw [hcontent, hsha]
  · rw [hcount, hlength]

theorem addPart_eq_ok {index : Nat} {entries : List (JsString × Nat)} {sizes owner : JsMap JsString Nat}
    (h : ((sizes.entries ++ entries).map Prod.fst).Nodup) : ∃ acc, addPart index entries (sizes, owner) = .ok acc ∧
      acc.1.entries = sizes.entries ++ entries := by
  induction entries generalizing sizes owner with
  | nil => exact ⟨_, rfl, (List.append_nil _).symm⟩
  | cons e entries ih =>
    have hnew : e.1 ∉ sizes.entries.map Prod.fst := by
      rw [List.map_append, List.nodup_append] at h
      exact fun hmem => h.2.2 _ hmem _ List.mem_cons_self rfl
    have hset : (sizes.set e.1 e.2).entries = sizes.entries ++ [e] := setEntry_new hnew
    rw [addPart, if_neg fun hhas => hnew (JsMap.has_iff.mp hhas)]
    obtain ⟨acc, hacc, hentries⟩ := @ih (sizes.set e.1 e.2) (owner.set e.1 index)
      (by rwa [hset, List.append_assoc, List.singleton_append])
    refine ⟨acc, hacc, ?_⟩
    rw [hentries, hset, List.append_assoc, List.singleton_append]

/-- **The parts are put together** where no CID is in two of them. -/
theorem addParts_eq_ok {index : Nat} {parts : List Index} {acc : JsMap JsString Nat × JsMap JsString Nat}
    (h : ((acc.1.entries ++ parts.flatMap fun part => part.sizes.entries).map Prod.fst).Nodup) :
    ∃ acc', addParts index parts acc = .ok acc' := by
  induction parts generalizing index acc with
  | nil => exact ⟨acc, rfl⟩
  | cons part parts ih =>
    rw [List.flatMap_cons, ← List.append_assoc] at h
    have hpart : ((acc.1.entries ++ part.sizes.entries).map Prod.fst).Nodup :=
      h.sublist ((List.sublist_append_left _ _).map _)
    obtain ⟨acc₁, hacc₁, hentries⟩ := @addPart_eq_ok index part.sizes.entries acc.1 acc.2 hpart
    obtain ⟨acc', hacc'⟩ := @ih (index + 1) acc₁ (by rwa [hentries])
    exact ⟨acc', bind_eq_ok.mpr ⟨acc₁, hacc₁, hacc'⟩⟩

theorem openParts_of_holds {specs : List Spec} (hspecs : List.Forall₂ (Declared nc disk) specs files)
    (h : List.Forall₂ (Holds language) files epochs) (hdistinct : (epochs.flatten.map Row.cid).Nodup) :
    ∃ parts, specs.mapM (Spec.openIndex nc language disk) = .ok parts ∧
      List.Forall₂ (Indexed language disk) parts epochs ∧
      (parts.map fun part => (disk part.path).content) = files := by
  induction hspecs generalizing epochs with
  | nil =>
    cases h
    exact ⟨[], rfl, .nil, rfl⟩
  | cons hspec more ih =>
    cases h with
    | cons hrows hmore =>
      rw [List.flatten_cons, List.map_append, List.nodup_append] at hdistinct
      obtain ⟨index, hopen, hindexed, hcontent⟩ := openIndex_of_holds hspec hrows hdistinct.1
      obtain ⟨parts, hparts, hall, hcontents⟩ := ih hmore hdistinct.2.1
      refine ⟨index :: parts, mapM_eq_ok.mpr (.cons hopen (mapM_eq_ok.mp hparts)), .cons hindexed hall, ?_⟩
      rw [List.map_cons, hcontent, hcontents]

theorem sizes_of_indexed {parts : List Index} (h : List.Forall₂ (Indexed language disk) parts epochs) :
    (parts.flatMap fun part => part.sizes.entries) = sizesOf epochs.flatten := by
  induction h with
  | nil => rfl
  | cons hpart more ih => rw [List.flatMap_cons, List.flatten_cons, ih, hpart.sizes, sizesOf, sizesOf, sizesOf, List.map_append]

theorem counts_eq (h : List.Forall₂ (Indexed language disk) parts epochs) :
    parts.map Index.count = epochs.map List.length := by
  rw [← List.forall₂_eq_eq_eq, List.forall₂_map_left_iff, List.forall₂_map_right_iff]
  exact h.imp fun part rows hrows => hrows.count_eq

/-- **The epochs are opened** with their digest and the number of their rows. -/
theorem openSource_of_holds {specs : List Spec} (hne : files ≠ []) (hspecs : List.Forall₂ (Declared nc disk) specs files)
    (h : List.Forall₂ (Holds language) files epochs) (hdistinct : (epochs.flatten.map Row.cid).Nodup) :
    ∃ parts lake, List.Forall₂ (Indexed language disk) parts epochs ∧
      openComposite nc language disk parts (hexdigest (nc.sha256 files.flatten)) epochs.flatten.length = .ok lake ∧
      openSource nc language disk (.epochs specs (hexdigest (nc.sha256 files.flatten)) epochs.flatten.length) =
        .ok (.epochs lake) := by
  obtain ⟨parts, hparts, hindexed, hcontents⟩ := openParts_of_holds hspecs h hdistinct
  have hkeys : (((JsMap.empty : JsMap JsString Nat).entries ++ parts.flatMap fun part => part.sizes.entries).map Prod.fst).Nodup := by
    have hempty : (JsMap.empty : JsMap JsString Nat).entries = [] := rfl
    rw [sizes_of_indexed hindexed, sizesOf, hempty, List.nil_append, List.map_map]
    exact hdistinct
  obtain ⟨⟨sizes, owner⟩, hacc⟩ := @addParts_eq_ok 0 parts (.empty, .empty) hkeys
  have hparts_ne : parts ≠ [] := by
    rintro rfl
    exact hne hcontents.symm
  have hlake : openComposite nc language disk parts (hexdigest (nc.sha256 files.flatten)) epochs.flatten.length =
      .ok ⟨parts, startsOf language parts, hexdigest (nc.sha256 files.flatten), (parts.map Index.count).sum, sizes, owner⟩ := by
    simp only [openComposite, bind_eq_ok, require_eq_ok, Prod.exists]
    refine ⟨(), hparts_ne, (), ⟨?_, ?_⟩, sizes, owner, hacc, rfl⟩
    · rw [List.flatMap_def, hcontents]
    · rw [counts_eq hindexed, List.length_flatten]
  exact ⟨parts, _, hindexed, hlake, bind_eq_ok.mpr ⟨parts, hparts, bind_eq_ok.mpr ⟨_, hlake, rfl⟩⟩⟩

end Lake
