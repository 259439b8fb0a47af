import Yataverse.Js.Held
import Yataverse.Lake.Walked
import Yataverse.LakeEpoch.Delta
import Yataverse.LakeHead.Resolve

/-!
# The log over many epochs

Each epoch is what `delta!` leaves of a diff, and the epochs stand one behind the other.

- `Holds`: a file of rows.
- `Holds.flatten`: files of rows one behind the other.
- `holds_written`: what `delta!` writes.
- `Grown`: a first inventory, and epochs that were added.
- **`log_grows`**: no CID is twice in the log, and its readers open it.
-/

namespace LakeEpoch

open Js Json GraphHead Lake Fallible

variable {nc : NodeCrypto} {language : Language} {disk : Disk} {file more line : Bytes} {files : List Bytes}
  {rows log diff : List Row} {row : Row} {epochs : List (List Row)} {path : JsString}

/-! ## Files of rows -/

/-- `read-rows` takes every row that a reader of inventories takes. -/
theorem readRow_of_row (h : kotobaRow line = some row) (n : Nat) : readRow path (ofUtf8 line) n = .ok row := by
  obtain ⟨v, hv, hrow⟩ := Option.bind_eq_some_iff.mp h
  obtain ⟨e, kvs, rfl⟩ := obj_of_rowIn hrow
  obtain ⟨hcid, hbytes, -, hpos⟩ := rowIn_eq_some.mp hrow
  rw [readRow, hv]
  dsimp only
  rw [hcid, hbytes]
  dsimp only [Json.int?]
  rw [if_pos (by exact_mod_cast hpos), Int.toNat_natCast]

/-- **`read-rows` reads a file of rows.** -/
theorem readRows_of_holds (h : Holds .kotoba file rows) : readRows path file = .ok rows := by
  obtain ⟨lines, hlines, hrows⟩ := Lake.inkedLines_rows h.lines
  have hfst : (((splitNewline (ofUtf8 file)).zipIdx 1).filter fun p => !isBlank p.1).map Prod.fst = lines.map ofUtf8 := by
    rw [← hlines, inkedLines]
    conv_rhs => rw [← List.zipIdx_map_fst 1 (splitNewline (ofUtf8 file)), List.filter_map]
    rfl
  have hboth : List.Forall₂ (fun line row => ∀ n, readRow path line n = .ok row)
      ((((splitNewline (ofUtf8 file)).zipIdx 1).filter fun p => !isBlank p.1).map Prod.fst) rows := by
    rw [hfst, List.forall₂_map_left_iff]
    exact hrows.imp fun line row hrow n => readRow_of_row hrow n
  rw [List.forall₂_map_left_iff] at hboth
  rw [readRows, mapM_eq_ok]
  exact hboth.imp fun p row hrow => hrow p.2

/-- `resolve!` counts the rows of the file. -/
theorem countRows_of_holds (h : Holds .kotoba file rows) : LakeHead.countRows file = rows.length := by
  obtain ⟨tail, htail, hnil⟩ := splitOn_fileLines file
  have hempty : tail.filter (· ≠ []) = [] := List.filter_eq_nil_iff.mpr fun line hline => by simp [hnil line hline]
  have hbody : ∀ l ∈ (fileLines file).map body, decide (l ≠ []) = true := by
    intro l hl
    obtain ⟨line, hline, rfl⟩ := List.mem_map.mp hl
    have hmem : lineRow .kotoba line ∈ rows.map some := h.lines ▸ List.mem_map_of_mem hline
    obtain ⟨row, -, hrow⟩ := List.mem_map.mp hmem
    refine decide_eq_true fun hnone => ?_
    have hink := isBlank_of_row (kotobaRow_body hline hrow.symm)
    rw [hnone] at hink
    cases hink
  have hlength : (fileLines file).length = rows.length := by
    have := congrArg List.length h.lines
    rwa [List.length_map, List.length_map] at this
  rw [LakeHead.countRows, pieces_ofUtf8, List.length_map, Splitting.pieces, htail, List.filter_append, hempty,
    List.append_nil, List.filter_eq_self.mpr hbody, List.length_map, hlength]

/-! ## What is written -/

/-- What `read-rows` takes has a size that a double holds. -/
theorem held_of_readRow {text : JsString} {n : Nat} (h : readRow path text n = .ok row) :
    (Number.int row.size).Held ∧ 1 ≤ row.size := by
  rw [readRow] at h
  split at h
  · cases h
  · cases h
  · rename_i v _ hv
    split at h
    · rename_i cid size hcid hbytes
      split_ifs at h with hpos
      obtain rfl := Except.ok.inj h
      have hnumbers := (numbers_of_parse hv).get (js "bytes")
      cases hget : v.get (js "bytes") with
      | num x =>
        rw [hget] at hbytes hnumbers
        cases x with
        | int m =>
          obtain rfl := Option.some.inj hbytes
          have hsize : ((m.toNat : Nat) : Int) = m := Int.toNat_of_nonneg hpos.le
          refine ⟨?_, ?_⟩
          · dsimp only
            rw [hsize]
            exact hnumbers
          · have hpos : 0 < m := hpos
            dsimp only
            omega
        | frac q => cases hbytes
        | inf negative => cases hbytes
      | null | bool b | str s | arr xs | obj kvs =>
        rw [hget] at hbytes
        cases hbytes
    · cases h

theorem held_of_readRows (h : readRows path file = .ok rows) : ∀ row ∈ rows, (Number.int row.size).Held ∧ 1 ≤ row.size := by
  intro row hrow
  obtain ⟨p, -, hp⟩ := exists_of_forall₂ (mapM_eq_ok.mp h) hrow
  exact held_of_readRow hp

theorem rowLine_eq (row : Row) : rowLine row = lineOf row := by
  have hend : js "\x7d\n" = js "\x7d" ++ [10] := by decide
  rw [rowLine, lineOf, rowText, hend, List.append_assoc, List.append_assoc, List.append_assoc, List.append_assoc,
    List.append_assoc, List.append_assoc, List.append_assoc]

theorem file_write (nc : NodeCrypto) (rows : List Row) : (write nc rows).file = utf8 (rows.flatMap lineOf) :=
  congrArg (fun f => utf8 (rows.flatMap f)) (funext rowLine_eq)

/-- **The file that `delta!` writes.** -/
theorem holds_written (hre : ∀ row ∈ rows, readerRe row.cid = true)
    (hheld : ∀ row ∈ rows, (Number.int row.size).Held ∧ 1 ≤ row.size) (hprinted : ∀ row ∈ rows, Printed language row) :
    Holds language (write nc rows).file rows := by
  rw [file_write]
  exact holds_rows hre hheld hprinted

/-! ## Growing -/

/-- The first inventory, and the epochs that `delta!` has added to the log. -/
inductive Grown (nc : NodeCrypto) (language : Language) : List Bytes → Prop
  | first {file : Bytes} {rows : List Row} (hkotoba : Holds .kotoba file rows) (hreader : Holds language file rows)
      (hdistinct : (rows.map Row.cid).Nodup) : Grown nc language [file]
  | next {files : List Bytes} {logPath diffPath : JsString} {diffFile : Bytes} {diff : List Row} {w : Written}
      (hlog : Grown nc language files) (hdiff : readRows diffPath diffFile = .ok diff)
      (hreadable : ∀ row ∈ diff, readerRe row.cid = true ∧ Printed language row)
      (hrun : delta nc logPath diffPath files.flatten diffFile = .ok w) : Grown nc language (files ++ [w.file])

/-- Files with the rows of the epochs, and no CID twice. -/
structure Log (language : Language) (files : List Bytes) (epochs : List (List Row)) : Prop where
  kotoba : List.Forall₂ (Holds .kotoba) files epochs
  reader : List.Forall₂ (Holds language) files epochs
  distinct : (epochs.flatten.map Row.cid).Nodup

theorem Log.readRows_eq (h : Log language files epochs) (path : JsString) :
    readRows path files.flatten = .ok epochs.flatten := readRows_of_holds (Holds.flatten h.kotoba)

/-- **When `delta!` writes**, and what: rows of the diff, and none of the log's. -/
theorem delta_eq_ok {logPath diffPath : JsString} {logFile diffFile : Bytes} {w : Written}
    (hlog : readRows logPath logFile = .ok log) (hdiff : readRows diffPath diffFile = .ok diff)
    (hdistinct : (log.map Row.cid).Nodup) : delta nc logPath diffPath logFile diffFile = .ok w ↔
      ((∀ row ∈ diff, row.cid ∈ log.map Row.cid → row ∈ log) ∧ New [] (fresh log diff)) ∧ w = write nc (fresh log diff) := by
  have hrun : delta nc logPath diffPath logFile diffFile =
      (diff.foldlM (pickRow (held log)) ⟨[], []⟩ >>= fun picked => .ok (write nc picked.rows)) := by
    rw [delta, hlog, hdiff]
    rfl
  rw [hrun, bind_eq_ok, ← @pick_returns log diff ⟨[], []⟩ hdistinct]
  constructor
  · rintro ⟨picked, hpicked, hw⟩
    refine ⟨⟨picked, hpicked⟩, ?_⟩
    rw [← Except.ok.inj hw, pick_rows hdistinct hpicked]
    rfl
  · rintro ⟨⟨picked, hpicked⟩, rfl⟩
    refine ⟨picked, hpicked, ?_⟩
    rw [pick_rows hdistinct hpicked]
    rfl

theorem Log.next {logPath diffPath : JsString} {diffFile : Bytes} {w : Written} (h : Log language files epochs)
    (hdiff : readRows diffPath diffFile = .ok diff) (hreadable : ∀ row ∈ diff, readerRe row.cid = true ∧ Printed language row)
    (hrun : delta nc logPath diffPath files.flatten diffFile = .ok w) :
    Log language (files ++ [w.file]) (epochs ++ [fresh epochs.flatten diff]) := by
  obtain ⟨⟨-, hnew⟩, rfl⟩ := (delta_eq_ok (h.readRows_eq logPath) hdiff h.distinct).mp hrun
  have hsub : ∀ row ∈ fresh epochs.flatten diff, row ∈ diff := fun row hrow => List.mem_of_mem_filter hrow
  have hheld : ∀ row ∈ fresh epochs.flatten diff, (Number.int row.size).Held ∧ 1 ≤ row.size :=
    fun row hrow => held_of_readRows hdiff row (hsub row hrow)
  have hre : ∀ row ∈ fresh epochs.flatten diff, readerRe row.cid = true := fun row hrow => (hreadable row (hsub row hrow)).1
  refine ⟨?_, ?_, ?_⟩
  · exact List.rel_append h.kotoba (.cons (holds_written hre hheld fun row _ hpython => (by cases hpython)) .nil)
  · exact List.rel_append h.reader
      (.cons (holds_written hre hheld fun row hrow => (hreadable row (hsub row hrow)).2) .nil)
  · rw [List.flatten_append, List.flatten_singleton, List.map_append]
    refine List.nodup_append.mpr ⟨h.distinct, hnew.distinct, fun a ha b hb hab => ?_⟩
    obtain ⟨row, hrow, rfl⟩ := List.mem_map.mp hb
    exact of_decide_eq_true (List.mem_filter.mp hrow).2 (hab ▸ ha)

/-- **The invariant**: what every epoch keeps. -/
theorem Grown.invariant (h : Grown nc language files) : ∃ epochs, Log language files epochs := by
  induction h with
  | @first file rows hkotoba hreader hdistinct =>
    refine ⟨[rows], .cons hkotoba .nil, .cons hreader .nil, ?_⟩
    rwa [List.flatten_singleton]
  | next hlog hdiff hreadable hrun ih =>
    obtain ⟨epochs, h⟩ := ih
    exact ⟨_, h.next hdiff hreadable hrun⟩

theorem Grown.ne_nil (h : Grown nc language files) : files ≠ [] := by
  cases h with
  | first => exact List.cons_ne_nil _ _
  | next => exact List.append_ne_nil_of_right_ne_nil _ (List.cons_ne_nil _ _)

/-- **A log is opened** by a reader of its epochs. -/
theorem Log.opens {specs : List Spec} (h : Log language files epochs) (hne : files ≠ [])
    (hspecs : List.Forall₂ (Declared nc disk) specs files) : ∃ source,
      openSource nc language disk (.epochs specs (hexdigest (nc.sha256 files.flatten)) epochs.flatten.length) = .ok source ∧
      source.Serves language disk epochs := by
  obtain ⟨parts, lake, hindexed, hlake, hopen⟩ := openSource_of_holds hne hspecs h.reader h.distinct
  exact ⟨_, hopen, serves_epochs (composed_of_open hindexed hlake).1⟩

/-- What `resolve!` leaves of the log, and how many rows it counts. -/
theorem Log.resolve_eq {cat : Json → Option Bytes} {seq : Nat} {cid : Json} {ws : List JsString} {r : LakeHead.Resolved}
    (h : Log language files epochs) (hchain : LakeHead.Chain cat seq cid files)
    (hrun : LakeHead.resolve nc cat (.verified seq cid ws) = .ok r) :
    r = ⟨files.flatten, files.length, epochs.flatten.length, hexdigest (nc.sha256 files.flatten)⟩ := by
  obtain ⟨bufs, hbufs, rfl⟩ := LakeHead.resolve_chain hrun
  obtain rfl := hchain.unique hbufs
  have hcounts : files.map LakeHead.countRows = epochs.map List.length := by
    rw [← List.forall₂_eq_eq_eq, List.forall₂_map_left_iff, List.forall₂_map_right_iff]
    exact h.kotoba.imp fun file rows hrows => countRows_of_holds hrows
  rw [hcounts, ← List.length_flatten, hchain.length]

namespace Sample

theorem grows {log : List Row} {diff new : List Row} (hgrown : Grown Lake.Sample.crypto .python files)
    (hlog : ∀ path, readRows path files.flatten = .ok log) (hdistinct : (log.map Row.cid).Nodup)
    (hsub : diff ⊆ [Lake.Sample.one, Lake.Sample.three]) (hheld : ∀ row ∈ diff, row.cid ∈ log.map Row.cid → row ∈ log)
    (hfresh : fresh log diff = new) (hnew : (new.map Row.cid).Nodup) :
    Grown Lake.Sample.crypto .python (files ++ [utf8 (new.flatMap lineOf)]) := by
  have hdiff : readRows [] (utf8 (diff.flatMap lineOf)) = .ok diff := readRows_of_holds (Lake.Sample.holdsRows .kotoba hsub)
  have hrun := (@delta_eq_ok Lake.Sample.crypto log diff [] [] _ _ (write Lake.Sample.crypto new) (hlog []) hdiff hdistinct).mpr
    ⟨⟨hheld, hfresh ▸ ⟨hnew, fun _ _ => List.not_mem_nil⟩⟩, by rw [hfresh]⟩
  have hnext := Grown.next hgrown hdiff (fun row hrow => Lake.Sample.readable .python row (hsub hrow)) hrun
  rwa [file_write] at hnext

/-- A first epoch, a diff with nothing new, and one that has the old row as well. -/
theorem grown : Grown Lake.Sample.crypto .python Lake.Sample.epochFiles := by
  have hone : ∀ language, Holds language (utf8 ([Lake.Sample.one].flatMap lineOf)) [Lake.Sample.one] :=
    fun language => Lake.Sample.holdsRows language (by simp)
  have hfirst : Grown Lake.Sample.crypto .python [utf8 ([Lake.Sample.one].flatMap lineOf)] :=
    .first (hone .kotoba) (hone .python) (by decide)
  have hnone : Holds .kotoba (utf8 (([] : List Row).flatMap lineOf)) [] := Lake.Sample.holdsRows .kotoba (by simp)
  have hlog : List.Forall₂ (Holds .kotoba) [utf8 ([Lake.Sample.one].flatMap lineOf)] [[Lake.Sample.one]] :=
    .cons (hone .kotoba) .nil
  have hlog' : List.Forall₂ (Holds .kotoba) ([utf8 ([Lake.Sample.one].flatMap lineOf)] ++ [utf8 (([] : List Row).flatMap lineOf)])
      [[Lake.Sample.one], []] := .cons (hone .kotoba) (.cons hnone .nil)
  have hsecond := @grows _ _ [Lake.Sample.one] [] hfirst (fun path => readRows_of_holds (Holds.flatten hlog)) (by decide)
    (by simp) (by decide) (by decide) (by decide)
  exact @grows _ _ [Lake.Sample.one, Lake.Sample.three] [Lake.Sample.three] hsecond
    (fun path => readRows_of_holds (Holds.flatten hlog')) (by decide) (by simp) (by decide) (by decide) (by decide)

end Sample

end LakeEpoch
