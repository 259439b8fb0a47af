import Yataverse.Js.Encoding
import Yataverse.Lake.Opened

/-!
# One line in two languages

- `rowIn_eq_some`: what makes a row.
- `kotobaRow_trim`: a line without its newline is the same row.
- `loadsRow`: a line of bytes in Python.
- **`same_row`**: a line that both readers take names one CID, and a size that Node holds as the nearest double.
-/

namespace Lake

open Js Json

variable {v w : Json} {row a b : Row} {line : Bytes} {s : JsString}

/-! ## Rows -/

theorem rowIn_eq_some : rowIn v = some row ↔ v.get (js "cid") = .str row.cid ∧
    v.get (js "bytes") = .num (.int row.size) ∧ readerRe row.cid = true ∧ 0 < row.size := by
  unfold rowIn
  constructor
  · intro h
    split at h
    · rename_i cid size hcid hbytes
      split_ifs at h with hok
      obtain rfl := Option.some.inj h
      dsimp only
      have hsize : (size.toNat : Int) = size := Int.toNat_of_nonneg hok.2.le
      rw [hsize]
      exact ⟨hcid, hbytes, hok.1, by omega⟩
    · cases h
  · rintro ⟨hcid, hbytes, hre, hpos⟩
    rw [hcid, hbytes]
    dsimp only
    rw [if_pos ⟨hre, by exact_mod_cast hpos⟩, Int.toNat_natCast]

theorem ascii_of_readerRe {cid : JsString} (h : readerRe cid = true) : Ascii cid := by
  simp only [readerRe, Bool.and_eq_true] at h
  intro u hu
  obtain ⟨-, -, -, hhigh⟩ := isAlnum_range (List.all_eq_true.mp h.1.1 u hu)
  have hhigh : u.toNat ≤ 0x7e := hhigh
  rw [UInt16.lt_iff_toNat_lt]
  exact Nat.lt_of_le_of_lt hhigh (by decide)

/-- The CID of a row is the same in a value that was read from a similar text. -/
theorem cid_of_akin {R : Number → Number → Prop} (h : Akin R v w) (hv : rowIn v = some row) :
    w.get (js "cid") = .str row.cid ∧ ∃ y, w.get (js "bytes") = .num y ∧ R (.int row.size) y := by
  obtain ⟨hcid, hbytes, hre, -⟩ := rowIn_eq_some.mp hv
  have hcid' : Akin R (v.get (js "cid")) (w.get (js "cid")) := h.get (by decide)
  have hbytes' : Akin R (v.get (js "bytes")) (w.get (js "bytes")) := h.get (by decide)
  rw [hcid] at hcid'
  rw [hbytes] at hbytes'
  generalize w.get (js "cid") = x at hcid' ⊢
  generalize w.get (js "bytes") = y at hbytes' ⊢
  cases hcid' with
  | str hsimilar =>
    cases hbytes' with
    | num hnum =>
      rw [hsimilar.eq_of_ascii (.inl (ascii_of_readerRe hre))]
      exact ⟨rfl, _, rfl, hnum⟩

/-- A row is an entry of an object. -/
theorem obj_of_rowIn (h : rowIn v = some row) : ∃ e kvs, v = .obj (e :: kvs) := by
  obtain ⟨hcid, -⟩ := rowIn_eq_some.mp h
  cases v with
  | obj kvs =>
    cases kvs with
    | nil => cases hcid
    | cons e kvs => exact ⟨e, kvs, rfl⟩
  | null | bool b | num x | str s | arr xs => cases hcid

/-! ## Newlines -/

theorem readBytes_append_newline {st : Option Partial} (hst : Midway st) :
    readBytes st (line ++ [10]) = readBytes st line ++ [10] := by
  induction line generalizing st with
  | nil =>
    have hnewline : readByte st (10 : UInt8).toNat = (none, readBytes st [] ++ [10]) := readByte_newline hst
    rw [List.nil_append, readBytes_cons, hnewline]
    exact List.append_nil _
  | cons b line ih =>
    rw [List.cons_append, readBytes_cons, readBytes_cons, ih (readByte_spec hst b.toNat_lt).1, List.append_assoc]

theorem similar_append (hs : Blank s) (t : JsString) : Similar Blank (t ++ s) t := by
  induction t with
  | nil => exact .stop hs
  | cons u t ih => exact .same u ih

/-- What a value without its newline is, Kotoba's row is too. -/
theorem kotobaRow_trim (h : kotobaRow (line ++ [10]) = some row) : kotobaRow line = some row := by
  obtain ⟨v, hv, hrow⟩ := Option.bind_eq_some_iff.mp h
  have hnewline : Blank [10] := fun u hu => by
    obtain rfl := List.mem_singleton.mp hu
    decide
  rw [ofUtf8, readBytes_append_newline midway_none] at hv
  obtain ⟨w, hw, hakin⟩ := parse_similar (similar_append hnewline _) hv
  obtain ⟨hcid, y, hbytes, hy⟩ := cid_of_akin hakin hrow
  obtain ⟨-, -, hre, hpos⟩ := rowIn_eq_some.mp hrow
  rw [kotobaRow, ofUtf8, hw]
  exact rowIn_eq_some.mpr ⟨hcid, hbytes.trans (hy ▸ rfl), hre, hpos⟩

/-! ## Two languages -/

/-- A line in `serve_lake.py`, in any encoding that `json.loads` detects. -/
def loadsRow (line : Bytes) : Option Row := ((jsonText line).bind loads).bind rowIn

/-- **One line in two languages.** -/
theorem same_row (ha : kotobaRow line = some a) (hb : loadsRow line = some b) :
    a.cid = b.cid ∧ Number.int a.size = Number.ofInt b.size := by
  obtain ⟨v, hv, hrow⟩ := Option.bind_eq_some_iff.mp ha
  obtain ⟨w', hw', hrow'⟩ := Option.bind_eq_some_iff.mp hb
  obtain ⟨t, ht, hloads⟩ := Option.bind_eq_some_iff.mp hw'
  obtain ⟨e, kvs, rfl⟩ := obj_of_rowIn hrow
  obtain ⟨w, hw, hakin⟩ := jsonText_of_parse hv ht
  obtain rfl := Option.some.inj (hw.symm.trans hloads)
  obtain ⟨hcid, y, hbytes, hy⟩ := cid_of_akin hakin hrow
  obtain ⟨hcid', hbytes', -⟩ := rowIn_eq_some.mp hrow'
  refine ⟨Json.str.inj (hcid.symm.trans hcid'), hy _ ?_⟩
  exact Json.num.inj (hbytes.symm.trans hbytes')

/-- A size that a double counts exactly is the same size. -/
theorem same_row_exact (ha : kotobaRow line = some a) (hb : loadsRow line = some b) (hsize : b.size ≤ 2 ^ 53) : a = b := by
  obtain ⟨hcid, hnumber⟩ := same_row ha hb
  rw [Number.ofInt_exact (by rwa [Int.natAbs_natCast])] at hnumber
  have hsize : a.size = b.size := by exact_mod_cast Number.int.inj hnumber
  cases a
  cases b
  simp_all

end Lake
