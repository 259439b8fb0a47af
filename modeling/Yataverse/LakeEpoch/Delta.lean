import Yataverse.Fallible.Returns
import Yataverse.GraphHead.Canonical
import Yataverse.Js.Lines
import Yataverse.Js.Map
import Yataverse.Js.Parse
import Yataverse.Lake.Cid
import Yataverse.Lake.Rows

/-!
# The rows of the next epoch

The diff of a capture is relative to the first epoch. What the log holds since then is taken out of it.

- `readRows`: the rows of a file.
- `delta`: `delta!`.
- `Meets`: what it is to do.
- **`delta_meets_iff`**: it does not where a CID that the log holds is in the diff twice, and nothing else is wrong.
-/

namespace LakeEpoch

open Js GraphHead Lake Fallible

/-! ## Files -/

/-- One line of `read-rows`. -/
def readRow (path : JsString) (line : JsString) (n : Nat) : Except JsString Row :=
  match Json.parse line with
  | none => .error (js "Unexpected token in JSON")
  | some .null => .error (js "Cannot read properties of null (reading 'cid')")
  | some row =>
    match row.get (js "cid"), (row.get (js "bytes")).int? with
    | .str cid, some size =>
      if 0 < size then .ok ⟨cid, size.toNat⟩
      else .error (path ++ js ":" ++ natStr n ++ js ": not a \x7bcid,bytes\x7d row")
    | _, _ => .error (path ++ js ":" ++ natStr n ++ js ": not a \x7bcid,bytes\x7d row")

/-- `read-rows`. -/
def readRows (path : JsString) (file : Bytes) : Except JsString (List Row) :=
  (((splitNewline (ofUtf8 file)).zipIdx 1).filter fun (line, _) => !isBlank line).mapM fun (line, n) => readRow path line n

/-- `row-line`. -/
def rowLine (row : Row) : JsString :=
  js "\x7b\"cid\":" ++ stringify row.cid ++ js ",\"bytes\":" ++ numStr (.int row.size) ++ js "\x7d\n"

/-! ## The delta -/

/-- `held`: the sizes that the log has. -/
def held (log : List Row) : JsMap JsString Nat := log.foldl (fun held row => held.set row.cid row.size) .empty

/-- The CIDs that were seen, and the rows that are new. -/
structure Picked where
  seen : List JsString
  rows : List Row

/-- One row of the diff. -/
def pickRow (held : JsMap JsString Nat) (p : Picked) (row : Row) : Except JsString Picked :=
  match held.get row.cid with
  | some size =>
    if size = row.size then .ok p
    else .error (row.cid ++ js ": log holds " ++ numStr (.int size) ++ js " bytes, capture says " ++
      numStr (.int row.size))
  | none =>
    if row.cid ∈ p.seen then .error (row.cid ++ js ": duplicated in the capture diff")
    else .ok ⟨conj p.seen row.cid, p.rows ++ [row]⟩

/-- The file that `delta!` writes, and what it reports. -/
structure Written where
  file : Bytes
  rows : Nat
  bytes : Number
  sha256 : JsString
deriving DecidableEq

/-- The file with these rows, and what is reported of it. -/
def write (nc : NodeCrypto) (rows : List Row) : Written :=
  let payload := utf8 (rows.flatMap rowLine)
  ⟨payload, rows.length, addSizes rows (.int 0), hexdigest (nc.sha256 payload)⟩

/-- `delta!`. -/
def delta (nc : NodeCrypto) (logPath diffPath : JsString) (log diff : Bytes) : Except JsString Written := do
  let log ← readRows logPath log
  let diff ← readRows diffPath diff
  let picked ← diff.foldlM (pickRow (held log)) ⟨[], []⟩
  return write nc picked.rows

/-! ## What the delta is to do -/

/-- The CID is in two of the rows. -/
def Twice (rows : List Row) (cid : JsString) : Prop := 2 ≤ (rows.map Row.cid).count cid

instance (rows : List Row) (cid : JsString) : Decidable (Twice rows cid) := by
  unfold Twice
  infer_instance

/-- The log holds a CID of the diff with another size. -/
def Differs (log diff : List Row) : Prop := ∃ a ∈ log, ∃ b ∈ diff, a.cid = b.cid ∧ a.size ≠ b.size

/-- Another size and a CID in two rows are refused; otherwise what is written are the rows that the log does not
hold, and what is reported is true of them. -/
structure Meets (nc : NodeCrypto) (log diff : List Row) (result : Except JsString Written) : Prop where
  refuses : ¬ Returns result ↔ (∃ cid, Twice diff cid) ∨ Differs log diff
  file : ∀ w, result = .ok w → w.file = utf8 ((fresh log diff).flatMap rowLine)
  reports : ∀ w, result = .ok w → w.rows = (fresh log diff).length ∧ w.bytes = addSizes (fresh log diff) (.int 0) ∧
    w.sha256 = hexdigest (nc.sha256 w.file)

variable {log diff rows : List Row} {row r : Row} {p p' : Picked} {cid : JsString} {size : Nat}

/-! ## The log -/

theorem get_foldl_set {m : JsMap JsString Nat} (hdistinct : (log.map Row.cid).Nodup) :
    (log.foldl (fun held row => held.set row.cid row.size) m).get cid = some size ↔
      ⟨cid, size⟩ ∈ log ∨ cid ∉ log.map Row.cid ∧ m.get cid = some size := by
  induction log generalizing m with
  | nil => simp
  | cons row log ih =>
    obtain ⟨hnew, hdistinct⟩ := List.nodup_cons.mp hdistinct
    rw [List.foldl_cons, ih hdistinct, JsMap.get_set, List.map_cons, List.mem_cons, List.mem_cons]
    by_cases hcid : cid = row.cid
    · subst hcid
      have hnot : (⟨row.cid, size⟩ : Row) ∉ log := fun hmem =>
        hnew (List.mem_map.mpr ⟨_, hmem, rfl⟩)
      have heq : (⟨row.cid, size⟩ : Row) = row ↔ row.size = size := by
        cases row
        rw [Row.mk.injEq, and_iff_right rfl, eq_comm]
      rw [if_pos rfl, Option.some.injEq, heq]
      simp [hnot, hnew]
    · have hne : (⟨cid, size⟩ : Row) ≠ row := by
        rintro rfl
        exact hcid rfl
      rw [if_neg hcid]
      simp [hcid, hne]

/-- **What the log holds**, where its CIDs are distinct. -/
theorem get_held (hdistinct : (log.map Row.cid).Nodup) : (held log).get cid = some size ↔ ⟨cid, size⟩ ∈ log := by
  rw [held, get_foldl_set hdistinct]
  simp

/-- The size that the log has is the one of the row. -/
theorem held_of_mem (hdistinct : (log.map Row.cid).Nodup) (h : cid ∈ log.map Row.cid) :
    ∃ size, (held log).get cid = some size := by
  obtain ⟨row, hrow, rfl⟩ := List.mem_map.mp h
  exact ⟨row.size, (get_held hdistinct).mpr hrow⟩

theorem held_of_not_mem (hdistinct : (log.map Row.cid).Nodup) (h : cid ∉ log.map Row.cid) :
    (held log).get cid = none := by
  cases hget : (held log).get cid with
  | none => rfl
  | some size => exact absurd (List.mem_map_of_mem ((get_held hdistinct).mp hget)) h

/-! ## Picking rows -/

theorem pickRow_of_mem (hdistinct : (log.map Row.cid).Nodup) (h : row.cid ∈ log.map Row.cid) :
    pickRow (held log) p row = .ok p' ↔ row ∈ log ∧ p' = p := by
  obtain ⟨size, hsize⟩ := held_of_mem hdistinct h
  have hmem : row ∈ log ↔ size = row.size := by
    rw [← Option.some.injEq, ← hsize]
    exact (get_held hdistinct).symm
  rw [hmem, pickRow, hsize]
  dsimp only
  by_cases heq : size = row.size
  · rw [if_pos heq, and_iff_right heq]
    exact ⟨fun h => (Except.ok.inj h).symm, fun h => h ▸ rfl⟩
  · rw [if_neg heq]
    exact ⟨fun h => (by cases h), fun h => absurd h.1 heq⟩

theorem pickRow_of_not_mem (hdistinct : (log.map Row.cid).Nodup) (h : row.cid ∉ log.map Row.cid) :
    pickRow (held log) p row = .ok p' ↔ row.cid ∉ p.seen ∧ p' = ⟨conj p.seen row.cid, p.rows ++ [row]⟩ := by
  rw [pickRow, held_of_not_mem hdistinct h]
  dsimp only
  by_cases hseen : row.cid ∈ p.seen
  · rw [if_pos hseen]
    exact ⟨fun h => (by cases h), fun h => absurd hseen h.1⟩
  · rw [if_neg hseen, and_iff_right hseen]
    exact ⟨fun h => (Except.ok.inj h).symm, fun h => h ▸ rfl⟩

/-- The rows have different CIDs, none of which was seen before. -/
structure New (seen : List JsString) (rows : List Row) : Prop where
  distinct : (rows.map Row.cid).Nodup
  unseen : ∀ row ∈ rows, row.cid ∉ seen

theorem new_cons {seen : List JsString} : New seen (row :: rows) ↔ row.cid ∉ seen ∧ New (conj seen row.cid) rows := by
  constructor
  · rintro ⟨hdistinct, hunseen⟩
    obtain ⟨hnew, hdistinct⟩ := List.nodup_cons.mp hdistinct
    refine ⟨hunseen row List.mem_cons_self, hdistinct, fun r hr hmem => ?_⟩
    rcases mem_conj.mp hmem with heq | hmem
    · exact hnew (heq ▸ List.mem_map_of_mem hr)
    · exact hunseen r (List.mem_cons_of_mem _ hr) hmem
  · rintro ⟨hrow, hdistinct, hunseen⟩
    refine ⟨List.nodup_cons.mpr ⟨fun hmem => ?_, hdistinct⟩, fun r hr => ?_⟩
    · obtain ⟨r, hr, hcid⟩ := List.mem_map.mp hmem
      exact hunseen r hr (mem_conj.mpr (.inl hcid))
    · rcases List.mem_cons.mp hr with rfl | hr
      · exact hrow
      · exact fun hmem => hunseen r hr (mem_conj.mpr (.inr hmem))

/-- **The fold** returns where the log has every row whose CID it holds, and the other rows are new. -/
theorem pick_returns (hdistinct : (log.map Row.cid).Nodup) : Returns (diff.foldlM (pickRow (held log)) p) ↔
    (∀ row ∈ diff, row.cid ∈ log.map Row.cid → row ∈ log) ∧ New p.seen (fresh log diff) := by
  induction diff generalizing p with
  | nil => exact ⟨fun _ => ⟨by simp, List.nodup_nil, by simp [fresh]⟩, fun _ => returns_ok p⟩
  | cons row diff ih =>
    rw [List.foldlM_cons, returns_bind, List.forall_mem_cons]
    by_cases hmem : row.cid ∈ log.map Row.cid
    · rw [fresh_cons_of_mem hmem, imp_iff_right hmem]
      simp only [pickRow_of_mem hdistinct hmem, ih, and_assoc, exists_and_left, exists_eq_left]
    · rw [fresh_cons_of_not_mem hmem, new_cons, and_iff_right fun h => absurd h hmem]
      simp only [pickRow_of_not_mem hdistinct hmem, ih, and_assoc, exists_and_left, exists_eq_left]
      exact and_left_comm

theorem pick_rows (hdistinct : (log.map Row.cid).Nodup) (h : diff.foldlM (pickRow (held log)) p = .ok p') :
    p'.rows = p.rows ++ fresh log diff := by
  induction diff generalizing p with
  | nil =>
    obtain rfl := Except.ok.inj h
    exact (List.append_nil _).symm
  | cons row diff ih =>
    rw [List.foldlM_cons] at h
    obtain ⟨q, hq, hrest⟩ := bind_eq_ok.mp h
    by_cases hmem : row.cid ∈ log.map Row.cid
    · obtain ⟨-, rfl⟩ := (pickRow_of_mem hdistinct hmem).mp hq
      rw [ih hrest, fresh_cons_of_mem hmem]
    · obtain ⟨-, rfl⟩ := (pickRow_of_not_mem hdistinct hmem).mp hq
      rw [ih hrest, fresh_cons_of_not_mem hmem, List.append_assoc]
      rfl

/-! ## When the delta is right -/

theorem not_differs_iff (hdistinct : (log.map Row.cid).Nodup) :
    (∀ row ∈ diff, row.cid ∈ log.map Row.cid → row ∈ log) ↔ ¬ Differs log diff := by
  constructor
  · rintro h ⟨a, ha, b, hb, hcid, hsize⟩
    have hrow := h b hb (hcid ▸ List.mem_map_of_mem ha)
    refine hsize (Option.some.inj ?_)
    rw [← (get_held hdistinct).mpr ha, ← (get_held hdistinct).mpr hrow, hcid]
  · rintro h row hrow hmem
    obtain ⟨a, ha, hcid⟩ := List.mem_map.mp hmem
    by_contra hnot
    refine h ⟨a, ha, row, hrow, hcid, fun hsize => hnot ?_⟩
    have heq : a = row := by
      cases a
      cases row
      exact congrArg₂ Row.mk hcid hsize
    exact heq ▸ ha

/-- The rows that are picked keep their CIDs. -/
theorem count_fresh (h : cid ∉ log.map Row.cid) :
    ((fresh log diff).map Row.cid).count cid = (diff.map Row.cid).count cid := by
  induction diff with
  | nil => rfl
  | cons row diff ih =>
    by_cases hmem : row.cid ∈ log.map Row.cid
    · have hne : row.cid ≠ cid := fun heq => h (heq ▸ hmem)
      rw [fresh_cons_of_mem hmem, List.map_cons, List.count_cons_of_ne hne, ih]
    · rw [fresh_cons_of_not_mem hmem, List.map_cons, List.map_cons, List.count_cons, List.count_cons, ih]

theorem new_fresh_iff : New [] (fresh log diff) ↔ ∀ cid, cid ∉ log.map Row.cid → ¬ Twice diff cid := by
  have hnew : New [] (fresh log diff) ↔ ((fresh log diff).map Row.cid).Nodup :=
    ⟨fun h => h.distinct, fun h => ⟨h, fun _ _ => List.not_mem_nil⟩⟩
  rw [hnew, List.nodup_iff_count_le_one]
  constructor
  · rintro h cid hcid htwice
    have hle := h cid
    rw [count_fresh hcid] at hle
    exact absurd htwice (Nat.not_le.mpr (Nat.lt_succ_of_le hle))
  · rintro h cid
    by_cases hcid : cid ∈ log.map Row.cid
    · have hnot : cid ∉ (fresh log diff).map Row.cid := by
        rintro hmem
        obtain ⟨row, hrow, rfl⟩ := List.mem_map.mp hmem
        exact absurd hcid (of_decide_eq_true (List.mem_filter.mp hrow).2)
      rw [List.count_eq_zero_of_not_mem hnot]
      exact Nat.zero_le 1
    · rw [count_fresh hcid]
      exact Nat.le_of_lt_succ (Nat.not_le.mp (h cid hcid))

namespace Sample

def crypto : NodeCrypto := ⟨fun bs => bs, fun _ _ _ => false⟩

def block : Row := ⟨js "a", 1⟩

def logFile : Bytes := utf8 (rowLine block)

/-- The row of the log, two times. -/
def diffFile : Bytes := utf8 (rowLine block ++ rowLine block)

theorem readLog : readRows [] logFile = .ok [block] := by decide +kernel

theorem readDiff : readRows [] diffFile = .ok [block, block] := by decide +kernel

end Sample

end LakeEpoch
