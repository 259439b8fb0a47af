import Yataverse.CarExport.Budget
import Yataverse.Carv2.Validate
import Yataverse.GraphHead.Identity

/-!
# What the exporter writes, the packer accepts

The packer reads the CAR of a range back with one index row for every row of the inventory,
unless a CID of the range spells its version with more than one byte.

- `longVersion`: how such a CID reads as text. `first_byte` is what it says of the bytes.
- `frames_entries`, `frames_refused`: the frames of a range.
- `copyCarv1Payload_entries`: the CAR of a range.
- **`accepted_iff`**: when the packer accepts what the exporter writes.
-/

namespace CarExport

open Js GraphHead Copying Copying.Tee Lake Fallible

section Packing

variable {sha256 : Bytes → Bytes} {host : Host} {a : Args} {es : List Entry} {done : Bytes}

/-! ## CIDs with a long version -/

/-- The version is spelled with more than one byte, in base32. -/
def longVersion (cid : JsString) : Bool := cid.take 2 == js "bq"

/-- The low bits of a number are those of its first byte. -/
theorem readVarint_low {t o : String} {n value shift x : Nat} {data rest : Bytes}
    (h : Lake.readVarint t o n value shift data = .ok (x, rest)) (hvalue : value < 2 ^ shift) :
    x % 2 ^ shift = value := by
  induction n generalizing value shift data with
  | zero => cases h
  | succ n ih =>
    cases data with
    | nil => cases h
    | cons b data =>
      have hmod : (value ||| (b.toNat &&& 0x7f) <<< shift) % 2 ^ shift = value := by
        rw [Nat.or_mod_two_pow, Nat.mod_eq_of_lt hvalue, Nat.shiftLeft_eq, Nat.mul_mod_left, Nat.or_zero]
      unfold Lake.readVarint at h
      dsimp only at h
      split at h
      · obtain ⟨rfl, -⟩ := Prod.mk.inj (Except.ok.inj h)
        exact hmod
      · have hlt : value ||| (b.toNat &&& 0x7f) <<< shift < 2 ^ (shift + 7) := by
          refine Nat.or_lt_two_pow ?_ ?_
          · exact Nat.lt_of_lt_of_le hvalue (Nat.pow_le_pow_right (by decide) (Nat.le_add_right shift 7))
          · rw [and_low, Nat.shiftLeft_eq, Nat.pow_add, Nat.mul_comm]
            exact Nat.mul_lt_mul_of_pos_left (Nat.mod_lt _ (by decide)) (Nat.two_pow_pos shift)
        have := ih h hlt
        rw [← hmod, ← this, Nat.mod_mod_of_dvd _ (Nat.pow_dvd_pow 2 (Nat.le_add_right shift 7))]

/-- A number of a CID whose first byte goes on. -/
theorem readVarint_more {b : UInt8} {data rest : Bytes} {x : Nat} (h : readVarint (b :: data) = .ok (x, rest))
    (hb : ¬ b < 0x80) : x % 128 = b.toNat % 128 := by
  unfold readVarint Lake.readVarint at h
  dsimp only at h
  rw [if_neg hb, Nat.zero_or, Nat.shiftLeft_zero, and_low] at h
  exact readVarint_low h (Nat.mod_lt _ (by decide))

/-- A number of a CID that is one byte. -/
theorem readVarint_last {b : UInt8} {data rest : Bytes} {x : Nat} (h : readVarint (b :: data) = .ok (x, rest))
    (hb : b < 0x80) : x = b.toNat ∧ data = rest := by
  unfold readVarint Lake.readVarint at h
  dsimp only at h
  rw [if_pos hb, Nat.zero_or, Nat.shiftLeft_zero, and_low] at h
  obtain ⟨rfl, rfl⟩ := Prod.mk.inj (Except.ok.inj h)
  rw [UInt8.lt_iff_toNat_lt] at hb
  exact ⟨Nat.mod_eq_of_lt hb, rfl⟩

/-! ### The first digit -/

/-- Eight bits that make 129. -/
theorem ofBits_eq_129 (b₀ b₁ b₂ b₃ b₄ b₅ b₆ b₇ : Bool)
    (h : ofBits [b₀, b₁, b₂, b₃, b₄, b₅, b₆, b₇] = 129) :
    [b₀, b₁, b₂, b₃, b₄] = [true, false, false, false, false] := by
  revert b₀ b₁ b₂ b₃ b₄ b₅ b₆ b₇
  decide

theorem le_ofBits (b₁ b₂ b₃ b₄ b₅ b₆ b₇ : Bool) : 128 ≤ ofBits [true, b₁, b₂, b₃, b₄, b₅, b₆, b₇] := by
  revert b₁ b₂ b₃ b₄ b₅ b₆ b₇
  decide

theorem ofBits_lt (b₀ b₁ b₂ b₃ b₄ b₅ b₆ b₇ : Bool) : ofBits [b₀, b₁, b₂, b₃, b₄, b₅, b₆, b₇] < 256 := by
  revert b₀ b₁ b₂ b₃ b₄ b₅ b₆ b₇
  decide

/-- The first byte of a base32 text: five bits of the first digit, and three of the second. -/
theorem b32Decode_cons (u w : UInt16) (s : JsString) :
    ∃ b₀ b₁ b₂ b₃ b₄ b₅ b₆ b₇ b rest, fiveBits u = [b₀, b₁, b₂, b₃, b₄] ∧
      b32Decode (u :: w :: s) = b :: rest ∧ b.toNat = ofBits [b₀, b₁, b₂, b₃, b₄, b₅, b₆, b₇] := by
  obtain ⟨b₀, b₁, b₂, b₃, b₄, hu⟩ : ∃ b₀ b₁ b₂ b₃ b₄, fiveBits u = [b₀, b₁, b₂, b₃, b₄] :=
    ⟨_, _, _, _, _, rfl⟩
  obtain ⟨b₅, b₆, b₇, b₈, b₉, hw⟩ : ∃ b₅ b₆ b₇ b₈ b₉, fiveBits w = [b₅, b₆, b₇, b₈, b₉] :=
    ⟨_, _, _, _, _, rfl⟩
  refine ⟨b₀, b₁, b₂, b₃, b₄, b₅, b₆, b₇, byte (ofBits [b₀, b₁, b₂, b₃, b₄, b₅, b₆, b₇]),
    octets (b₈ :: b₉ :: s.flatMap fiveBits), hu, ?_, ?_⟩
  · rw [b32Decode, List.flatMap_cons, List.flatMap_cons, hu, hw]
    rfl
  · rw [byte, UInt8.toNat_ofNat']
    exact Nat.mod_eq_of_lt (ofBits_lt ..)

theorem eq_q {u : UInt16} (h : isB32 u = true) (hbits : fiveBits u = [true, false, false, false, false]) :
    u = unit 'q' := by
  have hall : ∀ n < 123, isB32 (UInt16.ofNat n) = true →
      fiveBits (UInt16.ofNat n) = [true, false, false, false, false] → UInt16.ofNat n = unit 'q' := by
    decide +kernel
  have hu : UInt16.ofNat u.toNat = u := UInt16.ofNat_toNat
  have := hall u.toNat (by have := (isB32_range h).2; omega)
  rw [hu] at this
  exact this h hbits

/-- **The first byte** of a CID that the exporter accepts: the version, or more of it is
to come. -/
theorem first_byte {cid : JsString} {data digest : Bytes} (h : cidBytes cid = .ok (data, digest)) :
    ∃ b rest, data = b :: rest ∧ (longVersion cid = true → ¬ b < 0x80) ∧
      (longVersion cid = false → b = 1 ∧ Parsed rest digest) := by
  obtain ⟨hre, hdec, behind, hversion, hparsed⟩ := cidBytes_eq_ok h
  unfold decoded at hdec
  split at hdec
  · -- the exporter writes the version of an old CID itself
    rename_i hqm
    obtain rfl := Except.ok.inj hdec
    have hlong : longVersion cid = false := by
      rw [longVersion, hqm]
      decide
    obtain ⟨-, rfl⟩ := Prod.mk.inj (Except.ok.inj hversion)
    refine ⟨_, _, rfl, fun hl => ?_, fun _ => ⟨rfl, hparsed⟩⟩
    rw [hlong] at hl
    cases hl
  · rename_i hqm
    have hv1 : cidV1 cid = true := by
      obtain hv0 | hv1 := Bool.or_eq_true_iff.mp hre
      · simp only [cidV0, Bool.and_eq_true, beq_iff_eq] at hv0
        exact absurd hv0.1.1 hqm
      · exact hv1
    simp only [cidV1, Bool.and_eq_true, beq_iff_eq, decide_eq_true_eq] at hv1
    obtain ⟨⟨⟨hhead, hlen⟩, -⟩, hall⟩ := hv1
    obtain ⟨u, w, s, rfl⟩ : ∃ u w s, cid = unit 'b' :: u :: w :: s := by
      cases cid with
      | nil => cases hhead
      | cons c cid =>
        obtain rfl := Option.some.inj hhead
        cases cid with
        | nil => exact absurd hlen (by simp)
        | cons u cid =>
          cases cid with
          | nil => exact absurd hlen (by simp)
          | cons w s => exact ⟨u, w, s, rfl⟩
    rw [List.drop_one, List.tail_cons] at hdec hall
    have hu : isB32 u = true := List.all_eq_true.mp hall u (.head _)
    obtain ⟨b₀, b₁, b₂, b₃, b₄, b₅, b₆, b₇, b, rest, hbits, hbytes, hb⟩ := b32Decode_cons u w s
    have hdata : data = b :: rest := by
      unfold pyB32Decode at hdec
      split at hdec
      · rename_i hsome
        split at hsome
        · cases hsome
        · obtain rfl := Option.some.inj hsome
          rw [← Except.ok.inj hdec, hbytes]
      · cases hdec
    subst hdata
    refine ⟨b, rest, rfl, fun hl => ?_, fun hl => ?_⟩
    · -- `q` begins with a one
      have huq : u = unit 'q' := by
        have htake : [unit 'b', u] = js "bq" := by simpa [longVersion] using hl
        exact (List.cons.inj (List.cons.inj htake).2).1
      rw [huq] at hbits
      obtain ⟨rfl, -⟩ := List.cons.inj (show [true, false, false, false, false] = _ from hbits)
      rw [UInt8.lt_iff_toNat_lt, hb]
      exact Nat.not_lt.mpr (le_ofBits ..)
    · by_cases hlt : b < 0x80
      · obtain ⟨hone, rfl⟩ := readVarint_last hversion hlt
        exact ⟨UInt8.toNat_inj.mp hone.symm, hparsed⟩
      · -- more is to come, so the byte is 129 and the digit is `q`
        have hmod := readVarint_more hversion hlt
        rw [UInt8.lt_iff_toNat_lt] at hlt
        have h80 : (0x80 : UInt8).toNat = 128 := rfl
        have hlt256 := b.toNat_lt
        have h129 : ofBits [b₀, b₁, b₂, b₃, b₄, b₅, b₆, b₇] = 129 := by omega
        obtain rfl := eq_q hu (hbits.trans (ofBits_eq_129 _ _ _ _ _ _ _ _ h129))
        have hq : longVersion (unit 'b' :: unit 'q' :: w :: s) = true := by
          show ([unit 'b', unit 'q'] == js "bq") = true
          decide
        rw [hq] at hl
        cases hl

/-! ## The frames of a range -/

variable {total n : Nat} {index : List Carv2.Row}

/-- An index row carries the digest of its entry. -/
def Indexes (e : Entry) (row : Carv2.Row) : Prop := row.digest = e.digest ∧ row.code = Carv2.sha2_256

theorem frame_pos {e : Entry} {b : UInt8} {rest : Bytes} (h : e.data = b :: rest) :
    0 < (frameOf e.data e.block).length := by
  rw [frameOf, List.length_append, List.length_append, h, List.length_cons]
  omega

/-- The frames of a range, where every version is one byte. -/
theorem frames_entries (hgood : ∀ e ∈ es, e.Good sha256 host) (hshort : ∀ e ∈ es, longVersion e.cid = false)
    (hn : es.length ≤ n) (htotal : done.length + (body es).length = total) :
    ∃ rows, Carv2.frames sha256 total n index ⟨body es, done⟩ = .ok (index ++ rows, ⟨[], done ++ body es⟩) ∧
      List.Forall₂ Indexes es rows := by
  induction es generalizing done index n with
  | nil =>
    refine ⟨[], ?_, .nil⟩
    have hend : ¬ done.length < total := by
      rw [← htotal]
      exact Nat.lt_irrefl _
    unfold Carv2.frames
    refine run_bind_eq_ok.mpr ⟨done.length, ⟨[], done⟩, rfl, ?_⟩
    rw [if_neg hend, List.append_nil, body, List.flatMap_nil, List.append_nil]
    rfl
  | cons e es ih =>
    have hge := hgood e (.head es)
    obtain ⟨b, rest, hdata, -, hone⟩ := first_byte hge.parsed
    obtain ⟨rfl, hparsed⟩ := hone (hshort e (.head es))
    have hpos := frame_pos hdata
    rw [body_cons, List.length_append] at htotal
    have hread : Reads (Carv2.frame sha256 total) done (frameOf e.data e.block) _ :=
      frame_reads hparsed hdata hge.hash hge.fits (by omega)
    cases n with
    | zero => cases hn
    | succ n =>
      obtain ⟨rows, hrows, hall⟩ : ∃ rows, Carv2.frames sha256 total n
          (index ++ [⟨0x12, e.digest, done.length⟩]) ⟨body es, done ++ frameOf e.data e.block⟩ =
            .ok (index ++ [⟨0x12, e.digest, done.length⟩] ++ rows,
              ⟨[], done ++ frameOf e.data e.block ++ body es⟩) ∧ List.Forall₂ Indexes es rows :=
        ih (fun e' he' => hgood e' (.tail e he')) (fun e' he' => hshort e' (.tail e he'))
          (Nat.le_of_succ_le_succ hn) (by rw [List.length_append]; omega)
      refine ⟨⟨0x12, e.digest, done.length⟩ :: rows, ?_, .cons ⟨rfl, rfl⟩ hall⟩
      unfold Carv2.frames
      refine run_bind_eq_ok.mpr ⟨done.length, ⟨body (e :: es), done⟩, rfl, ?_⟩
      rw [if_pos (by omega), body_cons]
      refine run_bind_eq_ok.mpr ⟨_, _, hread (body es), ?_⟩
      rw [← List.append_assoc, List.append_cons index _ rows]
      exact hrows

/-- The frames of a range, where a version is longer: they are refused. -/
theorem frames_refused {r : List Carv2.Row × Tape UInt8} (hgood : ∀ e ∈ es, e.Good sha256 host)
    (hlong : ∃ e ∈ es, longVersion e.cid = true) (htotal : done.length + (body es).length = total) :
    Carv2.frames sha256 total n index ⟨body es, done⟩ ≠ .ok r := by
  induction es generalizing done index n with
  | nil =>
    obtain ⟨e, he, -⟩ := hlong
    cases he
  | cons e es ih =>
    have hge := hgood e (.head es)
    obtain ⟨b, rest, hdata, hmore, hone⟩ := first_byte hge.parsed
    have hpos := frame_pos hdata
    rw [body_cons, List.length_append] at htotal
    intro h
    unfold Carv2.frames at h
    obtain ⟨_, s₀, hcount, h⟩ := run_bind_eq_ok.mp h
    obtain ⟨rfl, rfl⟩ := Prod.mk.inj (Except.ok.inj hcount)
    rw [if_pos (show done.length < total by omega), body_cons] at h
    obtain ⟨row, s₁, hframe, h⟩ := run_bind_eq_ok.mp h
    cases hl : longVersion e.cid with
    | true => exact frame_long hdata (hmore hl) hge.fits (by omega) hframe
    | false =>
      obtain ⟨rfl, hparsed⟩ := hone hl
      have hread : Reads (Carv2.frame sha256 total) done (frameOf e.data e.block) _ :=
        frame_reads hparsed hdata hge.hash hge.fits (by omega)
      obtain ⟨rfl, rfl⟩ := Prod.mk.inj (Except.ok.inj ((hread (body es)).symm.trans hframe))
      cases n with
      | zero => cases h
      | succ n =>
        refine ih (fun e' he' => hgood e' (.tail e he')) ?_ ?_ h
        · obtain ⟨e', he', hl'⟩ := hlong
          obtain rfl | he' := List.mem_cons.mp he'
          · rw [hl] at hl'
            cases hl'
          · exact ⟨e', he', hl'⟩
        · rw [List.length_append]
          omega

/-! ## The CAR of a range -/

section Payload

variable {header destination : Bytes} {m : Nat}

/-- The CAR: a header with its length in front, and the frames. -/
def carOf (header : Bytes) (es : List Entry) : Bytes := varint header.length ++ header ++ body es

/-- The packer skips the header. -/
theorem payload_header {r : List Carv2.Row × Tape UInt8} (hpos : 1 ≤ header.length)
    (hmax : header.length ≤ Carv2.maxHeaderBytes) :
    Carv2.payload sha256 total m ⟨carOf header es, []⟩ = .ok r ↔
      Carv2.frames sha256 total m [] ⟨body es, varint header.length ++ header⟩ = .ok r := by
  have hsize : header.length < 2 ^ 63 := Nat.lt_of_le_of_lt hmax (by decide)
  have hread : Reads (Carv2.readUvarint Carv2.maxHeaderBytes) [] (varint header.length) _ :=
    reads_varint hsize hmax
  have htake : Reads (Carv2.readExact header.length) (varint header.length) header header := reads_take
  obtain ⟨rows, s⟩ := r
  rw [carOf, List.append_assoc]
  constructor
  · intro h
    obtain ⟨_, s₁, h₁, h⟩ := run_bind_eq_ok.mp h
    obtain ⟨rfl, rfl⟩ := Prod.mk.inj (Except.ok.inj ((hread _).symm.trans h₁))
    obtain ⟨_, s₂, h₂, h⟩ := run_bind_eq_ok.mp h
    obtain ⟨-, rfl⟩ := run_require_eq_ok.mp h₂
    obtain ⟨_, s₃, h₃, h⟩ := run_bind_eq_ok.mp h
    obtain ⟨rfl, rfl⟩ := Prod.mk.inj (Except.ok.inj ((htake _).symm.trans h₃))
    exact h
  · intro h
    refine run_bind_eq_ok.mpr ⟨_, _, hread _, ?_⟩
    refine run_bind_eq_ok.mpr ⟨(), _, run_require_eq_ok.mpr ⟨⟨hpos, hmax⟩, rfl⟩, ?_⟩
    exact run_bind_eq_ok.mpr ⟨_, _, htake _, h⟩

theorem copyCarv1Payload_entries (hpos : 1 ≤ header.length) (hmax : header.length ≤ Carv2.maxHeaderBytes)
    (hgood : ∀ e ∈ es, e.Good sha256 host) (hshort : ∀ e ∈ es, longVersion e.cid = false)
    (hne : es ≠ []) (hm : es.length ≤ m) :
    ∃ rows, Carv2.copyCarv1Payload sha256 (carOf header es) destination (carOf header es).length m 0 true =
      .ok (rows, destination ++ carOf header es) ∧ List.Forall₂ Indexes es rows := by
  obtain ⟨rows, hframes, hall⟩ : ∃ rows, Carv2.frames sha256 (carOf header es).length m []
      ⟨body es, varint header.length ++ header⟩ = .ok ([] ++ rows, ⟨[], carOf header es⟩) ∧
        List.Forall₂ Indexes es rows :=
    frames_entries hgood hshort hm List.length_append.symm
  refine ⟨rows, Carv2.copyCarv1Payload_eq_ok.mpr ⟨⟨[], carOf header es⟩, ?_, rfl, fun _ => rfl, ?_, rfl⟩, hall⟩
  · exact (payload_header hpos hmax).mpr hframes
  · rintro rfl
    exact hne (List.forall₂_nil_right_iff.mp hall)

theorem copyCarv1Payload_refused {r : List Carv2.Row × Bytes} (hpos : 1 ≤ header.length)
    (hmax : header.length ≤ Carv2.maxHeaderBytes) (hgood : ∀ e ∈ es, e.Good sha256 host)
    (hlong : ∃ e ∈ es, longVersion e.cid = true) :
    Carv2.copyCarv1Payload sha256 (carOf header es) destination (carOf header es).length m 0 true ≠ .ok r := by
  obtain ⟨rows, out⟩ := r
  intro h
  obtain ⟨tape, hp, -⟩ := Carv2.copyCarv1Payload_eq_ok.mp h
  exact frames_refused hgood hlong List.length_append.symm ((payload_header hpos hmax).mp hp)

end Payload

/-! ## What is written -/

section Written

variable {rows : List (JsString × Nat)}

/-- The error of a CAR that is too large. -/
def overBudget : String := "CAR exceeds byte budget"

/-- The tool comes to write: its arguments are valid, there is no CAR and no receipt yet,
and there is room for one. -/
structure Ready (host : Host) (a : Args) : Prop where
  args : sha256Re a.sha256 = true ∧ 1 ≤ a.count ∧ (1 ≤ a.maxBlocks ∧ a.maxBlocks ≤ 1000) ∧
    (1 ≤ a.maxBytes ∧ a.maxBytes ≤ 536870912)
  kubo : host.kubo = true
  receipt : host.receipt = none
  output : host.output = none
  free : 2 * a.maxBytes + a.minFreeBytes ≤ host.free
  repository : host.repository = true

/-- Every block that is read back has the listed size and hashes to its CID. -/
def ReadBack (sha256 : Bytes → Bytes) (host : Host) (rows : List (JsString × Nat)) : Prop :=
  ∀ row ∈ rows, ∀ data digest, cidBytes row.1 = .ok (data, digest) →
    ∃ block, host.block row.1 row.2 = some block ∧ block.length = row.2 ∧ sha256 block = digest

theorem exportCar_ready (hrows : selectedRows host a = .ok rows) (h : Ready host a) :
    exportCar sha256 host a = writeCar sha256 host a rows := by
  simp only [exportCar, Fallible.require, h.args, h.kubo, h.receipt, h.output, h.free, h.repository, hrows, and_self]
  rfl

/-- A new CAR, or one that is too large, comes only where the tool is ready to write. -/
theorem ready_of_written {car : Bytes} {r : Receipt} (h : exportCar sha256 host a = .ok (.written car r)) :
    Ready host a := by
  simp only [exportCar, bind_eq_ok, require_eq_ok, exists_const] at h
  obtain ⟨hargs, hkubo, rows, -, h⟩ := h
  cases hr : host.receipt with
  | some saved =>
    rw [hr] at h
    obtain ⟨_, -, h⟩ := bind_eq_ok.mp h
    cases h
  | none =>
    rw [hr] at h
    simp only [bind_eq_ok, require_eq_ok, exists_const] at h
    obtain ⟨houtput, hfree, hrepo, -⟩ := h
    exact ⟨hargs, hkubo, hr, houtput, hfree, hrepo⟩

theorem ready_of_overBudget (hrows : selectedRows host a = .ok rows)
    (h : exportCar sha256 host a = .error overBudget) : Ready host a := by
  simp only [exportCar, bind_eq_error, require_eq_error, require_eq_ok, hrows, exists_const] at h
  obtain ⟨-, h⟩ | ⟨hargs, ⟨-, h⟩ | ⟨hkubo, h | ⟨_, h, h'⟩⟩⟩ := h
  · exact absurd h (by decide)
  · exact absurd h (by decide)
  · cases h
  · obtain rfl := Except.ok.inj h
    cases hr : host.receipt with
    | some saved =>
      rw [hr] at h'
      obtain h' | ⟨_, -, h'⟩ := bind_eq_error.mp h'
      · exact absurd (require_eq_error.mp h').2 (by decide)
      · cases h'
    | none =>
      rw [hr] at h'
      simp only [bind_eq_error, require_eq_error, require_eq_ok, exists_const] at h'
      obtain ⟨-, h⟩ | ⟨houtput, ⟨-, h⟩ | ⟨hfree, ⟨-, h⟩ | ⟨hrepo, -⟩⟩⟩ := h'
      · exact absurd h (by decide)
      · exact absurd h (by decide)
      · exact absurd h (by decide)
      · exact ⟨hargs, hkubo, hr, houtput, hfree, hrepo⟩

theorem readVarint_error {data : Bytes} {e : String} (h : readVarint data = .error e) : e ≠ overBudget := by
  have hall : ∀ n value shift data, Lake.readVarint "invalid CID varint" "invalid CID varint" n value shift data =
      .error e → e = "invalid CID varint" := by
    intro n
    induction n with
    | zero => exact fun _ _ _ h => (Except.error.inj h).symm
    | succ n ih =>
      intro value shift data h
      cases data with
      | nil => exact (Except.error.inj h).symm
      | cons b data =>
        unfold Lake.readVarint at h
        dsimp only at h
        split at h
        · cases h
        · exact ih _ _ _ h
  rw [hall _ _ _ _ h]
  decide

/-- A CID that is refused is not over the budget. -/
theorem cidBytes_error {cid : JsString} {e : String} (h : cidBytes cid = .error e) : e ≠ overBudget := by
  simp only [cidBytes, bind_eq_error, require_eq_error, require_eq_ok, exists_const] at h
  obtain ⟨-, rfl⟩ | ⟨-, h | ⟨data, -, h | ⟨v, -, h | ⟨c, -, h | ⟨m, -, h | ⟨l, -, ⟨-, rfl⟩ | ⟨-, h⟩⟩⟩⟩⟩⟩⟩ := h
  · decide
  · unfold decoded at h
    split at h
    · cases h
    · split at h
      · cases h
      · rw [← Except.error.inj h]
        decide
  · exact readVarint_error h
  · exact readVarint_error h
  · exact readVarint_error h
  · exact readVarint_error h
  · decide
  · cases h

/-- The rows of a range, each with what is written for it. -/
theorem exists_entries (hsize : ∀ row ∈ rows, row.2 ≤ 8000000) (hread : ReadBack sha256 host rows)
    (hcids : ∀ row ∈ rows, ∃ b, cidBytes row.1 = .ok b) :
    ∃ es : List Entry, es.map Entry.row = rows ∧ ∀ e ∈ es, e.Good sha256 host := by
  induction rows with
  | nil => exact ⟨[], rfl, fun _ h => by cases h⟩
  | cons row rows ih =>
    obtain ⟨es, hes, hgood⟩ := ih (fun r hr => hsize r (.tail row hr)) (fun r hr => hread r (.tail row hr))
      fun r hr => hcids r (.tail row hr)
    obtain ⟨cid, size⟩ := row
    obtain ⟨⟨data, digest⟩, hcid⟩ := hcids _ (.head rows)
    obtain ⟨block, hblock, rfl, hhash⟩ := hread _ (.head rows) data digest hcid
    refine ⟨⟨cid, data, digest, block⟩ :: es, by rw [List.map_cons, hes]; rfl, fun e he => ?_⟩
    obtain rfl | he := List.mem_cons.mp he
    · exact ⟨hcid, hblock, hhash, hsize _ (.head rows)⟩
    · exact hgood e he

/-- **The budget is kept**: the CAR of a range is written. -/
theorem writeCar_entries (hrange : Range a.maxBlocks a.maxBytes (es.map Entry.row)) (hne : es ≠ [])
    (hblocks : a.maxBlocks ≤ 1000) (hgood : ∀ e ∈ es, e.Good sha256 host) :
    ∃ header, writeCar sha256 host a (es.map Entry.row) =
      .ok (.written (carOf header es) (receiptOf sha256 a (es.map Entry.row).length (carOf header es))) ∧
      1 ≤ header.length ∧ header.length ≤ Carv2.maxHeaderBytes := by
  have hlen : es.length ≤ 1000 := by
    have := hrange.blocks
    rw [List.length_map] at this
    omega
  have hpos := List.length_pos_iff.mpr hne
  have hencoded : (es.map Entry.row).mapM (fun row => cidBytes row.1) =
      .ok (es.map fun e => (e.data, e.digest)) := by
    refine mapM_eq_ok.mpr (List.forall₂_map_left_iff.mpr (List.forall₂_map_right_iff.mpr ?_))
    exact List.forall₂_same.mpr fun e he => (hgood e he).parsed
  obtain ⟨header, hheader, hhpos, hhlen⟩ : ∃ header, carHeader ((es.map fun e => (e.data, e.digest)).map Prod.fst) =
      .ok (varint header.length ++ header) ∧ 1 ≤ header.length ∧ header.length ≤ 80 * es.length + 21 := by
    have hcount : ((es.map fun e => (e.data, e.digest)).map Prod.fst).length = es.length := by simp
    rw [← hcount]
    refine carHeader_ok ?_ (by rwa [hcount])
    · intro cid hcid
      simp only [List.map_map, List.mem_map, Function.comp_apply] at hcid
      obtain ⟨e, he, rfl⟩ := hcid
      exact cidBytes_length (hgood e he).parsed
  -- what is written, against the 1024 bytes for each row
  have hbody := body_length hgood
  have hbytes := hrange.bytes
  rw [List.length_map] at hbytes
  have hvarint : (varint header.length).length ≤ 10 := varint_length (by omega)
  have hfirst : write a.maxBytes [] (varint header.length ++ header) = .ok (varint header.length ++ header) := by
    refine write_ok ?_
    rw [List.length_append, List.length_nil]
    omega
  have hrest : writeRows sha256 host a.maxBytes _ (varint header.length ++ header) = _ :=
    writeRows_entries hgood (by rw [List.length_append]; omega)
  refine ⟨header, ?_, hhpos, Nat.le_trans hhlen (by rw [Carv2.maxHeaderBytes]; omega)⟩
  rw [writeCar, hencoded]
  show (carHeader _ >>= fun h => write a.maxBytes [] h >>= fun out =>
    writeRows sha256 host a.maxBytes _ out >>= fun car => _) = _
  rw [hheader]
  show (write a.maxBytes [] _ >>= fun out => writeRows sha256 host a.maxBytes _ out >>= fun car => _) = _
  rw [hfirst, List.zip_map']
  show (writeRows sha256 host a.maxBytes _ _ >>= fun car => _) = _
  rw [hrest]
  rfl

/-! ## The packer accepts it -/

/-- The packer takes the CAR of a range, with one index row for each of its rows, in order,
that carries the digest of its CID. -/
def Accepts (sha256 : Bytes → Bytes) (rows : List (JsString × Nat)) (car : Bytes) : Prop :=
  ∀ m destination, rows.length ≤ m → ∃ index,
    Carv2.copyCarv1Payload sha256 car destination car.length m 0 true = .ok (index, destination ++ car) ∧
      List.Forall₂ (fun row i => i.code = Carv2.sha2_256 ∧ ∃ data, cidBytes row.1 = .ok (data, i.digest)) rows index

/-- The exporter is never over the budget, and what it writes the packer accepts. -/
def Packs (sha256 : Bytes → Bytes) (host : Host) (a : Args) (rows : List (JsString × Nat)) : Prop :=
  exportCar sha256 host a ≠ .error overBudget ∧
  ∀ car r, exportCar sha256 host a = .ok (.written car r) → Accepts sha256 rows car

/-- The range of a tool that is ready, with CIDs that are all known. -/
theorem exportCar_entries (hrows : selectedRows host a = .ok rows) (hready : Ready host a)
    (hread : ReadBack sha256 host rows) (hcids : ∀ row ∈ rows, ∃ b, cidBytes row.1 = .ok b) :
    ∃ es header r, es.map Entry.row = rows ∧ es ≠ [] ∧ (∀ e ∈ es, e.Good sha256 host) ∧
      exportCar sha256 host a = .ok (.written (carOf header es) r) ∧ 1 ≤ header.length ∧
      header.length ≤ Carv2.maxHeaderBytes := by
  obtain ⟨hrange, hne⟩ := selectedRows_range hrows
  obtain ⟨es, rfl, hgood⟩ := exists_entries hrange.size hread hcids
  have hne : es ≠ [] := by
    rintro rfl
    exact hne rfl
  obtain ⟨header, hwrite, hpos, hmax⟩ := writeCar_entries hrange hne hready.args.2.2.1.2 hgood
  exact ⟨es, header, _, rfl, hne, hgood, (exportCar_ready hrows hready).trans hwrite, hpos, hmax⟩

theorem packs_of_short (hrows : selectedRows host a = .ok rows) (hready : Ready host a)
    (hread : ReadBack sha256 host rows) (hcids : ∀ row ∈ rows, ∃ b, cidBytes row.1 = .ok b)
    (hshort : ∀ row ∈ rows, longVersion row.1 = false) : Packs sha256 host a rows := by
  obtain ⟨es, header, r, rfl, hne, hgood, hexport, hpos, hmax⟩ := exportCar_entries hrows hready hread hcids
  refine ⟨by rw [hexport]; simp, fun car r' hcar m destination hm => ?_⟩
  obtain ⟨rfl, -⟩ := Exported.written.inj (Except.ok.inj (hexport.symm.trans hcar))
  obtain ⟨index, hcopy, hall⟩ : ∃ index, Carv2.copyCarv1Payload sha256 (carOf header es) destination
      (carOf header es).length m 0 true = .ok (index, destination ++ carOf header es) ∧
        List.Forall₂ Indexes es index :=
    copyCarv1Payload_entries hpos hmax hgood (fun e he => hshort _ (List.mem_map_of_mem he)) hne
      (by simpa using hm)
  refine ⟨index, hcopy, List.forall₂_map_left_iff.mpr ?_⟩
  have hboth := (List.forall₂_and_left es index).mpr ⟨hgood, hall⟩
  exact hboth.imp fun e i h => ⟨h.2.2, e.data, by rw [h.2.1]; exact h.1.parsed⟩

/-- A CID that is not known: nothing is written. -/
theorem packs_of_refused (hrows : selectedRows host a = .ok rows) (hready : Ready host a)
    (hrefused : ∃ row ∈ rows, ∃ e, cidBytes row.1 = .error e) : Packs sha256 host a rows := by
  obtain ⟨e, hencoded⟩ : ∃ e, rows.mapM (fun row => cidBytes row.1) = .error e := by
    cases hm : rows.mapM fun row => cidBytes row.1 with
    | error e => exact ⟨e, rfl⟩
    | ok bs =>
      obtain ⟨row, hrow, e, he⟩ := hrefused
      obtain ⟨b, hb⟩ := mapM_ok hm row hrow
      cases he.symm.trans hb
  have hexport : exportCar sha256 host a = .error e := by
    rw [exportCar_ready hrows hready, writeCar, hencoded]
    rfl
  obtain ⟨row, -, hcid⟩ := mapM_eq_error hencoded
  refine ⟨fun hover => ?_, fun car r hcar => ?_⟩
  · exact cidBytes_error hcid (Except.error.inj (hexport.symm.trans hover))
  · cases hexport.symm.trans hcar

theorem not_packs_of_long (hrows : selectedRows host a = .ok rows) (hready : Ready host a)
    (hread : ReadBack sha256 host rows) (hcids : ∀ row ∈ rows, ∃ b, cidBytes row.1 = .ok b)
    (hlong : ∃ row ∈ rows, longVersion row.1 = true) : ¬ Packs sha256 host a rows := by
  obtain ⟨es, header, r, rfl, hne, hgood, hexport, hpos, hmax⟩ := exportCar_entries hrows hready hread hcids
  rintro ⟨-, haccepts⟩
  obtain ⟨index, hcopy, -⟩ := haccepts _ _ hexport _ [] (Nat.le_refl _)
  obtain ⟨_, hmem, hl⟩ := hlong
  obtain ⟨e, he, rfl⟩ := List.mem_map.mp hmem
  exact copyCarv1Payload_refused hpos hmax hgood ⟨e, he, hl⟩ hcopy

/-- **When the packer accepts what the exporter writes**: always, but for a CID that spells
its version with more than one byte. -/
theorem packs_iff (hrows : selectedRows host a = .ok rows) (hread : ReadBack sha256 host rows) :
    Packs sha256 host a rows ↔
      ¬ Ready host a ∨ (∃ row ∈ rows, ∃ e, cidBytes row.1 = .error e) ∨
        ∀ row ∈ rows, longVersion row.1 = false := by
  constructor
  · intro h
    by_contra hnot
    simp only [not_or, not_not, not_exists, not_and, not_forall, Bool.not_eq_false] at hnot
    obtain ⟨hready, hcids, row, hrow, hl⟩ := hnot
    refine not_packs_of_long hrows hready hread (fun row hrow => ?_) ⟨row, hrow, hl⟩ h
    cases hcid : cidBytes row.1 with
    | error e => exact absurd hcid (hcids row hrow e)
    | ok b => exact ⟨b, rfl⟩
  · intro h
    by_cases hready : Ready host a
    · by_cases hrefused : ∃ row ∈ rows, ∃ e, cidBytes row.1 = .error e
      · exact packs_of_refused hrows hready hrefused
      · refine packs_of_short hrows hready hread (fun row hrow => ?_)
          ((h.resolve_left (not_not.mpr hready)).resolve_left hrefused)
        cases hcid : cidBytes row.1 with
        | error e => exact absurd ⟨row, hrow, e, hcid⟩ hrefused
        | ok b => exact ⟨b, rfl⟩
    · exact ⟨fun hover => hready (ready_of_overBudget hrows hover), fun car r hcar =>
        absurd (ready_of_written hcar) hready⟩

end Written

end Packing

namespace Sample

/-- The SHA-256 digest of the letter `a`. -/
def digest : Bytes :=
  [0xca, 0x97, 0x81, 0x12, 0xca, 0x1b, 0xbd, 0xca, 0xfa, 0xc2, 0x31, 0xb3, 0x9a, 0x23, 0xdc, 0x4d,
    0xa7, 0x86, 0xef, 0xf8, 0x14, 0x7c, 0x4e, 0x72, 0xb9, 0x80, 0x77, 0x85, 0xaf, 0xee, 0x48, 0xbb]

/-- The SHA-256 digest of the CAR with `shortCid`. -/
def shortCar : Bytes :=
  [0x85, 0x3d, 0x4b, 0x82, 0x5e, 0x2e, 0xde, 0xa1, 0x61, 0xfc, 0x90, 0x29, 0x51, 0xae, 0x83, 0xba,
    0x59, 0x93, 0x80, 0x53, 0xa7, 0xb0, 0x07, 0x5b, 0x12, 0x8b, 0x9a, 0x4a, 0x2f, 0x46, 0xf0, 0x67]

/-- The SHA-256 digest of the CAR with `longCid`. -/
def longCar : Bytes :=
  [0xc6, 0x26, 0x43, 0xb5, 0xeb, 0xa3, 0x10, 0xec, 0xc2, 0x5c, 0x51, 0x06, 0xf0, 0xcf, 0xfc, 0x2c,
    0x76, 0x86, 0x98, 0xb0, 0x26, 0xbd, 0xb8, 0x13, 0x1a, 0x6a, 0x35, 0x52, 0x02, 0x86, 0xba, 0xa1]

def sha256 (b : Bytes) : Bytes := if b.length = 1 then digest else if b.length = 97 then shortCar else longCar

/-- The raw block of the letter `a`. -/
def shortCid : JsString := js "bafkreigks6arfsq3xxfpvqrrwonchxcnu6do76auprhhfomao6c273sixm"

/-- The same CID, with its version in two bytes. -/
def longCid : JsString := js "bqeafkerazklycewkdo64v6wcggzzui64jwtyn37ycr6e44vzqb3yll7ojc5q"

def args : Args := ⟨js "853d4b825e2edea161fc902951ae83ba59938053a7b0075b128b9a4a2f46f067", 1, 0, 1, 2000, 0⟩

/-- An inventory with one row. -/
def host (cid : JsString) : Host :=
  ⟨true, [some ⟨cid, 1⟩], args.sha256, none, none, 4000, true, fun _ _ => some [0x61]⟩

theorem ready (cid : JsString) : Ready (host cid) args where
  args := by decide
  kubo := rfl
  receipt := rfl
  output := rfl
  free := Nat.le_refl 4000
  repository := rfl

/-- Both CIDs are selected, and have the same digest. -/
theorem cids : (selectedRows (host shortCid) args = .ok [(shortCid, 1)] ∧
      selectedRows (host longCid) args = .ok [(longCid, 1)]) ∧
    (cidBytes shortCid).map Prod.snd = .ok digest ∧ (cidBytes longCid).map Prod.snd = .ok digest := by
  decide +kernel

/-- The block of both CIDs is the letter `a`. -/
theorem readBack {cid : JsString} (h : (cidBytes cid).map Prod.snd = .ok digest) :
    ReadBack sha256 (host cid) [(cid, 1)] := by
  intro row hrow data d hcid
  obtain rfl := List.mem_singleton.mp hrow
  dsimp only at hcid
  rw [hcid] at h
  obtain rfl : d = digest := Except.ok.inj h
  exact ⟨[0x61], rfl, rfl, rfl⟩

end Sample

theorem packs_iff_short : Packs Sample.sha256 (Sample.host Sample.shortCid) Sample.args [(Sample.shortCid, 1)] ↔
    ¬ Ready (Sample.host Sample.shortCid) Sample.args ∨
      (∃ row ∈ [(Sample.shortCid, 1)], ∃ e, cidBytes row.1 = .error e) ∨
        ∀ row ∈ [(Sample.shortCid, 1)], longVersion row.1 = false :=
  packs_iff Sample.cids.1.1 (Sample.readBack Sample.cids.2.1)

/-- **A CID with a long version**: the CAR is written, and the packer refuses it. -/
theorem not_packs : ¬ Packs Sample.sha256 (Sample.host Sample.longCid) Sample.args [(Sample.longCid, 1)] := by
  refine not_packs_of_long Sample.cids.1.2 (Sample.ready _) (Sample.readBack Sample.cids.2.2) ?_
    ⟨_, .head _, by decide⟩
  intro row hrow
  obtain rfl := List.mem_singleton.mp hrow
  obtain ⟨b, hb, -⟩ := Fallible.map_eq_ok.mp Sample.cids.2.2
  exact ⟨b, hb⟩

end CarExport
