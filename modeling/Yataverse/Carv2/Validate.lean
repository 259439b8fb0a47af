import Yataverse.Carv2.Format

/-!
# A CARv2 file is what the packer writes

The validator parses the data section where it stands, with the index behind it. A reader
that keeps what it reads does not see the index, so it accepts the section exactly when it
accepts it as a file of its own.

- `local_payload`: reading a CARv1 file is local.
- `copyCarv1Payload_iff`: acceptance in place and acceptance as a whole file.
- **`validateCarv2_iff`**: what is accepted are the images of the packer.
-/

namespace Carv2

open Copying Fallible Tee

/-! ## Reading is local -/

theorem local_readVarint (truncated invalid : String) (n : Nat) : ∀ value shift length,
    Local (readVarint truncated invalid n value shift length) := by
  induction n with
  | zero => exact fun _ _ _ => local_fail _
  | succ n ih =>
    intro value shift length
    refine (local_next _).bind fun byte => ?_
    dsimp only
    exact (local_pure _).ite (ih _ _ _)

theorem local_readUvarint (limit : Nat) : Local (readUvarint limit) :=
  (local_readVarint _ _ _ _ _ _).bind fun _ => (local_require _ _).bind fun _ => local_pure _

theorem local_readVarintAfterFirst (first : UInt8) : Local (readVarintAfterFirst first) :=
  (local_pure _).ite (local_readVarint _ _ _ _ _ _)

theorem local_multihash (first : UInt8) : Local (multihash first) := by
  refine Local.ite ?_ ?_
  · exact (local_readUvarint _).bind fun _ => local_pure _
  · exact (local_require _ _).bind fun _ => (local_readVarintAfterFirst _).bind fun _ =>
      (local_require _ _).bind fun _ => (local_readUvarint _).bind fun _ =>
      (local_readUvarint _).bind fun _ => (local_readUvarint _).bind fun _ => local_pure _

section Payload

variable (sha256 : Bytes → Bytes)

theorem local_frame (totalSize : Nat) : Local (frame sha256 totalSize) :=
  local_count.bind fun _ => (local_readUvarint _).bind fun _ => local_count.bind fun _ =>
  (local_require _ _).bind fun _ => (local_next _).bind fun _ => (local_multihash _).bind fun _ =>
  (local_require _ _).bind fun _ => (local_take _ _).bind fun _ => (local_require _ _).bind fun _ =>
  (local_take _ _).bind fun _ => (local_require _ _).bind fun _ => local_pure _

theorem local_frames (totalSize : Nat) : ∀ n rows, Local (frames sha256 totalSize n rows) := by
  intro n
  induction n with
  | zero =>
    intro rows
    unfold frames
    exact local_count.bind fun _ =>
      ((local_frame sha256 totalSize).bind fun _ => local_fail _).ite (local_pure _)
  | succ n ih =>
    intro rows
    unfold frames
    exact local_count.bind fun _ =>
      ((local_frame sha256 totalSize).bind fun _ => ih _).ite (local_pure _)

/-- Reading a CARv1 file does not see what stands behind it. -/
theorem local_payload (totalSize maxBlocks : Nat) : Local (payload sha256 totalSize maxBlocks) :=
  (local_readUvarint _).bind fun _ => (local_require _ _).bind fun _ =>
    (local_take _ _).bind fun _ => local_frames sha256 _ _ _

variable {sha256} {d rest destination : Bytes} {m off : Nat} {rows : List Row}

theorem copyCarv1Payload_eq_ok {source out : Bytes} {total : Nat} {requireEof : Bool} :
    copyCarv1Payload sha256 source destination total m off requireEof = .ok (rows, out) ↔
      ∃ tape, payload sha256 total m ⟨source.drop off, []⟩ = .ok (rows, tape) ∧
        tape.done.length = total ∧ (requireEof = true → tape.rest = []) ∧ rows ≠ [] ∧
        out = destination ++ tape.done := by
  simp only [copyCarv1Payload, bind_eq_ok, require_eq_ok, exists_const]
  constructor
  · rintro ⟨⟨rows', tape⟩, hp, ⟨hlen, heof⟩, hne, h⟩
    obtain ⟨rfl, rfl⟩ := Prod.mk.inj (Except.ok.inj h)
    exact ⟨tape, hp, hlen, heof, hne, rfl⟩
  · rintro ⟨tape, hp, hlen, heof, hne, rfl⟩
    exact ⟨(rows, tape), hp, ⟨hlen, heof⟩, hne, rfl⟩

/-- Acceptance of a data section in place is acceptance of it as a whole file. -/
theorem copyCarv1Payload_iff {source : Bytes} (hs : source.drop off = d ++ rest) :
    (∃ out, copyCarv1Payload sha256 source destination d.length m off false = .ok (rows, out)) ↔
      copyCarv1Payload sha256 d [] d.length m 0 true = .ok (rows, d) := by
  simp only [copyCarv1Payload_eq_ok, hs, List.drop_zero]
  constructor
  · rintro ⟨out, tape, hp, hlen, -, hne, -⟩
    obtain ⟨part, hrest, hdone, hsame⟩ := local_payload sha256 _ _ _ _ _ hp
    rw [List.nil_append] at hdone
    obtain ⟨rfl, -⟩ := List.append_inj hrest (by rw [← hlen, hdone])
    refine ⟨⟨[], d⟩, ?_, rfl, fun _ => rfl, hne, rfl⟩
    have h := hsame []
    rwa [List.append_nil, hdone] at h
  · rintro ⟨⟨left, done⟩, hp, -, hnil, hne, hd⟩
    obtain rfl : d = done := hd
    obtain rfl : left = [] := hnil trivial
    obtain ⟨part, hrest, hdone, hsame⟩ := local_payload sha256 _ _ _ _ _ hp
    obtain rfl : d = part := by simpa using hrest
    exact ⟨_, ⟨rest, d⟩, hsame rest, rfl, nofun, hne, rfl⟩

end Payload

/-! ## Headers -/

theorem structPack_eq_ok {k n : Nat} {b : Bytes} : structPack k n = .ok b ↔ n < 256 ^ k ∧ b = bytesLE k n := by
  unfold structPack
  split
  · rename_i h
    exact ⟨fun hb => ⟨h, (Except.ok.inj hb).symm⟩, fun hb => hb.2 ▸ rfl⟩
  · rename_i h
    exact ⟨nofun, fun hb => absurd hb.1 h⟩

theorem carv2Header_eq_ok {dataSize indexOffset : Nat} {header : Bytes} :
    carv2Header dataSize indexOffset = .ok header ↔
      dataSize < 2 ^ 64 ∧ indexOffset < 2 ^ 64 ∧ header = List.replicate 16 0 ++
        (bytesLE 8 carv2DataOffset ++ bytesLE 8 dataSize ++ bytesLE 8 indexOffset) := by
  simp only [carv2Header, bind_eq_ok, structPack_eq_ok]
  constructor
  · rintro ⟨_, ⟨-, rfl⟩, _, ⟨hd, rfl⟩, _, ⟨hi, rfl⟩, h⟩
    exact ⟨by omega, by omega, (Except.ok.inj h).symm⟩
  · rintro ⟨hd, hi, rfl⟩
    exact ⟨_, ⟨by decide, rfl⟩, _, ⟨by omega, rfl⟩, _, ⟨by omega, rfl⟩, rfl⟩

/-- The fields that the validator reads are those of the header. -/
theorem carv2Header_iff {raw : Bytes} {dataSize indexOffset : Nat}
    (hraw : raw.length = carv2HeaderBytes) :
    carv2Header dataSize indexOffset = .ok raw ↔ (∀ b ∈ raw.take 16, b = 0) ∧
      ofLE ((raw.drop 16).take 8) = carv2DataOffset ∧ ofLE ((raw.drop 24).take 8) = dataSize ∧
      ofLE ((raw.drop 32).take 8) = indexOffset := by
  rw [carv2Header_eq_ok]
  constructor
  · rintro ⟨hd, hi, rfl⟩
    refine ⟨?_, ?_, ?_, ?_⟩
    · simp
    · simpa [List.drop_append, List.take_append] using ofLE_bytesLE (k := 8) (by decide)
    · simpa [List.drop_append, List.take_append] using ofLE_bytesLE (k := 8) (by omega)
    · have hshort : (bytesLE 8 carv2DataOffset).drop 16 = [] := List.drop_eq_nil_of_le (by simp)
      have hlong : (bytesLE 8 indexOffset).take 8 = _ := List.take_of_length_le (by simp)
      simpa [List.drop_append, List.take_append, hshort, hlong] using ofLE_bytesLE (k := 8) (by omega)
  · rintro ⟨hzero, hoff, rfl, rfl⟩
    have field : ∀ n, n + 8 ≤ 40 → ((raw.drop n).take 8).length = 8 := by
      intro n hn
      rw [List.length_take, List.length_drop, hraw, carv2HeaderBytes]
      omega
    have lt : ∀ n, n + 8 ≤ 40 → ofLE ((raw.drop n).take 8) < 2 ^ 64 := by
      intro n hn
      have := ofLE_lt ((raw.drop n).take 8)
      rw [field n hn] at this
      omega
    have back : ∀ n, n + 8 ≤ 40 → bytesLE 8 (ofLE ((raw.drop n).take 8)) = (raw.drop n).take 8 := by
      intro n hn
      have := bytesLE_ofLE ((raw.drop n).take 8)
      rwa [field n hn] at this
    refine ⟨lt 24 (by decide), lt 32 (by decide), ?_⟩
    rw [← hoff, back 16 (by decide), back 24 (by decide), back 32 (by decide)]
    have hlen : (raw.take 16).length = 16 := by
      rw [List.length_take, hraw]
      rfl
    rw [← hlen, ← List.eq_replicate_of_mem hzero, hlen]
    calc raw = raw.take (16 + 8 + 8 + 8) := (List.take_of_length_le hraw.le).symm
      _ = _ := by rw [List.take_add, List.take_add, List.take_add]; simp only [List.append_assoc]

/-! ## Validation -/

/-- `f` is what the packer writes for the CARv1 file `d`, which has the index rows `rows`. -/
structure IsImage (sha256 : Bytes → Bytes) (m : Nat) (d : Bytes) (rows : List Row) (f : Bytes) :
    Prop where
  size : d.length < 2 ^ 64 - 51
  accepted : copyCarv1Payload sha256 d [] d.length m 0 true = .ok (rows, d)
  image : ∃ header index, carv2Header d.length (51 + d.length) = .ok header ∧
    encodeIndex rows = .ok index ∧ f = pragma ++ header ++ d ++ index

theorem carv2Header_length {n i : Nat} {header : Bytes} (h : carv2Header n i = .ok header) :
    header.length = carv2HeaderBytes := by
  obtain ⟨-, -, rfl⟩ := carv2Header_eq_ok.mp h
  simp [carv2HeaderBytes]

/-- One byte more than a text is read, and it is the text: then it is all there is. -/
theorem eq_of_take_succ {rest index : Bytes} (h : rest.take (index.length + 1) = index) :
    rest = index := by
  have hlen := congrArg List.length h
  rw [List.length_take] at hlen
  rwa [List.take_of_length_le (by omega)] at h

theorem encodeIndex_ne_nil {rows : List Row} {index : Bytes} (h : encodeIndex rows = .ok index) :
    index ≠ [] := by
  simp only [encodeIndex, bind_eq_ok] at h
  obtain ⟨groups, -, count, hcount, hindex⟩ := h
  obtain ⟨-, rfl⟩ := structPack_eq_ok.mp hcount
  rw [← Except.ok.inj hindex]
  simp [bytesLE]

/-- The header of a file, where it stands. -/
def rawHeader (f : Bytes) : Bytes := (f.drop pragma.length).take carv2HeaderBytes

/-- A file with a pragma and a header is these and what stands behind them. -/
theorem eq_append_of_header {f : Bytes} (h : f.take pragma.length = pragma) :
    f = pragma ++ rawHeader f ++ f.drop carv2DataOffset :=
  calc f = pragma ++ f.drop pragma.length := by
        nth_rewrite 1 [← List.take_append_drop pragma.length f]
        rw [h]
    _ = pragma ++ (rawHeader f ++ (f.drop pragma.length).drop carv2HeaderBytes) := by
        rw [rawHeader, List.take_append_drop]
    _ = _ := by rw [List.drop_drop, List.append_assoc]; rfl

theorem take_pragma (rest : Bytes) : (pragma ++ rest).take pragma.length = pragma :=
  List.take_left

theorem rawHeader_append {header rest : Bytes} (h : header.length = carv2HeaderBytes) :
    rawHeader (pragma ++ header ++ rest) = header := by
  rw [rawHeader, List.append_assoc, List.drop_left, ← h, List.take_left]

theorem drop_header {header rest : Bytes} (h : header.length = carv2HeaderBytes) :
    (pragma ++ header ++ rest).drop carv2DataOffset = rest := by
  rw [show carv2DataOffset = (pragma ++ header).length by rw [List.length_append, h]; rfl,
    List.drop_left]

/-- What is checked of a file. -/
theorem validateCarv2_eq_ok {sha256 : Bytes → Bytes} {f : Bytes} {m : Nat} {v : Validation} :
    validateCarv2 sha256 f m = .ok v ↔ f.take pragma.length = pragma ∧
      ∃ n, carv2Header n (carv2DataOffset + n) = .ok (rawHeader f) ∧ 1 ≤ n ∧
        carv2DataOffset + n < f.length ∧ ∃ rows out index,
          copyCarv1Payload sha256 f [] n m carv2DataOffset false = .ok (rows, out) ∧
          encodeIndex rows = .ok index ∧
          (f.drop (carv2DataOffset + n)).take (index.length + 1) = index ∧
          v = ⟨f.length, rows.length, rows.length⟩ := by
  simp only [validateCarv2, bind_eq_ok, require_eq_ok, exists_const, List.all_eq_true, decide_eq_true_eq]
  rw [show (f.drop pragma.length).take carv2HeaderBytes = rawHeader f from rfl]
  constructor
  · rintro ⟨hpragma, hraw, hzero, ⟨hoff, hsize, hindex⟩, hfile, ⟨rows, out⟩, hcopy, index, henc,
      hactual, hv⟩
    generalize hn : ofLE _ = n at hsize hindex hcopy
    rw [hoff] at hindex hcopy
    rw [hindex] at hfile hactual
    exact ⟨hpragma, n, (carv2Header_iff hraw).mpr ⟨hzero, hoff, hn, hindex⟩, hsize, hfile, rows, out,
      index, hcopy, henc, hactual, (Except.ok.inj hv).symm⟩
  · rintro ⟨hpragma, n, hheader, hsize, hfile, rows, out, index, hcopy, henc, hactual, rfl⟩
    have hraw := carv2Header_length hheader
    obtain ⟨hzero, hoff, hn, hi⟩ := (carv2Header_iff hraw).mp hheader
    rw [hoff, hn, hi]
    exact ⟨hpragma, hraw, hzero, ⟨rfl, hsize, rfl⟩, hfile, (rows, out), hcopy, index, henc, hactual,
      rfl⟩

/-- **Validation accepts exactly the images of the packer**, and reports how many blocks
they have. -/
theorem validateCarv2_iff (sha256 : Bytes → Bytes) (f : Bytes) (m : Nat) (v : Validation) :
    validateCarv2 sha256 f m = .ok v ↔ ∃ d rows, IsImage sha256 m d rows f ∧
      v = ⟨f.length, rows.length, rows.length⟩ := by
  rw [validateCarv2_eq_ok]
  constructor
  · rintro ⟨hpragma, n, hheader, hsize, hfile, rows, out, index, hcopy, henc, hactual, hv⟩
    -- the data section, with the index behind it
    obtain ⟨d, hd⟩ : ∃ d, d = (f.drop carv2DataOffset).take n := ⟨_, rfl⟩
    have hdn : d.length = n := by
      rw [hd, List.length_take, List.length_drop]
      omega
    have hdrop : f.drop carv2DataOffset = d ++ index := by
      rw [← eq_of_take_succ hactual, ← List.drop_drop, hd, List.take_append_drop]
    subst hdn
    refine ⟨d, rows, ⟨?_, ?_, rawHeader f, index, hheader, henc, ?_⟩, hv⟩
    · obtain ⟨-, hi, -⟩ := carv2Header_eq_ok.mp hheader
      simp only [carv2DataOffset] at hi
      omega
    · exact (copyCarv1Payload_iff hdrop).mp ⟨out, hcopy⟩
    · rw [List.append_assoc, ← hdrop]
      exact eq_append_of_header hpragma
  · rintro ⟨d, rows, ⟨hsize, haccepted, header, index, hheader, henc, rfl⟩, hv⟩
    have hlen := carv2Header_length hheader
    have hpos : 1 ≤ d.length := by
      cases d with
      | nil => cases haccepted
      | cons => exact Nat.succ_pos _
    rw [List.append_assoc (pragma ++ header)] at hv ⊢
    obtain ⟨out, hcopy⟩ := (copyCarv1Payload_iff (drop_header hlen)).mpr haccepted
    have hindex : (pragma ++ header ++ (d ++ index)).drop (carv2DataOffset + d.length) = index := by
      rw [← List.drop_drop, drop_header hlen, List.drop_left]
    refine ⟨?_, d.length, ?_, hpos, ?_, rows, out, index, hcopy, henc, ?_, hv⟩
    · rw [List.append_assoc]
      exact take_pragma _
    · rw [rawHeader_append hlen]
      exact hheader
    · have hne := List.length_pos_iff.mpr (encodeIndex_ne_nil henc)
      have hp : pragma.length = 11 := rfl
      simp only [List.length_append, hlen, hp, carv2HeaderBytes, carv2DataOffset]
      omega
    · rw [hindex, List.take_of_length_le (Nat.le_succ _)]

end Carv2
