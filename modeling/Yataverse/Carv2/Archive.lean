import Yataverse.Carv2.Validate
import Yataverse.Carv2.Zstd

/-!
# Packing and unpacking

`pack` and `unpack` of `carv2_zstd.py`, with the way `ship_lake_car.py` calls the second.
The `zstd` program is a parameter; the two ratios of a pack receipt, which nothing reads,
are left out.

- `pack`, `unpack`: the tool on its input, its output and the receipt of that output.
- `encodeIndex_length`, `image_length`: how long the index and the wrapped file are.
- **`unpack_pack`**: unpacking what was packed gives the packed file back, within the same
  bounds.
-/

namespace Carv2

open Copying Fallible Tee

/-! ## Receipts -/

/-- A value of a receipt. -/
inductive Value where
  | int (n : Nat)
  | str (s : String)
deriving DecidableEq

/-- A receipt: its members by name. -/
abbrev Receipt := List (String × Value)

def Receipt.get (r : Receipt) (name : String) : Option Value := r.lookup name

def Receipt.str (r : Receipt) (name : String) : Option String :=
  match r.get name with
  | some (.str s) => some s
  | _ => none

def Receipt.int (r : Receipt) (name : String) : Option Nat :=
  match r.get name with
  | some (.int n) => some n
  | _ => none

/-- `hexdigest()`. -/
def hexdigest (digest : Bytes) : String :=
  String.ofList (digest.flatMap fun b => [(b.toNat / 16).digitChar, (b.toNat % 16).digitChar])

/-- What stands at the output path and at the receipt path. -/
structure Target where
  output : Option Bytes
  receipt : Option Receipt
deriving DecidableEq

/-- Neither is there yet. -/
def Target.fresh : Target := ⟨none, none⟩

/-! ## The tool -/

section Tool

variable (sha256 : Bytes → Bytes)

/-- `sha256_file`. -/
def sha256File (file : Bytes) : String := hexdigest (sha256 file)

/-- `destination.seek(at)` and a write over what stands there. -/
def overwrite (file : Bytes) (at' : Nat) (data : Bytes) : Bytes :=
  file.take at' ++ data ++ file.drop (at' + data.length)

/-- The result of a run of `zstd`. -/
def runZstd (result : Option Bytes) : Except Error Bytes :=
  match result with
  | some out => .ok out
  | none => .error (.archive "zstd refused the archive")

/-- The file that `pack` wraps a CARv1 file in, and the rows of its index. -/
def wrap (carv1 : Bytes) (maxBlocks : Nat) : Except Error (Bytes × List Row) := do
  let (rows, written) ← copyCarv1Payload sha256 carv1 (pragma ++ List.replicate carv2HeaderBytes 0)
    carv1.length maxBlocks 0 true
  let dataSize := written.length - carv2DataOffset
  let indexOffset := written.length
  let index ← encodeIndex rows
  let header ← carv2Header dataSize indexOffset
  return (overwrite (written ++ index) pragma.length header, rows)

/-- The receipt of a packed file. -/
def packReceipt (carv1 carv2 compressed : Bytes) (blocks : Nat) : Receipt := [
  ("schema", .int 1),
  ("format", .str "carv2+zstd"),
  ("carv1_sha256", .str (sha256File sha256 carv1)),
  ("carv1_bytes", .int carv1.length),
  ("carv2_sha256", .str (sha256File sha256 carv2)),
  ("carv2_bytes", .int carv2.length),
  ("compressed_sha256", .str (sha256File sha256 compressed)),
  ("compressed_bytes", .int compressed.length),
  ("blocks", .int blocks),
  ("index_entries", .int blocks),
  ("compression", .str "zstd"),
  ("compression_level", .int 9)]

/-- `pack`, where neither the output nor its receipt is there yet. -/
def packFresh (compress : Bytes → Option Bytes) (free : Nat) (carv1 : Bytes) (maxBlocks : Nat) :
    Except Error (Receipt × Target) := do
  require (2 * carv1.length + 64 * 1024 * 1024 ≤ free)
    (.archive "disk reserve is too low for CARv2 and Zstandard temporaries")
  let (carv2, rows) ← wrap sha256 carv1 maxBlocks
  let checked ← validateCarv2 sha256 carv2 maxBlocks
  require (checked.blocks = rows.length)
    (.archive "CARv2 validation returned a different block count")
  let compressed ← runZstd (compress carv2)
  require (compressed ≠ []) .zeroDivision
  let receipt := packReceipt sha256 carv1 carv2 compressed rows.length
  return (receipt, ⟨some compressed, some receipt⟩)

/-- `pack`. -/
def pack (compress : Bytes → Option Bytes) (free : Nat) (source : Option Bytes) (target : Target)
    (maxBlocks maxBytes : Nat) : Except Error (Receipt × Target) :=
  match source with
  | none => .error (.archive "CARv1 input is absent")
  | some carv1 => do
    require (1 ≤ maxBlocks ∧ maxBlocks ≤ 1000 ∧ 1 ≤ carv1.length ∧ carv1.length ≤ maxBytes)
      (.archive "CARv1 exceeds configured block or byte bounds")
    match target.output, target.receipt with
    | none, none => packFresh sha256 compress free carv1 maxBlocks
    | some output, some saved => do
      require (saved.get "format" = some (.str "carv2+zstd") ∧
          saved.get "carv1_sha256" = some (.str (sha256File sha256 carv1)) ∧
          saved.get "compressed_sha256" = some (.str (sha256File sha256 output)) ∧
          saved.get "compressed_bytes" = some (.int output.length))
        (.archive "saved compressed archive differs from its receipt")
      return (saved, target)
    | _, _ => .error (.archive "saved output is missing its matching receipt")

/-- The options of `unpack`; a digest that is not given is empty. -/
structure UnpackArgs where
  expectedCompressedSha256 : String
  expectedCarv2Sha256 : String
  maxBlocks : Nat
  maxBytes : Nat

/-- The receipt of an unpacked file. -/
def unpackReceipt (compressed carv2 : Bytes) (validation : Validation) : Receipt := [
  ("schema", .int 1),
  ("format", .str "carv2+zstd"),
  ("compressed_sha256", .str (sha256File sha256 compressed)),
  ("compressed_bytes", .int compressed.length),
  ("carv2_sha256", .str (sha256File sha256 carv2)),
  ("carv2_bytes", .int validation.carv2Bytes),
  ("blocks", .int validation.blocks),
  ("index_entries", .int validation.indexEntries),
  ("status", .str "complete")]

/-- `unpack`, where neither the output nor its receipt is there yet. -/
def unpackFresh (decompress : Bytes → Option Bytes) (compressed : Bytes) (args : UnpackArgs) :
    Except Error (Receipt × Target) := do
  let declaredSize ← zstdFrameContentSize compressed
  let maxCarv2Bytes := args.maxBytes + 128 * args.maxBlocks + 1024
  require (declaredSize ≤ maxCarv2Bytes)
    (.archive "Zstandard content size exceeds the configured CAR bound")
  let carv2 ← runZstd (decompress compressed)
  require (carv2.length = declaredSize)
    (.archive "Zstandard output size differs from its frame header")
  let validation ← validateCarv2 sha256 carv2 args.maxBlocks
  require (args.expectedCarv2Sha256 = "" ∨ sha256File sha256 carv2 = args.expectedCarv2Sha256)
    (.archive "decompressed CARv2 SHA-256 differs from the expected receipt")
  let receipt := unpackReceipt sha256 compressed carv2 validation
  return (receipt, ⟨some carv2, some receipt⟩)

/-- `unpack`. -/
def unpack (decompress : Bytes → Option Bytes) (source : Option Bytes) (target : Target)
    (args : UnpackArgs) : Except Error (Receipt × Target) :=
  match source with
  | none => .error (.archive "compressed input is absent")
  | some compressed => do
    let compressedSha := sha256File sha256 compressed
    require (args.expectedCompressedSha256 = "" ∨ compressedSha = args.expectedCompressedSha256)
      (.archive "compressed SHA-256 differs from the expected receipt")
    match target.output, target.receipt with
    | none, none => unpackFresh sha256 decompress compressed args
    | some output, some saved => do
      let validation ← validateCarv2 sha256 output args.maxBlocks
      require (saved.get "format" = some (.str "carv2+zstd") ∧
          saved.get "compressed_sha256" = some (.str compressedSha) ∧
          saved.get "carv2_sha256" = some (.str (sha256File sha256 output)) ∧
          saved.get "blocks" = some (.int validation.blocks) ∧
          saved.get "carv2_bytes" = some (.int validation.carv2Bytes) ∧
          (args.expectedCarv2Sha256 = "" ∨
            saved.get "carv2_sha256" = some (.str args.expectedCarv2Sha256)))
        (.archive "saved CARv2 differs from its receipt")
      return (saved, target)
    | _, _ => .error (.archive "saved CARv2 is missing its matching receipt")

end Tool

/-- The options that `unpack_remote_archive` passes: the digests and the size of the
archive's receipt. -/
def unpackRemoteArgs (archiveReceipt : Receipt) (rowCount : Nat) : Option UnpackArgs := do
  return {
    expectedCompressedSha256 := ← archiveReceipt.str "compressed_sha256"
    expectedCarv2Sha256 := ← archiveReceipt.str "carv2_sha256"
    maxBlocks := rowCount
    maxBytes := ← archiveReceipt.int "carv2_bytes" }

/-! ## The rows of a CAR -/

/-- What every row says: a SHA2-256 digest. -/
def Row.IsSha256 (row : Row) : Prop := row.code = sha2_256 ∧ row.digest.length = 32

section Rows

variable {sha256 : Bytes → Bytes} {total m : Nat}

theorem frame_isSha256 {s s' : Tape UInt8} {row : Row}
    (h : frame sha256 total s = .ok (row, s')) : row.IsSha256 := by
  simp only [frame, run_bind_eq_ok, run_require_eq_ok] at h
  obtain ⟨_, _, _, _, _, _, _, _, _, _, _, _, _, _, _, cid, _, _, _, _, ⟨⟨hsize, hcode⟩, _⟩, digest, _,
    hdigest, _, _, _, _, _, _, _, _, _, hrow⟩ := h
  obtain ⟨rfl, -⟩ := Prod.mk.inj (Except.ok.inj hrow)
  obtain ⟨hlen, -⟩ := run_take_eq_ok.mp hdigest
  exact ⟨hcode, hlen.trans hsize⟩

/-- The loop stops, or reads a frame within the limit and goes on. -/
theorem frames_cases {n : Nat} {rows rows' : List Row} {s s' : Tape UInt8}
    (h : frames sha256 total n rows s = .ok (rows', s')) : rows' = rows ∨
      ∃ k row s₁, n = k + 1 ∧ frame sha256 total s = .ok (row, s₁) ∧
        frames sha256 total k (rows ++ [row]) s₁ = .ok (rows', s') := by
  unfold frames at h
  obtain ⟨written, s₀, hcount, h⟩ := run_bind_eq_ok.mp h
  obtain ⟨rfl, rfl⟩ := Prod.mk.inj (Except.ok.inj hcount)
  split at h
  · obtain ⟨row, s₁, hrow, h⟩ := run_bind_eq_ok.mp h
    cases n with
    | zero => cases h
    | succ k => exact .inr ⟨k, row, s₁, rfl, hrow, h⟩
  · exact .inl (Prod.mk.inj (Except.ok.inj h)).1.symm

theorem frames_rows {n : Nat} {rows rows' : List Row} {s s' : Tape UInt8}
    (h : frames sha256 total n rows s = .ok (rows', s')) (hrows : ∀ row ∈ rows, row.IsSha256) :
    rows'.length ≤ rows.length + n ∧ ∀ row ∈ rows', row.IsSha256 := by
  induction n generalizing rows s with
  | zero =>
    rcases frames_cases h with rfl | ⟨k, row, s₁, hk, -⟩
    · exact ⟨Nat.le_refl _, hrows⟩
    · cases hk
  | succ n ih =>
    rcases frames_cases h with rfl | ⟨k, row, s₁, hk, hrow, h⟩
    · exact ⟨Nat.le_add_right .., hrows⟩
    · obtain rfl := Nat.succ.inj hk
      obtain ⟨hlen, hall⟩ := ih h (by simpa [or_imp, forall_and] using ⟨hrows, frame_isSha256 hrow⟩)
      rw [List.length_append, List.length_singleton] at hlen
      exact ⟨by omega, hall⟩

/-- An accepted CAR has at least one row, at most the limit, and only SHA2-256 digests. -/
theorem copyCarv1Payload_rows {source destination out : Bytes} {off : Nat} {requireEof : Bool}
    {rows : List Row} (h : copyCarv1Payload sha256 source destination total m off requireEof =
      .ok (rows, out)) : rows ≠ [] ∧ rows.length ≤ m ∧ ∀ row ∈ rows, row.IsSha256 := by
  obtain ⟨tape, hp, -, -, hne, -⟩ := copyCarv1Payload_eq_ok.mp h
  obtain ⟨_, _, -, hp⟩ := run_bind_eq_ok.mp hp
  obtain ⟨_, _, -, hp⟩ := run_bind_eq_ok.mp hp
  obtain ⟨_, _, -, hp⟩ := run_bind_eq_ok.mp hp
  obtain ⟨hlen, hall⟩ := frames_rows hp (by simp)
  exact ⟨hne, by simpa using hlen, hall⟩

end Rows

/-! ## The length of the index -/

theorem sortedKeys_eq_singleton {keys : List Nat} {k : Nat} (hne : keys ≠ [])
    (h : ∀ k' ∈ keys, k' = k) : sortedKeys keys = [k] := by
  rw [sortedKeys, List.eq_replicate_of_mem h, List.replicate_dedup (by simpa using hne)]
  rfl

theorem length_flatten_of_forall {xs : List Bytes} {n : Nat} (h : ∀ x ∈ xs, x.length = n) :
    xs.flatten.length = n * xs.length := by
  rw [List.length_flatten, List.map_eq_replicate_iff.mpr h, List.sum_replicate_nat, Nat.mul_comm]

theorem encodeRecord_length {row : Row} {entry : Bytes} (hrow : row.IsSha256)
    (h : encodeRecord row = .ok entry) : entry.length = 40 := by
  obtain ⟨_, hoff, h⟩ := bind_eq_ok.mp h
  obtain ⟨-, rfl⟩ := structPack_eq_ok.mp hoff
  rw [← Except.ok.inj h, List.length_append, hrow.2, length_bytesLE]

theorem encodeBucket_length {rows : List Row} {bucket : Bytes} (hrows : ∀ row ∈ rows, row.IsSha256)
    (h : encodeBucket rows 40 = .ok bucket) : bucket.length = 12 + 40 * rows.length := by
  simp only [encodeBucket, bind_eq_ok] at h
  obtain ⟨entries, hentries, _, hw, _, hl, h⟩ := h
  obtain ⟨-, rfl⟩ := structPack_eq_ok.mp hw
  obtain ⟨-, rfl⟩ := structPack_eq_ok.mp hl
  have hwidth : rows.filter (·.width = 40) = rows :=
    List.filter_eq_self.mpr fun row hrow => by simp [Row.width, (hrows row hrow).2]
  rw [hwidth] at hentries
  have hentry : ∀ e ∈ entries, e.length = 40 := by
    intro e he
    obtain ⟨row, hrow, hencode⟩ := mapM_mem hentries e he
    exact encodeRecord_length (hrows row (List.mem_insertionSort _ |>.mp hrow)) hencode
  have hcount : entries.length = rows.length := by
    rw [mapM_length hentries, List.length_insertionSort]
  rw [← Except.ok.inj h]
  simp only [List.length_append, length_bytesLE, length_flatten_of_forall hentry, hcount]

theorem encodeCode_length {rows : List Row} {group : Bytes} (hne : rows ≠ [])
    (hrows : ∀ row ∈ rows, row.IsSha256) (h : encodeCode rows sha2_256 = .ok group) :
    group.length = 24 + 40 * rows.length := by
  have hcoded : rows.filter (·.code = sha2_256) = rows :=
    List.filter_eq_self.mpr fun row hrow => by simp [(hrows row hrow).1]
  have hwidths : sortedKeys (rows.map Row.width) = [40] := by
    refine sortedKeys_eq_singleton (by simpa using hne) fun k hk => ?_
    obtain ⟨row, hrow, rfl⟩ := List.mem_map.mp hk
    rw [Row.width, (hrows row hrow).2]
  simp only [encodeCode, hcoded, hwidths, bind_eq_ok] at h
  obtain ⟨buckets, hbuckets, _, hcode, _, hcount, h⟩ := h
  obtain ⟨bucket, hbucket, rfl⟩ := mapM_singleton hbuckets
  obtain ⟨-, rfl⟩ := structPack_eq_ok.mp hcode
  obtain ⟨-, rfl⟩ := structPack_eq_ok.mp hcount
  rw [← Except.ok.inj h]
  simp only [List.length_append, length_bytesLE, List.flatten_singleton,
    encodeBucket_length hrows hbucket]
  omega

/-- The index of a CAR is 30 bytes, and 40 for each block. -/
theorem encodeIndex_length {rows : List Row} {index : Bytes} (hne : rows ≠ [])
    (hrows : ∀ row ∈ rows, row.IsSha256) (h : encodeIndex rows = .ok index) :
    index.length = 30 + 40 * rows.length := by
  have hcodes : sortedKeys (rows.map Row.code) = [sha2_256] := by
    refine sortedKeys_eq_singleton (by simpa using hne) fun k hk => ?_
    obtain ⟨row, hrow, rfl⟩ := List.mem_map.mp hk
    exact (hrows row hrow).1
  simp only [encodeIndex, hcodes, bind_eq_ok] at h
  obtain ⟨groups, hgroups, _, hcount, h⟩ := h
  obtain ⟨group, hgroup, rfl⟩ := mapM_singleton hgroups
  obtain ⟨-, rfl⟩ := structPack_eq_ok.mp hcount
  have hmagic : (uvarint multihashIndexSorted).length = 2 := by decide +kernel
  rw [← Except.ok.inj h]
  simp only [List.length_append, length_bytesLE, List.flatten_singleton, hmagic,
    encodeCode_length hne hrows hgroup]
  omega

/-! ## Wrapping -/

section Images

variable {sha256 : Bytes → Bytes} {compress decompress : Bytes → Option Bytes}

/-- A whole file is copied as it is. -/
theorem copyCarv1Payload_whole {d destination out : Bytes} {m : Nat} {rows : List Row}
    (h : copyCarv1Payload sha256 d destination d.length m 0 true = .ok (rows, out)) :
    out = destination ++ d ∧ copyCarv1Payload sha256 d [] d.length m 0 true = .ok (rows, d) := by
  obtain ⟨⟨rest, done⟩, hp, hlen, hnil, hne, rfl⟩ := copyCarv1Payload_eq_ok.mp h
  obtain ⟨part, hrest, hdone, -⟩ := local_payload sha256 _ _ _ _ _ hp
  obtain rfl : rest = [] := hnil rfl
  rw [List.drop_zero, List.append_nil] at hrest
  rw [List.nil_append] at hdone
  have hd : done = d := hdone.trans hrest.symm
  exact ⟨by rw [hd], copyCarv1Payload_eq_ok.mpr ⟨_, hp, hlen, hnil, hne, by rw [hd]; rfl⟩⟩

theorem overwrite_middle {a b b' c : Bytes} (h : b'.length = b.length) :
    overwrite (a ++ b ++ c) a.length b' = a ++ b' ++ c := by
  have hdrop : (a ++ b ++ c).drop (a.length + b'.length) = c := by
    rw [h, ← List.length_append, List.drop_left]
  rw [overwrite, hdrop, List.append_assoc a b c, List.take_left]

/-- The packer writes images. -/
theorem isImage_of_wrap {d f : Bytes} {m : Nat} {rows : List Row}
    (h : wrap sha256 d m = .ok (f, rows)) : IsImage sha256 m d rows f := by
  simp only [wrap, bind_eq_ok] at h
  obtain ⟨⟨rows', written⟩, hcopy, index, hindex, header, hheader, h⟩ := h
  obtain ⟨rfl, haccepted⟩ := copyCarv1Payload_whole hcopy
  obtain ⟨hf, rfl⟩ := Prod.mk.inj (Except.ok.inj h)
  have hwritten : (pragma ++ List.replicate carv2HeaderBytes 0 ++ d).length = 51 + d.length := by
    rw [List.length_append]
    rfl
  have hdata : 51 + d.length - carv2DataOffset = d.length := Nat.add_sub_cancel_left ..
  simp only [hwritten, hdata] at hheader
  obtain ⟨-, hi, -⟩ := carv2Header_eq_ok.mp hheader
  refine ⟨by omega, haccepted, header, index, hheader, hindex, ?_⟩
  rw [← hf, List.append_assoc, overwrite_middle, ← List.append_assoc]
  rw [carv2Header_length hheader, List.length_replicate]

/-- The wrapped file is within the bound that `unpack` allows for it. -/
theorem image_length {d f : Bytes} {m : Nat} {rows : List Row} (h : IsImage sha256 m d rows f) :
    f.length = d.length + 40 * rows.length + 81 := by
  obtain ⟨hne, -, hrows⟩ := copyCarv1Payload_rows h.accepted
  obtain ⟨header, index, hheader, hindex, rfl⟩ := h.image
  have hp : pragma.length = 11 := rfl
  simp only [List.length_append, hp, carv2Header_length hheader, carv2HeaderBytes,
    encodeIndex_length hne hrows hindex]
  omega

/-! ## Unpacking what was packed -/

/-- What a pack that writes its output has done. -/
structure Packing (sha256 : Bytes → Bytes) (compress : Bytes → Option Bytes) (d : Bytes)
    (maxBlocks maxBytes : Nat) (receipt : Receipt) (target : Target) (carv2 archive : Bytes)
    (rows : List Row) : Prop where
  bytes : d.length ≤ maxBytes
  image : IsImage sha256 maxBlocks d rows carv2
  compressed : compress carv2 = some archive
  output : target.output = some archive
  compressedSha : receipt.get "compressed_sha256" = some (.str (sha256File sha256 archive))
  carv2Sha : receipt.get "carv2_sha256" = some (.str (sha256File sha256 carv2))
  carv2Bytes : receipt.get "carv2_bytes" = some (.int carv2.length)
  blocks : receipt.get "blocks" = some (.int rows.length)

theorem pack_fresh {free maxBlocks maxBytes : Nat} {d : Bytes} {receipt : Receipt} {target : Target}
    (h : pack sha256 compress free (some d) .fresh maxBlocks maxBytes = .ok (receipt, target)) :
    ∃ carv2 archive rows,
      Packing sha256 compress d maxBlocks maxBytes receipt target carv2 archive rows := by
  simp only [pack, Target.fresh, packFresh, bind_eq_ok, require_eq_ok, exists_const] at h
  obtain ⟨⟨-, -, -, hbytes⟩, -, ⟨carv2, rows⟩, hwrap, checked, -, -, archive, hzstd, -, h⟩ := h
  obtain ⟨rfl, rfl⟩ := Prod.mk.inj (Except.ok.inj h)
  have hcompress : compress carv2 = some archive := by
    unfold runZstd at hzstd
    split at hzstd
    · rename_i out hout
      rw [hout, Except.ok.inj hzstd]
    · cases hzstd
  exact ⟨carv2, archive, rows, hbytes, isImage_of_wrap hwrap, hcompress, rfl, rfl, rfl, rfl, rfl⟩

/-- A frame of an image unpacks within a bound that covers it. -/
theorem unpack_image (hz : IsZstd compress decompress) {m : Nat} {d carv2 archive : Bytes}
    {rows : List Row} (himage : IsImage sha256 m d rows carv2)
    (hcompress : compress carv2 = some archive) {args : UnpackArgs} (hm : args.maxBlocks = m)
    (hbound : carv2.length ≤ args.maxBytes + 128 * m + 1024)
    (hcompressed : args.expectedCompressedSha256 = "" ∨
      sha256File sha256 archive = args.expectedCompressedSha256)
    (hcarv2 : args.expectedCarv2Sha256 = "" ∨
      sha256File sha256 carv2 = args.expectedCarv2Sha256) :
    ∃ receipt, unpack sha256 decompress (some archive) .fresh args =
        .ok (receipt, ⟨some carv2, some receipt⟩) ∧
      receipt.get "carv2_sha256" = some (.str (sha256File sha256 carv2)) ∧
      receipt.get "blocks" = some (.int rows.length) := by
  obtain ⟨header, rest, rfl, hsize⟩ := hz.declares _ _ hcompress
  have hvalid := (validateCarv2_iff sha256 carv2 m _).mpr ⟨d, rows, himage, rfl⟩
  refine ⟨unpackReceipt sha256 (header.encode ++ rest) carv2
    ⟨carv2.length, rows.length, rows.length⟩, ?_, rfl, rfl⟩
  simp only [unpack, Target.fresh, unpackFresh, bind_eq_ok, require_eq_ok, exists_const]
  refine ⟨hcompressed, header.contentSize, zstdFrameContentSize_encode header rest, ?_, carv2, ?_,
    hsize.symm, _, by rw [hm]; exact hvalid, hcarv2, rfl⟩
  · rw [hsize, hm]
    exact hbound
  · rw [hz.lossless _ _ hcompress]
    rfl

/-- **Pack and unpack are inverse within the same bounds**: what a pack has written unpacks
with the same bounds, and also as the shipper calls it, to a file whose data section is the
CARv1 file, with the digest and the block count of the pack receipt. -/
theorem unpack_pack (hz : IsZstd compress decompress) {free maxBlocks maxBytes : Nat} {d : Bytes}
    {receipt : Receipt} {target : Target}
    (h : pack sha256 compress free (some d) .fresh maxBlocks maxBytes = .ok (receipt, target)) :
    ∃ remote, unpackRemoteArgs receipt maxBlocks = some remote ∧
      receipt.get "carv2_bytes" = some (.int remote.maxBytes) ∧
      ∀ args, args = ⟨"", "", maxBlocks, maxBytes⟩ ∨ args = ⟨"", "", maxBlocks, remote.maxBytes⟩ ∨
          args = remote →
        ∃ receipt' header index, unpack sha256 decompress target.output .fresh args =
            .ok (receipt', ⟨some (pragma ++ header ++ d ++ index), some receipt'⟩) ∧
          carv2Header d.length (51 + d.length) = .ok header ∧
          (∃ digest, receipt'.get "carv2_sha256" = some (.str digest) ∧
            receipt.get "carv2_sha256" = some (.str digest)) ∧
          ∃ blocks, receipt'.get "blocks" = some (.int blocks) ∧
            receipt.get "blocks" = some (.int blocks) := by
  obtain ⟨carv2, archive, rows, hp⟩ := pack_fresh h
  obtain ⟨header, index, hheader, -, hcarv2⟩ := hp.image.image
  have hremote : unpackRemoteArgs receipt maxBlocks = some
      ⟨sha256File sha256 archive, sha256File sha256 carv2, maxBlocks, carv2.length⟩ := by
    simp [unpackRemoteArgs, Receipt.str, Receipt.int, hp.compressedSha, hp.carv2Sha, hp.carv2Bytes]
  refine ⟨_, hremote, hp.carv2Bytes, fun args hargs => ?_⟩
  have hlen := image_length hp.image
  have hrows := (copyCarv1Payload_rows hp.image.accepted).2.1
  have hbytes := hp.bytes
  have hunpack : ∃ receipt', unpack sha256 decompress (some archive) .fresh args =
        .ok (receipt', ⟨some carv2, some receipt'⟩) ∧
      receipt'.get "carv2_sha256" = some (.str (sha256File sha256 carv2)) ∧
      receipt'.get "blocks" = some (.int rows.length) := by
    rcases hargs with rfl | rfl | rfl
    · refine unpack_image hz hp.image hp.compressed rfl ?_ (.inl rfl) (.inl rfl)
      show carv2.length ≤ maxBytes + 128 * maxBlocks + 1024
      omega
    · refine unpack_image hz hp.image hp.compressed rfl ?_ (.inl rfl) (.inl rfl)
      show carv2.length ≤ carv2.length + 128 * maxBlocks + 1024
      omega
    · refine unpack_image hz hp.image hp.compressed rfl ?_ (.inr rfl) (.inr rfl)
      show carv2.length ≤ carv2.length + 128 * maxBlocks + 1024
      omega
  obtain ⟨receipt', hun, hsha, hblocks⟩ := hunpack
  refine ⟨receipt', header, index, ?_, hheader, ⟨_, hsha, hp.carv2Sha⟩, _, hblocks, hp.blocks⟩
  rw [hp.output, hun, hcarv2]

end Images

namespace Sample

/-- The SHA2-256 digest of no bytes. -/
def emptyDigest : Bytes :=
  [0xe3, 0xb0, 0xc4, 0x42, 0x98, 0xfc, 0x1c, 0x14, 0x9a, 0xfb, 0xf4, 0xc8, 0x99, 0x6f, 0xb9, 0x24,
    0x27, 0xae, 0x41, 0xe4, 0x64, 0x9b, 0x93, 0x4c, 0xa4, 0x95, 0x99, 0x1b, 0x78, 0x52, 0xb8, 0x55]

def sha256 (_ : Bytes) : Bytes := emptyDigest

/-- A CAR with a header of one byte and a frame with one empty block. -/
def car : Bytes := [0x01, 0xa0] ++ [0x22, 0x12, 0x20] ++ emptyDigest

/-- A single-segment frame header with a size of four bytes. -/
def header (b : Bytes) (h : b.length < 2 ^ 17) : FrameHeader where
  sizeFlag := 2
  singleSegment := true
  checksum := false
  dictFlag := 0
  window := 0
  dictionary := []
  contentSize := b.length
  dictionary_length := rfl
  declared := by decide
  biased := Nat.zero_le _
  fits := by
    show b.length < 256 ^ 4
    omega

/-- A frame that holds its content in one raw block. -/
def store (b : Bytes) : Option Bytes :=
  if h : b.length < 2 ^ 17 then some ((header b h).encode ++ (bytesLE 3 (b.length * 8 + 1) ++ b))
  else none

/-- The content of a frame of `store`. -/
def restore (c : Bytes) : Option Bytes := some (c.drop 12)

theorem store_isZstd : IsZstd store restore where
  lossless b c hc := by
    unfold store at hc
    split at hc
    · rename_i h
      rw [← Option.some.inj hc]
      show some (([0x28, 0xb5, 0x2f, 0xfd, 0xa0] ++ bytesLE 4 b.length ++
        (bytesLE 3 (b.length * 8 + 1) ++ b)).drop 12) = some b
      rw [← List.append_assoc, List.drop_left' (by simp)]
    · cases hc
  declares b c hc := by
    unfold store at hc
    split at hc
    · rename_i h
      exact ⟨header b h, _, (Option.some.inj hc).symm, rfl⟩
    · cases hc

theorem packs : ∃ receipt target,
    pack sha256 store (2 ^ 30) (some car) .fresh 1 40 = .ok (receipt, target) := by
  have h : (pack sha256 store (2 ^ 30) (some car) .fresh 1 40).isOk = true := by decide +kernel
  cases hp : pack sha256 store (2 ^ 30) (some car) .fresh 1 40 with
  | error e =>
    rw [hp] at h
    cases h
  | ok r => exact ⟨r.1, r.2, rfl⟩

end Sample

/-- A CAR of one empty block is packed and unpacked. -/
theorem unpack_pack_sample : ∃ receipt target receipt' header index,
    pack Sample.sha256 Sample.store (2 ^ 30) (some Sample.car) .fresh 1 40 = .ok (receipt, target) ∧
    unpack Sample.sha256 Sample.restore target.output .fresh ⟨"", "", 1, 40⟩ =
      .ok (receipt', ⟨some (pragma ++ header ++ Sample.car ++ index), some receipt'⟩) := by
  obtain ⟨receipt, target, hpack⟩ := Sample.packs
  obtain ⟨_, -, -, hun⟩ := unpack_pack Sample.store_isZstd hpack
  obtain ⟨receipt', header, index, hun, -⟩ := hun _ (.inl rfl)
  exact ⟨receipt, target, receipt', header, index, hpack, hun⟩

end Carv2
