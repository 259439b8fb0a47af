import Yataverse.Carv2.Archive

/-!
# Where the frames of a CARv1 file end

Every frame begins with its length. The reader adds up the bytes of the CID to find out how
long the payload is, and takes the digest length of a CID without a version to be written in
as few bytes as possible.

- `varintAt`: the number that a byte string begins with.
- `FramePart`: the bytes that one frame consumes, and the bytes it has to spare: those its
  digest length is padded with.
- `frameOffsets`, `paddedV0`: where the frames begin by their declared lengths, and which of
  them are padded so.
- `Exactly`: every row names a frame that consumes what it declares.
- **`exactly_iff`**: the rows of an accepted file do exactly when no frame is padded.
- **`not_exactly`**: an accepted file whose first frame ends in the second.
-/

namespace Carv2

open Copying Fallible Tee

/-! ## Numbers -/

/-- The number at the start, and the bytes it takes. -/
def varintAt : Bytes → Option (Nat × Nat)
  | [] => none
  | b :: bs =>
    if b < 0x80 then some (b.toNat, 1)
    else (varintAt bs).map fun r => (b.toNat % 128 + 128 * r.1, r.2 + 1)

/-- The spelling of a number. -/
def IsVarint (part : Bytes) (value : Nat) : Prop :=
  ∀ rest, varintAt (part ++ rest) = some (value, part.length)

theorem IsVarint.last {b : UInt8} (h : b < 0x80) : IsVarint [b] b.toNat := by
  intro rest
  simp [varintAt, h]

theorem IsVarint.cons {b : UInt8} (h : ¬ b < 0x80) {part : Bytes} {value : Nat} (hp : IsVarint part value) :
    IsVarint (b :: part) (b.toNat % 128 + 128 * value) := by
  intro rest
  simp [varintAt, h, hp rest]

/-- From `s` to `s'` the part was read. -/
def Between (s s' : Tape UInt8) (part : Bytes) : Prop := s.rest = part ++ s'.rest ∧ s'.done = s.done ++ part

theorem Between.refl (s : Tape UInt8) : Between s s [] := ⟨rfl, (List.append_nil _).symm⟩

theorem Between.trans {s s' s'' : Tape UInt8} {part part' : Bytes} (h : Between s s' part)
    (h' : Between s' s'' part') : Between s s'' (part ++ part') := by
  refine ⟨?_, ?_⟩
  · rw [h.1, h'.1, List.append_assoc]
  · rw [h'.2, h.2, List.append_assoc]

theorem between_next {e : Error} {s s' : Tape UInt8} {b : UInt8} (h : next e s = .ok (b, s')) :
    Between s s' [b] := by
  obtain ⟨rest, done⟩ := s
  cases rest with
  | nil => cases h
  | cons x rest =>
    obtain ⟨rfl, rfl⟩ := Prod.mk.inj (Except.ok.inj h)
    exact ⟨rfl, rfl⟩

theorem between_take {n : Nat} {e : Error} {s s' : Tape UInt8} {part : Bytes} (h : take n e s = .ok (part, s')) :
    Between s s' part ∧ part.length = n := by
  obtain ⟨hlen, hrest, hdone⟩ := run_take_eq_ok.mp h
  exact ⟨⟨hrest, hdone⟩, hlen⟩

/-- One more byte of a number. -/
theorem digit_or {value shift : Nat} (b : UInt8) (h : value < 2 ^ shift) :
    value ||| (b.toNat &&& 0x7f) <<< shift = value + b.toNat % 128 * 2 ^ shift ∧
      value + b.toNat % 128 * 2 ^ shift < 2 ^ (shift + 7) := by
  have hmask : b.toNat &&& 0x7f = b.toNat % 128 := Nat.and_two_pow_sub_one_eq_mod b.toNat 7
  have hdigit : b.toNat % 128 < 128 := Nat.mod_lt _ (by decide)
  constructor
  · rw [hmask, Nat.or_comm, ← Nat.shiftLeft_add_eq_or_of_lt h, Nat.shiftLeft_eq, Nat.add_comm]
  · calc value + b.toNat % 128 * 2 ^ shift < 2 ^ shift + b.toNat % 128 * 2 ^ shift := Nat.add_lt_add_right h _
      _ = (b.toNat % 128 + 1) * 2 ^ shift := by rw [Nat.succ_mul, Nat.add_comm]
      _ ≤ 128 * 2 ^ shift := Nat.mul_le_mul_right _ hdigit
      _ = 2 ^ (shift + 7) := by rw [Nat.pow_add, Nat.mul_comm]

/-- The loop over the bytes of a number. -/
theorem readVarint_between {truncated invalid : String} {n value shift length : Nat} {s s' : Tape UInt8}
    {r : Nat × Nat} (h : readVarint truncated invalid n value shift length s = .ok (r, s'))
    (hvalue : value < 2 ^ shift) :
    ∃ part x, Between s s' part ∧ IsVarint part x ∧ r = (value + x * 2 ^ shift, length + part.length) := by
  induction n generalizing value shift length s with
  | zero => cases h
  | succ n ih =>
    obtain ⟨b, s₁, hb, h⟩ := run_bind_eq_ok.mp h
    obtain ⟨hor, hlt⟩ := digit_or b hvalue
    by_cases hlast : b < 0x80
    · rw [if_pos hlast] at h
      obtain ⟨rfl, rfl⟩ := Prod.mk.inj (Except.ok.inj h)
      refine ⟨[b], b.toNat, between_next hb, .last hlast, ?_⟩
      have hsmall : b.toNat < 128 := UInt8.lt_iff_toNat_lt.mp hlast
      rw [hor, Nat.mod_eq_of_lt hsmall]
      rfl
    · rw [if_neg hlast, hor] at h
      obtain ⟨part, x, hs, hx, rfl⟩ := ih h hlt
      refine ⟨b :: part, _, (between_next hb).trans hs, .cons hlast hx, ?_⟩
      have hmore : (b.toNat % 128 + 128 * x) * 2 ^ shift = b.toNat % 128 * 2 ^ shift + x * 2 ^ (shift + 7) := by
        rw [Nat.add_mul, Nat.pow_add, Nat.mul_comm 128 x, Nat.mul_assoc, Nat.mul_comm 128]
      refine Prod.ext ?_ ?_
      · rw [hmore, Nat.add_assoc]
      · show length + 1 + part.length = length + (b :: part).length
        rw [List.length_cons]
        omega

theorem readUvarint_between {limit : Nat} {s s' : Tape UInt8} {r : Nat × Nat}
    (h : readUvarint limit s = .ok (r, s')) : ∃ part, Between s s' part ∧ IsVarint part r.1 ∧ r.2 = part.length := by
  obtain ⟨⟨value, length⟩, s₁, hread, h₁⟩ := run_bind_eq_ok.mp h
  obtain ⟨_, s₂, hlimit, h₂⟩ := run_bind_eq_ok.mp h₁
  obtain ⟨-, rfl⟩ := run_require_eq_ok.mp hlimit
  obtain ⟨rfl, rfl⟩ := Prod.mk.inj (Except.ok.inj h₂)
  obtain ⟨part, x, hs, hx, hr⟩ := readVarint_between hread (Nat.one_pos)
  obtain ⟨rfl, rfl⟩ := Prod.mk.inj hr
  exact ⟨part, hs, by simpa using hx, by simp⟩

/-! ## Frames -/

/-- A CID with a SHA2-256 digest, and how many bytes its digest length has to spare where the
reader does not look for them. -/
inductive IsCid : Bytes → Bytes → Nat → Prop where
  | v0 {size digest : Bytes} : IsVarint size 32 → IsCid (0x12 :: (size ++ digest)) digest (size.length - 1)
  | v1 {codec code size digest : Bytes} {c : Nat} : IsVarint codec c → IsVarint code sha2_256 →
      IsVarint size 32 → IsCid (1 :: (codec ++ (code ++ (size ++ digest)))) digest 0

theorem uvarint_digestSize : (uvarint 32).length = 1 := by
  rw [uvarint]
  rfl

/-- What is read of a CID in front of its digest. -/
theorem multihash_between (digest : Bytes) {first : UInt8} {s s' : Tape UInt8} {mh : Multihash}
    (h : multihash first s = .ok (mh, s')) (hsize : mh.digestSize = 32) (hcode : mh.mhCode = sha2_256) :
    ∃ part spare, Between s s' part ∧ IsCid (first :: (part ++ digest)) digest spare ∧
      mh.cidSize + spare = part.length + 1 := by
  unfold multihash at h
  split at h
  next hfirst =>
    obtain rfl : first = 0x12 := UInt8.toNat_inj.mp hfirst
    obtain ⟨r, s₁, hread, h⟩ := run_bind_eq_ok.mp h
    obtain ⟨rfl, rfl⟩ := Prod.mk.inj (Except.ok.inj h)
    obtain ⟨part, hs, hv, -⟩ := readUvarint_between hread
    obtain hsize : r.1 = 32 := hsize
    rw [hsize] at hv
    have hne : 0 < part.length := by
      cases part with
      | nil =>
        have := hv []
        cases this
      | cons => exact Nat.succ_pos _
    refine ⟨part, part.length - 1, hs, .v0 hv, ?_⟩
    show 1 + (uvarint r.1).length + (part.length - 1) = part.length + 1
    rw [hsize, uvarint_digestSize]
    omega
  next =>
    obtain ⟨_, s₁, hone, h₁⟩ := run_bind_eq_ok.mp h
    obtain ⟨rfl, rfl⟩ := run_require_eq_ok.mp hone
    obtain ⟨version, s₂, hversion, h₂⟩ := run_bind_eq_ok.mp h₁
    obtain ⟨rfl, rfl⟩ := Prod.mk.inj (Except.ok.inj hversion)
    obtain ⟨_, s₃, hv, h₃⟩ := run_bind_eq_ok.mp h₂
    obtain ⟨-, rfl⟩ := run_require_eq_ok.mp hv
    obtain ⟨codec, s₄, hcodec, h₄⟩ := run_bind_eq_ok.mp h₃
    obtain ⟨code, s₅, hmh, h₅⟩ := run_bind_eq_ok.mp h₄
    obtain ⟨size, s₆, hdigest, h₆⟩ := run_bind_eq_ok.mp h₅
    obtain ⟨rfl, rfl⟩ := Prod.mk.inj (Except.ok.inj h₆)
    obtain ⟨part₁, hs₁, hv₁, hl₁⟩ := readUvarint_between hcodec
    obtain ⟨part₂, hs₂, hv₂, hl₂⟩ := readUvarint_between hmh
    obtain ⟨part₃, hs₃, hv₃, hl₃⟩ := readUvarint_between hdigest
    obtain hsize : size.1 = 32 := hsize
    obtain hcode : code.1 = sha2_256 := hcode
    rw [hcode] at hv₂
    rw [hsize] at hv₃
    refine ⟨part₁ ++ (part₂ ++ part₃), 0, hs₁.trans (hs₂.trans hs₃), ?_, ?_⟩
    · rw [List.append_assoc, List.append_assoc]
      exact .v1 hv₁ hv₂ hv₃
    · show 1 + codec.2 + code.2 + size.2 + 0 = (part₁ ++ (part₂ ++ part₃)).length + 1
      rw [hl₁, hl₂, hl₃, List.length_append, List.length_append]
      omega

section Frames

variable {sha256 : Bytes → Bytes} {total : Nat}

/-- The bytes that a frame consumes, from its offset on: what the reader takes for its length
is what is declared, and the spare bytes of the CID. -/
inductive FramePart (sha256 : Bytes → Bytes) (offset : Nat) : Bytes → Row → Nat → Prop where
  | mk {size cid digest payload : Bytes} {declared spare : Nat} : IsVarint size declared →
      IsCid cid digest spare → sha256 payload = digest → cid.length + payload.length = declared + spare →
      FramePart sha256 offset (size ++ (cid ++ payload)) ⟨sha2_256, digest, offset⟩ spare

theorem IsCid.length {cid digest : Bytes} {spare : Nat} (h : IsCid cid digest spare) : 0 < cid.length := by
  cases h <;> exact Nat.succ_pos _

theorem frame_between {s s' : Tape UInt8} {row : Row} (h : frame sha256 total s = .ok (row, s')) :
    ∃ part spare, Between s s' part ∧ FramePart sha256 s.done.length part row spare := by
  obtain ⟨offset, s₁, hcount, h₁⟩ := run_bind_eq_ok.mp h
  obtain ⟨rfl, rfl⟩ := Prod.mk.inj (Except.ok.inj hcount)
  obtain ⟨⟨declared, _⟩, s₂, hsize, h₂⟩ := run_bind_eq_ok.mp h₁
  obtain ⟨written, s₃, hcount', h₃⟩ := run_bind_eq_ok.mp h₂
  obtain ⟨rfl, rfl⟩ := Prod.mk.inj (Except.ok.inj hcount')
  obtain ⟨_, s₄, hfits, h₄⟩ := run_bind_eq_ok.mp h₃
  obtain ⟨-, rfl⟩ := run_require_eq_ok.mp hfits
  obtain ⟨first, s₅, hfirst, h₅⟩ := run_bind_eq_ok.mp h₄
  obtain ⟨mh, s₆, hmh, h₆⟩ := run_bind_eq_ok.mp h₅
  obtain ⟨_, s₇, hsha, h₇⟩ := run_bind_eq_ok.mp h₆
  obtain ⟨⟨hdigestSize, hcode⟩, rfl⟩ := run_require_eq_ok.mp hsha
  obtain ⟨digest, s₈, hdigest, h₈⟩ := run_bind_eq_ok.mp h₇
  obtain ⟨_, s₉, hcidSize, h₉⟩ := run_bind_eq_ok.mp h₈
  obtain ⟨hcidFits, rfl⟩ := run_require_eq_ok.mp hcidSize
  obtain ⟨payload, s₁₀, hpayload, h₁₀⟩ := run_bind_eq_ok.mp h₉
  obtain ⟨_, s₁₁, hhash, h₁₁⟩ := run_bind_eq_ok.mp h₁₀
  obtain ⟨hpayloadDigest, rfl⟩ := run_require_eq_ok.mp hhash
  obtain ⟨rfl, rfl⟩ := Prod.mk.inj (Except.ok.inj h₁₁)
  obtain ⟨size, hs₁, hv, -⟩ := readUvarint_between hsize
  obtain ⟨part, spare, hs₂, hcid, hlen⟩ := multihash_between digest hmh hdigestSize hcode
  obtain ⟨hs₃, hdlen⟩ := between_take hdigest
  obtain ⟨hs₄, hplen⟩ := between_take hpayload
  have hbetween := hs₁.trans ((((between_next hfirst).trans hs₂).trans hs₃).trans hs₄)
  refine ⟨_, spare, hbetween, ?_⟩
  rw [hcode]
  refine .mk hv hcid hpayloadDigest ?_
  have hcidlen : (first :: (part ++ digest)).length = part.length + 1 + digest.length := by
    rw [List.length_cons, List.length_append]
    omega
  rw [List.cons_append, List.nil_append, List.cons_append, hcidlen, hplen]
  omega

/-- Frame after frame. -/
inductive Parts (sha256 : Bytes → Bytes) : Nat → Bytes → List Row → Prop where
  | nil {offset : Nat} : Parts sha256 offset [] []
  | cons {offset spare : Nat} {part bytes : Bytes} {row : Row} {rows : List Row} :
      FramePart sha256 offset part row spare → Parts sha256 (offset + part.length) bytes rows →
      Parts sha256 offset (part ++ bytes) (row :: rows)

/-- The loop reads nothing but frames. -/
theorem frames_between {n : Nat} {rows rows' : List Row} {s s' : Tape UInt8}
    (h : frames sha256 total n rows s = .ok (rows', s')) :
    ∃ bytes new, Between s s' bytes ∧ rows' = rows ++ new ∧ Parts sha256 s.done.length bytes new := by
  induction n generalizing rows s with
  | zero =>
    unfold frames at h
    obtain ⟨written, s₁, hcount, h₁⟩ := run_bind_eq_ok.mp h
    obtain ⟨rfl, rfl⟩ := Prod.mk.inj (Except.ok.inj hcount)
    split at h₁
    · obtain ⟨row, s₂, -, h₂⟩ := run_bind_eq_ok.mp h₁
      cases h₂
    · obtain ⟨rfl, rfl⟩ := Prod.mk.inj (Except.ok.inj h₁)
      exact ⟨[], [], .refl s, (List.append_nil rows).symm, .nil⟩
  | succ n ih =>
    unfold frames at h
    obtain ⟨written, s₁, hcount, h₁⟩ := run_bind_eq_ok.mp h
    obtain ⟨rfl, rfl⟩ := Prod.mk.inj (Except.ok.inj hcount)
    split at h₁
    · obtain ⟨row, s₂, hrow, h₂⟩ := run_bind_eq_ok.mp h₁
      obtain ⟨part, spare, hs, hpart⟩ := frame_between hrow
      obtain ⟨bytes, new, hs', rfl, hparts⟩ := ih h₂
      rw [hs.2, List.length_append] at hparts
      exact ⟨part ++ bytes, row :: new, hs.trans hs', by simp, .cons hpart hparts⟩
    · obtain ⟨rfl, rfl⟩ := Prod.mk.inj (Except.ok.inj h₁)
      exact ⟨[], [], .refl s, (List.append_nil rows).symm, .nil⟩

/-- **An accepted file**: a header, and frame after frame to its end. -/
theorem copyCarv1Payload_parts {source destination out : Bytes} {m startOffset : Nat} {requireEof : Bool}
    {rows : List Row}
    (h : copyCarv1Payload sha256 source destination total m startOffset requireEof = .ok (rows, out)) :
    ∃ size header bytes, (source.drop startOffset).take total = size ++ header ++ bytes ∧
      IsVarint size header.length ∧ Parts sha256 (size.length + header.length) bytes rows := by
  obtain ⟨tape, hpayload, htotal, -, -, -⟩ := copyCarv1Payload_eq_ok.mp h
  obtain ⟨⟨headerSize, _⟩, s₁, hsize, h₁⟩ := run_bind_eq_ok.mp hpayload
  obtain ⟨_, s₂, hfits, h₂⟩ := run_bind_eq_ok.mp h₁
  obtain ⟨-, rfl⟩ := run_require_eq_ok.mp hfits
  obtain ⟨header, s₃, hheader, h₃⟩ := run_bind_eq_ok.mp h₂
  obtain ⟨size, hs₁, hv, -⟩ := readUvarint_between hsize
  obtain ⟨hs₂, hlen⟩ := between_take hheader
  obtain ⟨bytes, new, hs₃, rfl, hparts⟩ := frames_between h₃
  obtain ⟨hrest, hdone⟩ := (hs₁.trans hs₂).trans hs₃
  have hdone' : tape.done = size ++ header ++ bytes := by simpa using hdone
  refine ⟨size, header, bytes, ?_, hlen ▸ hv, ?_⟩
  · rw [show source.drop startOffset = size ++ header ++ bytes ++ tape.rest from hrest, ← hdone', ← htotal,
      List.take_left]
  · have hstart : s₃.done.length = size.length + header.length := by
      rw [(hs₁.trans hs₂).2, List.nil_append, List.length_append]
    rw [hstart] at hparts
    exact hparts

/-! ## What the frames declare -/

/-- Where the frames begin from `offset` on, each behind what the one before it declares. -/
def offsetsFrom (d : Bytes) : Nat → Nat → List Nat
  | 0, _ => []
  | n + 1, offset =>
    if offset < d.length then
      match varintAt (d.drop offset) with
      | some (declared, k) => offset :: offsetsFrom d n (offset + k + declared)
      | none => []
    else []

/-- Where the frames of a file begin, by the lengths that the file declares. -/
def frameOffsets (d : Bytes) : List Nat :=
  match varintAt d with
  | some (header, k) => offsetsFrom d d.length (k + header)
  | none => []

/-- At `offset` there is a frame with a CID without a version, and the length of its digest is
written in more than one byte. -/
def paddedV0 (d : Bytes) (offset : Nat) : Bool :=
  match varintAt (d.drop offset) with
  | some (_, k) =>
    match d.drop (offset + k) with
    | first :: rest => first == 0x12 && ((varintAt rest).map fun r => decide (1 < r.2)).getD false
    | [] => false
  | none => false

/-- The row names a frame that ends, where the next begins, behind the bytes that it declares;
these are a CID and a payload with its digest. -/
def Exact (sha256 : Bytes → Bytes) (d : Bytes) (row : Row) (next : Nat) : Prop :=
  ∃ declared k cid payload spare, varintAt (d.drop row.offset) = some (declared, k) ∧
    next = row.offset + k + declared ∧ (d.drop (row.offset + k)).take declared = cid ++ payload ∧
    cid.length + payload.length = declared ∧ IsCid cid row.digest spare ∧ row.code = sha2_256 ∧
    sha256 payload = row.digest

/-- The next frame, or the end of the data. -/
def nextOffset (d : Bytes) (rows : List Row) : Nat := (rows.head?.map Row.offset).getD d.length

/-- **Frame integrity**: every row is exact up to the next. -/
def Exactly (sha256 : Bytes → Bytes) (d : Bytes) : List Row → Prop
  | [] => True
  | row :: rows => Exact sha256 d row (nextOffset d rows) ∧ Exactly sha256 d rows

theorem IsVarint.at {part rest : Bytes} {value : Nat} (h : IsVarint part value) :
    varintAt (part ++ rest) = some (value, part.length) := h rest

theorem IsVarint.length_pos {part : Bytes} {value : Nat} (h : IsVarint part value) : 0 < part.length := by
  cases part with
  | nil =>
    have hempty : varintAt ([] ++ []) = some (value, 0) := h []
    cases hempty
  | cons => exact Nat.succ_pos _

theorem nextOffset_parts {offset : Nat} {before bytes : Bytes} {rows : List Row} (hbefore : before.length = offset)
    (h : Parts sha256 offset bytes rows) : nextOffset (before ++ bytes) rows = offset := by
  cases h with
  | nil =>
    rw [List.append_nil]
    exact hbefore
  | cons hpart _ =>
    cases hpart
    rfl

section One

variable {offset spare : Nat} {before part bytes : Bytes} {row : Row}

/-- A frame is padded when its CID has bytes to spare. -/
theorem paddedV0_iff (hbefore : before.length = offset) (h : FramePart sha256 offset part row spare) :
    paddedV0 (before ++ (part ++ bytes)) offset = true ↔ 0 < spare := by
  obtain ⟨hv, hcid, -, -⟩ := h
  rename_i size cid digest payload declared
  subst hbefore
  rw [paddedV0, List.drop_left, List.append_assoc, hv.at]
  dsimp only
  rw [← List.drop_drop, List.drop_left, List.drop_left]
  cases hcid with
  | v0 hsize =>
    rename_i digestSize
    simp only [List.cons_append, List.append_assoc, hsize.at]
    change decide (1 < digestSize.length) = true ↔ 0 < digestSize.length - 1
    rw [decide_eq_true_iff, Nat.sub_pos_iff_lt]
  | v1 => simp

/-- A frame ends where it declares exactly when its CID has no byte to spare. -/
theorem exact_iff (hbefore : before.length = offset) (h : FramePart sha256 offset part row spare) :
    Exact sha256 (before ++ (part ++ bytes)) row (offset + part.length) ↔ spare = 0 := by
  obtain ⟨hv, hcid, hpayload, hlen⟩ := h
  rename_i size cid digest payload declared
  subst hbefore
  have hat : varintAt ((before ++ (size ++ (cid ++ payload) ++ bytes)).drop before.length) =
      some (declared, size.length) := by
    rw [List.drop_left, List.append_assoc, hv.at]
  constructor
  · rintro ⟨declared', k, -, -, -, hat', hnext, -⟩
    obtain ⟨rfl, rfl⟩ := Prod.mk.inj (Option.some.inj (hat.symm.trans hat'))
    simp only [List.length_append] at hnext
    omega
  · rintro rfl
    refine ⟨declared, size.length, cid, payload, 0, hat, ?_, ?_, hlen, hcid, rfl, hpayload⟩
    · simp only [List.length_append]
      omega
    · rw [← List.drop_drop, List.drop_left, List.append_assoc, List.drop_left,
        List.take_left' (by rw [List.length_append]; exact hlen)]

end One

theorem FramePart.length_pos {offset spare : Nat} {part : Bytes} {row : Row}
    (h : FramePart sha256 offset part row spare) : 0 < part.length := by
  obtain ⟨hv, -, -, -⟩ := h
  have := hv.length_pos
  rw [List.length_append]
  omega

/-- Where a frame ends by its own length, unless it is padded. -/
theorem offsetsFrom_part {offset n : Nat} {before part bytes : Bytes} {row : Row} (hbefore : before.length = offset)
    (h : FramePart sha256 offset part row 0) :
    offsetsFrom (before ++ (part ++ bytes)) (n + 1) offset =
      offset :: offsetsFrom (before ++ (part ++ bytes)) n (offset + part.length) := by
  have hpos := h.length_pos
  obtain ⟨hv, hcid, hpayload, hlen⟩ := h
  subst hbefore
  rw [offsetsFrom, if_pos (by simp only [List.length_append] at hpos ⊢; omega), List.drop_left, List.append_assoc, hv.at]
  simp only [List.length_append, Nat.add_assoc, hlen, Nat.add_zero]

/-- A padded frame is one of those that are looked at. -/
theorem mem_offsetsFrom {offset n : Nat} {before part bytes : Bytes} {row : Row} {spare : Nat}
    (hbefore : before.length = offset) (h : FramePart sha256 offset part row spare) :
    offset ∈ offsetsFrom (before ++ (part ++ bytes)) (n + 1) offset := by
  have hpos := h.length_pos
  obtain ⟨hv, hcid, hpayload, hlen⟩ := h
  subst hbefore
  rw [offsetsFrom, if_pos (by simp only [List.length_append] at hpos ⊢; omega), List.drop_left, List.append_assoc, hv.at]
  exact .head _

/-- The frames are exact up to the first one that is padded. -/
theorem exactly_iff_parts {offset n : Nat} {bytes : Bytes} {rows : List Row} (h : Parts sha256 offset bytes rows)
    {before : Bytes} (hbefore : before.length = offset) (hn : bytes.length ≤ n) :
    Exactly sha256 (before ++ bytes) rows ↔
      ∀ o ∈ offsetsFrom (before ++ bytes) n offset, paddedV0 (before ++ bytes) o = false := by
  induction h generalizing before n with
  | nil =>
    refine ⟨fun _ o ho => ?_, fun _ => trivial⟩
    subst hbefore
    cases n with
    | zero => cases ho
    | succ n => simp [offsetsFrom] at ho
  | @cons offset spare part bytes row rows hpart hparts ih =>
    have hpos := hpart.length_pos
    obtain ⟨n, rfl⟩ : ∃ k, n = k + 1 := ⟨n - 1, by rw [List.length_append] at hn; omega⟩
    have hnext : nextOffset (before ++ (part ++ bytes)) rows = offset + part.length := by
      rw [← List.append_assoc]
      exact nextOffset_parts (by rw [List.length_append, hbefore]) hparts
    rw [Exactly, hnext, exact_iff hbefore hpart]
    obtain rfl | hspare := Nat.eq_zero_or_pos spare
    · have hclean : paddedV0 (before ++ (part ++ bytes)) offset = false := by
        rw [Bool.eq_false_iff]
        intro hpadded
        exact absurd ((paddedV0_iff hbefore hpart).mp hpadded) (Nat.lt_irrefl 0)
      have ih : Exactly sha256 (before ++ part ++ bytes) rows ↔
          ∀ o ∈ offsetsFrom (before ++ part ++ bytes) n (offset + part.length),
            paddedV0 (before ++ part ++ bytes) o = false :=
        ih (by rw [List.length_append, hbefore]) (by rw [List.length_append] at hn; omega)
      rw [List.append_assoc] at ih
      rw [offsetsFrom_part hbefore hpart, List.forall_mem_cons, ih]
      simp [hclean]
    · constructor
      · rintro ⟨rfl, -⟩
        exact absurd hspare (Nat.lt_irrefl 0)
      · intro hall
        have hclean := hall offset (mem_offsetsFrom hbefore hpart)
        rw [(paddedV0_iff hbefore hpart).mpr hspare] at hclean
        cases hclean

end Frames

/-- **Frame integrity**: the rows of an accepted file name frames that consume what they
declare exactly when no CID without a version has its digest length padded. -/
theorem exactly_iff (sha256 : Bytes → Bytes) {source destination out : Bytes} {total m startOffset : Nat}
    {requireEof : Bool} {rows : List Row}
    (h : copyCarv1Payload sha256 source destination total m startOffset requireEof = .ok (rows, out)) :
    Exactly sha256 ((source.drop startOffset).take total) rows ↔
      ∀ o ∈ frameOffsets ((source.drop startOffset).take total),
        paddedV0 ((source.drop startOffset).take total) o = false := by
  obtain ⟨size, header, bytes, hd, hv, hparts⟩ := copyCarv1Payload_parts h
  have hstart : frameOffsets ((source.drop startOffset).take total) =
      offsetsFrom (size ++ header ++ bytes) (size ++ header ++ bytes).length (size.length + header.length) := by
    rw [frameOffsets, hd, List.append_assoc, hv.at]
  rw [hstart, hd]
  refine exactly_iff_parts hparts (List.length_append ..) ?_
  rw [List.length_append]
  exact Nat.le_add_left _ _

namespace Sample

/-- Two frames with the empty block; the first writes the length of its digest in two bytes. -/
def paddedCar : Bytes := [1, 0xa0] ++ ([34, 0x12, 0xa0, 0] ++ emptyDigest) ++ ([34, 0x12, 32] ++ emptyDigest)

theorem copy_car : copyCarv1Payload sha256 car [] 37 1 0 true = .ok ([⟨sha2_256, emptyDigest, 2⟩], car) := by
  decide +kernel

theorem copy_paddedCar : copyCarv1Payload sha256 paddedCar [] 73 2 0 true =
    .ok ([⟨sha2_256, emptyDigest, 2⟩, ⟨sha2_256, emptyDigest, 38⟩], paddedCar) := by
  decide +kernel

end Sample

/-- A CAR of one empty block. -/
theorem exactly_iff_car : Exactly Sample.sha256 ((Sample.car.drop 0).take 37) [⟨sha2_256, Sample.emptyDigest, 2⟩] ↔
    ∀ o ∈ frameOffsets ((Sample.car.drop 0).take 37), paddedV0 ((Sample.car.drop 0).take 37) o = false :=
  exactly_iff Sample.sha256 Sample.copy_car

/-- **A padded digest length**: the first frame declares 34 bytes, and takes one of the next
frame as its own. -/
theorem not_exactly : ¬ ∀ (sha256 : Bytes → Bytes) (source destination out : Bytes) (total m startOffset : Nat)
    (requireEof : Bool) (rows : List Row),
      copyCarv1Payload sha256 source destination total m startOffset requireEof = .ok (rows, out) →
        Exactly sha256 ((source.drop startOffset).take total) rows := by
  intro h
  obtain ⟨⟨declared, k, -, -, -, hat, hnext, -⟩, -⟩ := h _ _ _ _ _ _ _ _ _ Sample.copy_paddedCar
  have hat' : varintAt (((Sample.paddedCar.drop 0).take 73).drop 2) = some (34, 1) := by decide +kernel
  obtain ⟨rfl, rfl⟩ := Prod.mk.inj (Option.some.inj (hat'.symm.trans hat))
  cases hnext

end Carv2
