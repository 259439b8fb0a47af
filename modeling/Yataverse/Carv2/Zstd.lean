import Yataverse.Carv2.Format

/-!
# The declared size of a Zstandard frame

- `FrameHeader`: the header of a frame that declares the size of its content, and how it
  is written.
- `zstdFrameContentSize`: how `carv2_zstd.py` reads the size off a file.
- `zstdFrameContentSize_encode`: it reads what the header declares.
- `IsZstd`: what the tool relies on of the `zstd` program.
-/

namespace Carv2

open Copying Fallible

/-- `zstd_frame_content_size`. -/
def zstdFrameContentSize (file : Bytes) : Except Error Nat := do
  let head := file.take 18
  require (5 ≤ head.length ∧ head.take 4 = [0x28, 0xb5, 0x2f, 0xfd])
    (.archive "input is not a regular Zstandard frame")
  let descriptor := (head.getD 4 0).toNat
  require (descriptor &&& 0x18 = 0) (.archive "Zstandard frame has reserved descriptor bits")
  let fcsFlag := descriptor >>> 6
  let singleSegment := descriptor &&& 0x20 ≠ 0
  let dictFlag := descriptor &&& 0x03
  let offset := 5 + (if singleSegment then 0 else 1) + [0, 1, 2, 4].getD dictFlag 0
  let fcsWidth :=
    if fcsFlag = 0 then (if singleSegment then 1 else 0) else [2, 4, 8].getD (fcsFlag - 1) 0
  require (fcsWidth ≠ 0 ∧ offset + fcsWidth ≤ head.length)
    (.archive "Zstandard frame does not declare its content size")
  let size := ofLE ((head.drop offset).take fcsWidth)
  return if fcsWidth = 2 then size + 256 else size

/-! ## Frame headers -/

/-- How wide the dictionary id of a frame is. -/
def dictWidth (flag : Fin 4) : Nat := [0, 1, 2, 4].getD flag 0

/-- How wide the declared size of a frame is. -/
def sizeWidth (singleSegment : Bool) (flag : Fin 4) : Nat :=
  if (flag : Nat) = 0 then (if singleSegment then 1 else 0) else [2, 4, 8].getD (flag - 1 : Nat) 0

/-- What is taken off a size before it is written: 256 where it is two bytes wide. -/
def sizeBias (width : Nat) : Nat := if width = 2 then 256 else 0

/-- The header of a frame that declares the size of its content. -/
structure FrameHeader where
  sizeFlag : Fin 4
  singleSegment : Bool
  checksum : Bool
  dictFlag : Fin 4
  window : UInt8
  dictionary : Bytes
  contentSize : Nat
  dictionary_length : dictionary.length = dictWidth dictFlag
  declared : sizeWidth singleSegment sizeFlag ≠ 0
  biased : sizeBias (sizeWidth singleSegment sizeFlag) ≤ contentSize
  fits : contentSize - sizeBias (sizeWidth singleSegment sizeFlag) <
    256 ^ sizeWidth singleSegment sizeFlag

namespace FrameHeader

variable (h : FrameHeader)

def descriptor : Nat :=
  h.sizeFlag * 64 + h.singleSegment.toNat * 32 + h.checksum.toNat * 4 + h.dictFlag

/-- The width of the declared size. -/
def width : Nat := sizeWidth h.singleSegment h.sizeFlag

/-- The header as bytes. A single-segment frame has no window. -/
def encode : Bytes :=
  [0x28, 0xb5, 0x2f, 0xfd] ++ [UInt8.ofNat h.descriptor] ++
    (if h.singleSegment then [] else [h.window]) ++ h.dictionary ++
    bytesLE h.width (h.contentSize - sizeBias h.width)

/-- The fields that are read off the descriptor. -/
theorem descriptor_fields (sizeFlag dictFlag : Fin 4) (singleSegment checksum : Bool) :
    let descriptor := (UInt8.ofNat (sizeFlag * 64 + singleSegment.toNat * 32 + checksum.toNat * 4 +
      dictFlag)).toNat
    descriptor &&& 0x18 = 0 ∧ descriptor >>> 6 = sizeFlag ∧
      (descriptor &&& 0x20 ≠ 0 ↔ singleSegment = true) ∧ descriptor &&& 0x03 = dictFlag := by
  revert sizeFlag dictFlag singleSegment checksum
  decide

/-- The bytes before the declared size. -/
def lead : Bytes :=
  [0x28, 0xb5, 0x2f, 0xfd, UInt8.ofNat h.descriptor] ++
    (if h.singleSegment then [] else [h.window]) ++ h.dictionary

theorem encode_eq : h.encode = h.lead ++ bytesLE h.width (h.contentSize - sizeBias h.width) := by
  simp [encode, lead]

theorem lead_length :
    h.lead.length = 5 + (if h.singleSegment = true then 0 else 1) + dictWidth h.dictFlag := by
  rw [lead, List.length_append, List.length_append, h.dictionary_length]
  split <;> rfl

theorem encode_length_le : h.encode.length ≤ 18 := by
  have hdict : ∀ flag, dictWidth flag ≤ 4 := by decide
  have hsize : ∀ single flag, sizeWidth single flag ≤ 8 := by decide
  have h₁ := hdict h.dictFlag
  have h₂ := hsize h.singleSegment h.sizeFlag
  rw [encode_eq, List.length_append, length_bytesLE, lead_length, width]
  split <;> omega

end FrameHeader

/-- **The size that is read is the size that is declared.** -/
theorem zstdFrameContentSize_encode (h : FrameHeader) (rest : Bytes) :
    zstdFrameContentSize (h.encode ++ rest) = .ok h.contentSize := by
  obtain ⟨hreserved, hflag, hsingle, hdict⟩ :=
    FrameHeader.descriptor_fields h.sizeFlag h.dictFlag h.singleSegment h.checksum
  rw [← FrameHeader.descriptor] at hreserved hflag hsingle hdict
  have hhead : (h.encode ++ rest).take 18 =
      h.lead ++ (bytesLE h.width (h.contentSize - sizeBias h.width) ++
        rest.take (18 - h.encode.length)) := by
    rw [List.take_append, List.take_of_length_le h.encode_length_le, h.encode_eq, List.append_assoc]
  have hsize : ofLE (bytesLE h.width (h.contentSize - sizeBias h.width)) =
      h.contentSize - sizeBias h.width := ofLE_bytesLE h.fits
  have hlead := h.lead_length
  simp only [zstdFrameContentSize, bind_eq_ok, require_eq_ok, exists_const, hhead]
  have hdesc : (h.lead ++ (bytesLE h.width (h.contentSize - sizeBias h.width) ++
      rest.take (18 - h.encode.length))).getD 4 0 = UInt8.ofNat h.descriptor := by
    simp [FrameHeader.lead]
  rw [hdesc, hreserved, hflag, hdict]
  simp only [hsingle]
  have hoffset : 5 + (if h.singleSegment = true then 0 else 1) +
      ([0, 1, 2, 4] : List Nat).getD h.dictFlag 0 = h.lead.length := hlead.symm
  have hwidth : (if (h.sizeFlag : Nat) = 0 then (if h.singleSegment = true then 1 else 0)
      else ([2, 4, 8] : List Nat).getD (h.sizeFlag - 1) 0) = h.width := by
    simp [FrameHeader.width, sizeWidth, Fin.val_eq_zero_iff]
  rw [hoffset, hwidth, List.drop_left, List.take_left' (length_bytesLE _ _), hsize]
  refine ⟨⟨?_, ?_⟩, trivial, ⟨h.declared, ?_⟩, ?_⟩
  · rw [List.length_append]
    omega
  · simp [FrameHeader.lead]
  · simp
  · have := h.biased
    rw [← FrameHeader.width, sizeBias] at this
    rw [sizeBias]
    split
    · rename_i hw
      rw [if_pos hw] at this
      rw [Nat.sub_add_cancel this]
      rfl
    · rfl

/-- What the tool relies on of `zstd`: it restores what it has compressed, and a frame it
writes declares the size of its content. -/
structure IsZstd (compress decompress : Bytes → Option Bytes) : Prop where
  lossless : ∀ b c, compress b = some c → decompress c = some b
  declares : ∀ b c, compress b = some c →
    ∃ (h : FrameHeader) (rest : Bytes), c = h.encode ++ rest ∧ h.contentSize = b.length

end Carv2
