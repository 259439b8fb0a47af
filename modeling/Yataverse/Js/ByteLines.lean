import Yataverse.Js.Lines
import Yataverse.Splitting.Pieces

/-!
# Lines of bytes

Decoding never takes a newline for a part of a character, nor makes one.

- `Midway`: what a partly read code point may be.
- **`splitOn_ofUtf8`**: the lines of a decoded text are the decoded lines.
-/

namespace Js

open Splitting

/-- A partly read code point: it needs bytes above ASCII, and will be no ASCII character, but at most U+10FFFF. -/
structure Partial.Midway (p : Partial) : Prop where
  one : 1 ≤ p.missing
  low : 0x80 ≤ p.lo
  least : 2 ≤ p.bits * 0x40 + (p.lo - 0x80)
  final : p.missing = 1 → 0x80 ≤ p.bits * 0x40 + (p.lo - 0x80)
  most : (p.bits * 0x40 + (p.hi - 0x80) + 1) * 0x40 ^ (p.missing - 1) ≤ 0x110000

/-- The state of the decoder. -/
def Midway (st : Option Partial) : Prop := ∀ p ∈ st, p.Midway

variable {st : Option Partial} {b n : Nat} {bs : Bytes}

theorem readBytes_cons {b : UInt8} :
    readBytes st (b :: bs) = (readByte st b.toNat).2 ++ readBytes (readByte st b.toNat).1 bs := by
  cases st with
  | none => rfl
  | some p => rfl

theorem newline_not_mem_unitsOf (h : 0x80 ≤ n) (h' : n < 0x110000) : (10 : UInt16) ∉ unitsOf n := by
  have hne : ∀ k : Nat, 0x80 ≤ k → k < 0x10000 → (10 : UInt16) ≠ k.toUInt16 := by
    intro k hk hk' heq
    have := congrArg UInt16.toNat heq
    rw [Nat.toUInt16_eq, UInt16.toNat_ofNat'] at this
    have h10 : (10 : UInt16).toNat = 10 := rfl
    omega
  unfold unitsOf
  split_ifs with hsmall
  · rw [List.mem_singleton]
    exact hne n h hsmall
  · rw [List.mem_cons, List.mem_singleton, not_or]
    exact ⟨hne _ (by omega) (by omega), hne _ (by omega) (by omega)⟩

theorem midway_some {missing bits lo hi : Nat} (hone : 1 ≤ missing) (hlow : 0x80 ≤ lo)
    (hleast : 2 ≤ bits * 0x40 + (lo - 0x80)) (hfinal : missing = 1 → 0x80 ≤ bits * 0x40 + (lo - 0x80))
    (hmost : (bits * 0x40 + (hi - 0x80) + 1) * 0x40 ^ (missing - 1) ≤ 0x110000) :
    Midway (some ⟨missing, bits, lo, hi⟩) := by
  rintro p hp
  obtain rfl := Option.some.inj hp
  exact ⟨hone, hlow, hleast, hfinal, hmost⟩

theorem midway_none : Midway none := fun _ hp => by cases hp

theorem readFirst_spec (hb : b < 256) : Midway (readFirst b).1 ∧ (b ≠ 10 → (10 : UInt16) ∉ (readFirst b).2) := by
  unfold readFirst
  split_ifs with h1 h2 h3 h4 h5 h6 h7 h8
  · refine ⟨midway_none, fun hne hmem => ?_⟩
    have := congrArg UInt16.toNat (List.mem_singleton.mp hmem)
    rw [Nat.toUInt16_eq, UInt16.toNat_ofNat'] at this
    have h10 : (10 : UInt16).toNat = 10 := rfl
    omega
  all_goals simp only [Bool.and_eq_true, decide_eq_true_eq] at *
  · exact ⟨midway_some (by omega) (by omega) (by omega) (by omega) (by norm_num; omega), fun _ => List.not_mem_nil⟩
  · exact ⟨midway_some (by omega) (by omega) (by omega) (by omega) (by norm_num), fun _ => List.not_mem_nil⟩
  · exact ⟨midway_some (by omega) (by omega) (by omega) (by omega) (by norm_num), fun _ => List.not_mem_nil⟩
  · exact ⟨midway_some (by omega) (by omega) (by omega) (by omega) (by norm_num; omega), fun _ => List.not_mem_nil⟩
  · exact ⟨midway_some (by omega) (by omega) (by omega) (by omega) (by norm_num), fun _ => List.not_mem_nil⟩
  · exact ⟨midway_some (by omega) (by omega) (by omega) (by omega) (by norm_num), fun _ => List.not_mem_nil⟩
  · exact ⟨midway_some (by omega) (by omega) (by omega) (by omega) (by norm_num; omega), fun _ => List.not_mem_nil⟩
  · exact ⟨midway_none, fun _ => by decide⟩

theorem readByte_spec (hst : Midway st) (hb : b < 256) :
    Midway (readByte st b).1 ∧ (b ≠ 10 → (10 : UInt16) ∉ (readByte st b).2) := by
  cases st with
  | none => exact readFirst_spec hb
  | some p =>
    obtain ⟨hone, hlow, hleast, hfinal, hmost⟩ := hst p rfl
    obtain ⟨missing, bits, lo, hi⟩ := p
    dsimp only at hone hlow hleast hfinal hmost
    rw [readByte]
    dsimp only
    split_ifs with hrange hlast
    · rw [Bool.and_eq_true, decide_eq_true_iff, decide_eq_true_iff] at hrange
      subst hlast
      rw [Nat.sub_self, pow_zero, Nat.mul_one] at hmost
      have := hfinal rfl
      refine ⟨midway_none, fun _ => ?_⟩
      dsimp only
      exact newline_not_mem_unitsOf (by omega) (by omega)
    · rw [Bool.and_eq_true, decide_eq_true_iff, decide_eq_true_iff] at hrange
      refine ⟨midway_some (by omega) (Nat.le_refl _) (by omega) (fun _ => by omega) ?_, fun _ => List.not_mem_nil⟩
      -- the next byte may be any continuation
      have hbits : (bits * 0x40 + (b - 0x80)) * 0x40 + (0xbf - 0x80) + 1 = (bits * 0x40 + (b - 0x80) + 1) * 0x40 := by
        omega
      have hpow : 0x40 * 0x40 ^ (missing - 1 - 1) = 0x40 ^ (missing - 1) := by
        rw [← pow_succ']
        congr 1
        omega
      rw [hbits, Nat.mul_assoc, hpow]
      exact (Nat.mul_le_mul_right _ (by omega)).trans hmost
    · obtain ⟨hmid, hnewline⟩ := readFirst_spec hb
      refine ⟨hmid, fun hne hmem => ?_⟩
      rcases List.mem_cons.mp hmem with h | h
      · revert h
        decide
      · exact hnewline hne h

/-- A newline ends what was read so far. -/
theorem readByte_newline (hst : Midway st) : readByte st 10 = (none, readBytes st [] ++ [10]) := by
  cases st with
  | none => rfl
  | some p =>
    have hlow := (hst p rfl).low
    rw [readByte, if_neg]
    · rfl
    · rw [Bool.and_eq_true, decide_eq_true_iff]
      omega

theorem splitOn_append {s t l : JsString} {ls : List JsString} (hs : (10 : UInt16) ∉ s) (ht : t.splitOn 10 = l :: ls) :
    (s ++ t).splitOn 10 = (s ++ l) :: ls := by
  induction s with
  | nil => exact ht
  | cons u s ih =>
    have hu : ¬ (u == 10) = true := fun h => hs (beq_iff_eq.mp h ▸ List.mem_cons_self)
    rw [List.cons_append, List.splitOn_cons_eq_if_modifyHead, if_neg hu, ih fun h => hs (List.mem_cons_of_mem _ h)]
    rfl

theorem splitOn_readBytes (hst : Midway st) {l : Bytes} {ls : List Bytes} (h : bs.splitOn 10 = l :: ls) :
    (readBytes st bs).splitOn 10 = readBytes st l :: ls.map ofUtf8 := by
  induction bs generalizing st l ls with
  | nil =>
    obtain ⟨rfl, rfl⟩ := List.cons.inj h
    cases st with
    | none => rfl
    | some p => rfl
  | cons b bs ih =>
    rw [List.splitOn_cons_eq_if_modifyHead] at h
    obtain ⟨l', ls', h'⟩ := List.exists_cons_of_ne_nil (List.splitOn_ne_nil 10 bs)
    by_cases hb : b = 10
    · subst hb
      rw [if_pos (beq_self_eq_true _), h'] at h
      obtain ⟨rfl, rfl⟩ := List.cons.inj h
      have hnewline : readByte st (10 : UInt8).toNat = (none, readBytes st [] ++ [10]) := readByte_newline hst
      have hsplit : (readBytes none bs).splitOn 10 = ofUtf8 l' :: ls'.map ofUtf8 := ih midway_none h'
      rw [readBytes_cons, hnewline, List.append_assoc, List.singleton_append, List.splitOn_append_cons_self, hsplit]
      have hflush : (readBytes st []).splitOn 10 = [readBytes st []] := by
        refine List.splitOn_eq_singleton ?_
        cases st with
        | none => exact List.not_mem_nil
        | some p =>
          rw [readBytes]
          decide
      rw [hflush]
      rfl
    · rw [if_neg fun heq => hb (beq_iff_eq.mp heq), h'] at h
      obtain ⟨rfl, rfl⟩ := List.cons.inj h
      obtain ⟨hmid, hno⟩ := readByte_spec hst b.toNat_lt
      have hne : b.toNat ≠ 10 := fun heq => hb (UInt8.toNat_inj.mp heq)
      rw [readBytes_cons, splitOn_append (hno hne) (ih hmid h')]
      rw [readBytes_cons]

/-- **The lines of a text** are those of its bytes. -/
theorem splitOn_ofUtf8 (bs : Bytes) : (ofUtf8 bs).splitOn 10 = (bs.splitOn 10).map ofUtf8 := by
  obtain ⟨l, ls, h⟩ := List.exists_cons_of_ne_nil (List.splitOn_ne_nil 10 bs)
  rw [ofUtf8, splitOn_readBytes midway_none h, h]
  rfl

theorem readFirst_ne_nil (h : (readFirst b).2 = []) : (readFirst b).1 ≠ none := by
  revert h
  unfold readFirst
  split_ifs <;> simp

theorem unitsOf_ne_nil : unitsOf n ≠ [] := by
  unfold unitsOf
  split_ifs <;> simp

/-- Where a byte makes no character, one has begun. -/
theorem readByte_ne_nil (h : (readByte st b).2 = []) : (readByte st b).1 ≠ none := by
  cases st with
  | none => exact readFirst_ne_nil h
  | some p =>
    revert h
    rw [readByte]
    dsimp only
    split_ifs with hrange hlast
    · dsimp only
      exact fun h => absurd h unitsOf_ne_nil
    · exact fun _ h => by cases h
    · exact fun h => by cases h

theorem readBytes_ne_nil (h : st ≠ none ∨ bs ≠ []) : readBytes st bs ≠ [] := by
  induction bs generalizing st with
  | nil =>
    cases st with
    | none => exact absurd rfl (h.resolve_right fun h => h rfl)
    | some p => exact List.cons_ne_nil _ _
  | cons b bs ih =>
    rw [readBytes_cons]
    rintro hnil
    obtain ⟨hout, hrest⟩ := List.append_eq_nil_iff.mp hnil
    exact ih (.inl (readByte_ne_nil hout)) hrest

theorem ofUtf8_eq_nil : ofUtf8 bs = [] ↔ bs = [] := by
  constructor
  · rintro h
    by_contra hne
    exact readBytes_ne_nil (.inr hne) h
  · rintro rfl
    rfl

/-- **The lines with something in them** are decoded one by one. -/
theorem pieces_ofUtf8 (bs : Bytes) : pieces 10 (ofUtf8 bs) = (pieces 10 bs).map ofUtf8 := by
  rw [pieces, splitOn_ofUtf8, List.filter_map, pieces]
  refine congrArg _ (List.filter_congr fun l _ => ?_)
  rw [Function.comp_apply, Bool.eq_iff_iff, decide_eq_true_iff, decide_eq_true_iff, ne_eq, ofUtf8_eq_nil]

end Js
