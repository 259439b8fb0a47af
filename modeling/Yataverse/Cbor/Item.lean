import Mathlib.Algebra.Group.Nat.Defs
import Mathlib.Data.List.Basic

/-!
# CBOR data items and their shortest encoding

Data items without floats and tags, and the bytes of an item whose heads are as short
as they can be. The order of a map's members is part of the item.

- `head`, `encode`: the bytes.
- `Fits`: every argument is below `2 ^ 64`.
- `head_append_inj`: a head ends where its first byte says.
- **`encode_append_inj`**: encodings that go on alike are of one item.
-/

namespace Cbor

/-- A data item. The keys of a map are text. -/
inductive Item where
  | uint (n : Nat)
  | nint (n : Nat)
  | text (b : List UInt8)
  | array (xs : List Item)
  | map (kvs : List (List UInt8 × Item))
  | simple (n : Nat)

/-- `n` in `k` bytes, the most significant first. -/
def bytesBE (k n : Nat) : List UInt8 :=
  (List.range k).reverse.map fun i => UInt8.ofNat (n / 256 ^ i % 256)

/-- What the first byte of a head says about its argument: the argument itself below 24,
or how many bytes of it follow. -/
def width (n : Nat) : Nat × Nat :=
  if n < 24 then (n, 0)
  else if n < 2 ^ 8 then (24, 1)
  else if n < 2 ^ 16 then (25, 2)
  else if n < 2 ^ 32 then (26, 4)
  else (27, 8)

/-- The shortest head of a major type and an argument. -/
def head (major n : Nat) : List UInt8 :=
  UInt8.ofNat (major * 32 + (width n).1) :: bytesBE (width n).2 n

namespace Item

mutual

/-- The bytes of an item. -/
def encode : Item → List UInt8
  | uint n => head 0 n
  | nint n => head 1 n
  | text b => head 3 b.length ++ b
  | array xs => head 4 xs.length ++ encodeList xs
  | map kvs => head 5 kvs.length ++ encodeMembers kvs
  | simple n => head 7 n

def encodeList : List Item → List UInt8
  | [] => []
  | x :: xs => encode x ++ encodeList xs

def encodeMembers : List (List UInt8 × Item) → List UInt8
  | [] => []
  | e :: kvs => (head 3 e.1.length ++ e.1) ++ encode e.2 ++ encodeMembers kvs

end

mutual

/-- Every argument of a head is below `2 ^ 64`. -/
def Fits : Item → Prop
  | uint n => n < 2 ^ 64
  | nint n => n < 2 ^ 64
  | text b => b.length < 2 ^ 64
  | array xs => xs.length < 2 ^ 64 ∧ FitsList xs
  | map kvs => kvs.length < 2 ^ 64 ∧ FitsMembers kvs
  | simple n => n < 24

def FitsList : List Item → Prop
  | [] => True
  | x :: xs => Fits x ∧ FitsList xs

def FitsMembers : List (List UInt8 × Item) → Prop
  | [] => True
  | e :: kvs => (e.1.length < 2 ^ 64 ∧ Fits e.2) ∧ FitsMembers kvs

end

end Item

/-! ## Heads -/

theorem bytesBE_length (k n : Nat) : (bytesBE k n).length = k := by
  simp [bytesBE]

theorem bytesBE_succ (k n : Nat) : bytesBE (k + 1) n = bytesBE k (n / 256) ++ [UInt8.ofNat (n % 256)] := by
  simp only [bytesBE, List.range_succ_eq_map, List.reverse_cons, List.map_append, List.map_cons,
    List.map_nil, Nat.pow_zero, Nat.div_one, ← List.map_reverse, List.map_map]
  congr 1
  refine List.map_congr_left fun i _ => ?_
  simp only [Function.comp_apply, Nat.pow_succ', Nat.div_div_eq_div_mul]

/-- Bytes enough for a number determine it. -/
theorem bytesBE_inj : ∀ {k m n : Nat}, m < 256 ^ k → n < 256 ^ k → bytesBE k m = bytesBE k n →
    m = n
  | 0, m, n, hm, hn, _ => by
    simp only [Nat.pow_zero, Nat.lt_one_iff] at hm hn
    rw [hm, hn]
  | k + 1, m, n, hm, hn, h => by
    rw [bytesBE_succ, bytesBE_succ] at h
    obtain ⟨hd, hl⟩ := List.append_inj' h rfl
    have hq := bytesBE_inj (by omega) (by omega) hd
    have hr := congrArg UInt8.toNat (List.cons.inj hl).1
    simp only [UInt8.toNat_ofNat'] at hr
    omega

theorem width_lt (n : Nat) : (width n).1 < 32 := by
  unfold width
  split_ifs <;> simp only <;> omega

theorem lt_of_width {n : Nat} (h : n < 2 ^ 64) (hk : (width n).2 ≠ 0) : n < 256 ^ (width n).2 := by
  unfold width at hk ⊢
  split_ifs at hk ⊢
  · exact absurd rfl hk
  · assumption
  · assumption
  · assumption
  · exact h

/-- The first byte says how many follow, and the argument if none does. -/
theorem width_eq {m n : Nat} (h : (width m).1 = (width n).1) :
    (width m).2 = (width n).2 ∧ ((width m).2 = 0 → m = n) := by
  unfold width at h ⊢
  split_ifs at h ⊢ <;> simp at h ⊢ <;> omega

/-- A head ends where its first byte says. -/
theorem head_append_inj {major major' m n : Nat} {r r' : List UInt8} (hmajor : major < 8)
    (hmajor' : major' < 8) (hm : m < 2 ^ 64) (hn : n < 2 ^ 64)
    (h : head major m ++ r = head major' n ++ r') : major = major' ∧ m = n ∧ r = r' := by
  obtain ⟨hfirst, hrest⟩ := List.cons.inj h
  have hb := congrArg UInt8.toNat hfirst
  simp only [UInt8.toNat_ofNat'] at hb
  have h₁ := width_lt m
  have h₂ := width_lt n
  obtain ⟨hk, hz⟩ := width_eq (m := m) (n := n) (by omega)
  rw [← hk] at hrest
  obtain ⟨hbytes, hr⟩ := List.append_inj hrest (by rw [bytesBE_length, bytesBE_length])
  refine ⟨by omega, ?_, hr⟩
  by_cases h0 : (width m).2 = 0
  · exact hz h0
  · refine bytesBE_inj (lt_of_width hm h0) ?_ hbytes
    rw [hk] at h0 ⊢
    exact lt_of_width hn h0

/-! ## Items -/

namespace Item

/-- The major type of an item. -/
def major : Item → Nat
  | uint _ => 0
  | nint _ => 1
  | text _ => 3
  | array _ => 4
  | map _ => 5
  | simple _ => 7

/-- The argument in the head of an item. -/
def arg : Item → Nat
  | uint n => n
  | nint n => n
  | text b => b.length
  | array xs => xs.length
  | map kvs => kvs.length
  | simple n => n

/-- What follows the head. -/
def body : Item → List UInt8
  | uint _ => []
  | nint _ => []
  | text b => b
  | array xs => encodeList xs
  | map kvs => encodeMembers kvs
  | simple _ => []

theorem encode_eq (a : Item) : encode a = head a.major a.arg ++ a.body := by
  cases a <;> simp [encode, major, arg, body]

theorem major_lt (a : Item) : a.major < 8 := by
  cases a <;> simp [major]

theorem Fits.arg_lt {a : Item} (h : Fits a) : a.arg < 2 ^ 64 := by
  cases a with
  | uint n => exact h
  | nint n => exact h
  | text b => exact h
  | array xs => exact h.1
  | map kvs => exact h.1
  | simple n => exact Nat.lt_trans h (by decide)

/-- Encodings that go on alike have one head. -/
theorem head_of_encode {a b : Item} {r r' : List UInt8} (ha : Fits a) (hb : Fits b)
    (h : encode a ++ r = encode b ++ r') :
    a.major = b.major ∧ a.arg = b.arg ∧ a.body ++ r = b.body ++ r' := by
  rw [encode_eq, encode_eq, List.append_assoc, List.append_assoc] at h
  exact head_append_inj a.major_lt b.major_lt ha.arg_lt hb.arg_lt h

/-- Items of one kind. -/
inductive Alike : Item → Item → Prop
  | uint (m n : Nat) : Alike (uint m) (uint n)
  | nint (m n : Nat) : Alike (nint m) (nint n)
  | text (b c : List UInt8) : Alike (text b) (text c)
  | array (xs ys : List Item) : Alike (array xs) (array ys)
  | map (kvs kvs' : List (List UInt8 × Item)) : Alike (map kvs) (map kvs')
  | simple (m n : Nat) : Alike (simple m) (simple n)

theorem alike_of_major {a b : Item} (h : a.major = b.major) : Alike a b := by
  cases a <;> cases b <;> simp only [major] at h <;>
    first | constructor | exact absurd h (by decide)

mutual

/-- **Unique decodability**: encodings that go on alike are of one item. -/
theorem encode_append_inj : ∀ {a b : Item} {r r' : List UInt8}, Fits a → Fits b →
    encode a ++ r = encode b ++ r' → a = b ∧ r = r'
  | uint m, b, r, r', ha, hb, h => by
    obtain ⟨hk, harg, hr⟩ := head_of_encode ha hb h
    cases alike_of_major hk
    exact ⟨congrArg uint harg, hr⟩
  | nint m, b, r, r', ha, hb, h => by
    obtain ⟨hk, harg, hr⟩ := head_of_encode ha hb h
    cases alike_of_major hk
    exact ⟨congrArg nint harg, hr⟩
  | simple m, b, r, r', ha, hb, h => by
    obtain ⟨hk, harg, hr⟩ := head_of_encode ha hb h
    cases alike_of_major hk
    exact ⟨congrArg simple harg, hr⟩
  | text c, b, r, r', ha, hb, h => by
    obtain ⟨hk, hlen, hr⟩ := head_of_encode ha hb h
    cases alike_of_major hk
    obtain ⟨hc, hr⟩ := List.append_inj hr hlen
    exact ⟨congrArg text hc, hr⟩
  | array xs, b, r, r', ha, hb, h => by
    obtain ⟨hk, hlen, hr⟩ := head_of_encode ha hb h
    cases alike_of_major hk
    obtain ⟨hxs, hr⟩ := encodeList_append_inj ha.2 hb.2 hlen hr
    exact ⟨congrArg array hxs, hr⟩
  | map kvs, b, r, r', ha, hb, h => by
    obtain ⟨hk, hlen, hr⟩ := head_of_encode ha hb h
    cases alike_of_major hk
    obtain ⟨hkvs, hr⟩ := encodeMembers_append_inj ha.2 hb.2 hlen hr
    exact ⟨congrArg map hkvs, hr⟩

theorem encodeList_append_inj : ∀ {xs ys : List Item} {r r' : List UInt8}, FitsList xs →
    FitsList ys → xs.length = ys.length → encodeList xs ++ r = encodeList ys ++ r' →
    xs = ys ∧ r = r'
  | [], [], _, _, _, _, _, h => ⟨rfl, h⟩
  | [], _ :: _, _, _, _, _, hlen, _ => nomatch hlen
  | _ :: _, [], _, _, _, _, hlen, _ => nomatch hlen
  | x :: xs, y :: ys, r, r', hx, hy, hlen, h => by
    rw [encodeList, encodeList, List.append_assoc, List.append_assoc] at h
    obtain ⟨hxy, ht⟩ := encode_append_inj hx.1 hy.1 h
    obtain ⟨hxs, hr⟩ := encodeList_append_inj hx.2 hy.2 (Nat.succ.inj hlen) ht
    exact ⟨by rw [hxy, hxs], hr⟩

theorem encodeMembers_append_inj : ∀ {kvs kvs' : List (List UInt8 × Item)} {r r' : List UInt8},
    FitsMembers kvs → FitsMembers kvs' → kvs.length = kvs'.length →
    encodeMembers kvs ++ r = encodeMembers kvs' ++ r' → kvs = kvs' ∧ r = r'
  | [], [], _, _, _, _, _, h => ⟨rfl, h⟩
  | [], _ :: _, _, _, _, _, hlen, _ => nomatch hlen
  | _ :: _, [], _, _, _, _, hlen, _ => nomatch hlen
  | (k, x) :: kvs, (k', x') :: kvs', r, r', hx, hx', hlen, h => by
    simp only [encodeMembers, List.append_assoc] at h
    obtain ⟨-, hklen, hk⟩ := head_append_inj (by decide) (by decide) hx.1.1 hx'.1.1 h
    obtain ⟨hk, ht⟩ := List.append_inj hk hklen
    obtain ⟨hxx', ht⟩ := encode_append_inj (a := x) (b := x') hx.1.2 hx'.1.2 ht
    obtain ⟨hkvs, hr⟩ := encodeMembers_append_inj hx.2 hx'.2 (Nat.succ.inj hlen) ht
    exact ⟨by rw [hk, hxx', hkvs], hr⟩

end

theorem encode_injective {a b : Item} (ha : Fits a) (hb : Fits b) (h : encode a = encode b) :
    a = b :=
  (encode_append_inj (r := []) ha hb (by rw [h])).1

end Item

end Cbor
