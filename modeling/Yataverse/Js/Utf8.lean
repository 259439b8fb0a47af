import Yataverse.Js.Order

/-!
# What UTF-8 keeps of a string

- `utf8Point_append_inj`, `points_of_utf8`: the bytes determine the code points.
- `chars`: the units of a string, code point by code point.
- `replaced`: the units that are written as U+FFFD, unpaired surrogates among them.
- **`eq_of_utf8`**: the bytes and the replaced units determine the string;
  `WellFormed.eq_of_utf8`: the bytes do when it is well-formed Unicode.
-/

namespace Js

/-! ## Bytes to code points -/

theorem byte_eq_byte {m n : Nat} : byte m = byte n ↔ m % 256 = n % 256 := by
  rw [byte, byte, ← UInt8.toNat_inj, UInt8.toNat_ofNat', UInt8.toNat_ofNat']

/-- The bytes of a code point end where the first one says. -/
theorem utf8Point_append_inj {m n : Nat} {r r' : Bytes} (hm : m < 0x110000) (hn : n < 0x110000)
    (h : utf8Point m ++ r = utf8Point n ++ r') : m = n ∧ r = r' := by
  unfold utf8Point at h
  split_ifs at h <;>
    simp only [List.cons_append, List.nil_append, List.cons.injEq, byte_eq_byte] at h
  · exact ⟨by omega, h.2⟩
  all_goals first
    | (exfalso; omega)
    | skip
  · exact ⟨by omega, h.2.2⟩
  · exact ⟨by omega, h.2.2.2⟩
  · exact ⟨by omega, h.2.2.2.2⟩

theorem utf8Point_ne_nil (n : Nat) : utf8Point n ≠ [] := by
  unfold utf8Point
  split_ifs <;> simp

theorem flatMap_utf8Point_inj : ∀ {ms ns : List Nat}, (∀ m ∈ ms, m < 0x110000) →
    (∀ n ∈ ns, n < 0x110000) → ms.flatMap utf8Point = ns.flatMap utf8Point → ms = ns
  | [], [], _, _, _ => rfl
  | [], n :: ns, _, _, h => by
    simp [utf8Point_ne_nil n] at h
  | m :: ms, [], _, _, h => by
    simp [utf8Point_ne_nil m] at h
  | m :: ms, n :: ns, hm, hn, h => by
    rw [List.flatMap_cons, List.flatMap_cons] at h
    obtain ⟨rfl, ht⟩ := utf8Point_append_inj (hm m (by simp)) (hn n (by simp)) h
    rw [flatMap_utf8Point_inj (fun k hk => hm k (by simp [hk])) (fun k hk => hn k (by simp [hk])) ht]

theorem lonePoint_lt (u : UInt16) : lonePoint u < 0x10000 := by
  have : u.toNat < 65536 := u.toNat_lt
  unfold lonePoint
  split <;> omega

/-! ## Code points to units -/

/-- The units of a string, code point by code point. -/
def chars : JsString → List JsString
  | [] => []
  | [u] => [[u]]
  | u :: v :: rest =>
    if isHigh u && isLow v then [u, v] :: chars rest else [u] :: chars (v :: rest)

/-- The code point of one or two units. -/
def charPoint : JsString → Nat
  | [u] => lonePoint u
  | [u, v] => 0x10000 + (u.toNat - 0xd800) * 0x400 + (v.toNat - 0xdc00)
  | _ => 0

theorem charPoint_single (u : UInt16) : charPoint [u] = lonePoint u := rfl

theorem charPoint_pair (u v : UInt16) :
    charPoint [u, v] = 0x10000 + (u.toNat - 0xd800) * 0x400 + (v.toNat - 0xdc00) := rfl

/-- A single unit or a surrogate pair. -/
inductive IsChar : JsString → Prop
  | single (u : UInt16) : IsChar [u]
  | pair {u v : UInt16} (hu : isHigh u = true) (hv : isLow v = true) : IsChar [u, v]

theorem points_eq_map : ∀ s, points s = (chars s).map charPoint
  | [] => rfl
  | [_] => rfl
  | u :: v :: rest => by
    rw [points, chars]
    split
    · rw [List.map_cons, points_eq_map rest, charPoint_pair]
    · rw [List.map_cons, points_eq_map (v :: rest), charPoint_single]

theorem flatten_chars : ∀ s, (chars s).flatten = s
  | [] => rfl
  | [_] => rfl
  | u :: v :: rest => by
    rw [chars]
    split
    · rw [List.flatten_cons, flatten_chars rest]
      rfl
    · rw [List.flatten_cons, flatten_chars (v :: rest)]
      rfl

theorem isChar_of_mem : ∀ {s c : JsString}, c ∈ chars s → IsChar c
  | [u], c, h => by
    obtain rfl : c = [u] := by simpa [chars] using h
    exact .single u
  | u :: v :: rest, c, h => by
    rw [chars] at h
    split at h
    case isTrue hp =>
      obtain ⟨hu, hv⟩ := Bool.and_eq_true_iff.mp hp
      rcases List.mem_cons.mp h with rfl | h
      · exact .pair hu hv
      · exact isChar_of_mem h
    case isFalse =>
      rcases List.mem_cons.mp h with rfl | h
      · exact .single u
      · exact isChar_of_mem h

theorem isHigh_iff {u : UInt16} : isHigh u = true ↔ 0xd800 ≤ u.toNat ∧ u.toNat ≤ 0xdbff := by
  simp [isHigh, UInt16.le_iff_toNat_le]

theorem isLow_iff {u : UInt16} : isLow u = true ↔ 0xdc00 ≤ u.toNat ∧ u.toNat ≤ 0xdfff := by
  simp [isLow, UInt16.le_iff_toNat_le]

theorem IsChar.point_lt {c : JsString} (h : IsChar c) : charPoint c < 0x110000 := by
  cases h with
  | single u =>
    have := lonePoint_lt u
    rw [charPoint_single]
    omega
  | @pair u v hu hv =>
    rw [isHigh_iff] at hu
    rw [isLow_iff] at hv
    rw [charPoint_pair]
    omega

/-- The bytes determine the code points. -/
theorem points_of_utf8 {s t : JsString} (h : utf8 s = utf8 t) : points s = points t := by
  have bound : ∀ s : JsString, ∀ n ∈ points s, n < 0x110000 := by
    intro s n hn
    rw [points_eq_map] at hn
    obtain ⟨c, hc, rfl⟩ := List.mem_map.mp hn
    exact (isChar_of_mem hc).point_lt
  exact flatMap_utf8Point_inj (bound s) (bound t) h

/-- The units of a code point other than U+FFFD. -/
theorem IsChar.eq_of_point {c d : JsString} (hc : IsChar c) (hd : IsChar d)
    (h : charPoint c = charPoint d) (hne : charPoint c ≠ 0xfffd) : c = d := by
  have key : ∀ {u : UInt16}, lonePoint u ≠ 0xfffd → lonePoint u = u.toNat := by
    intro u hu
    unfold lonePoint at hu ⊢
    split at hu
    · exact absurd rfl hu
    · rw [if_neg ‹_›]
  cases hc with
  | single u =>
    cases hd with
    | single v =>
      rw [charPoint_single] at h hne
      rw [charPoint_single] at h
      have hv : lonePoint v ≠ 0xfffd := h ▸ hne
      rw [key hne, key hv] at h
      rw [UInt16.toNat_inj.mp h]
    | @pair v w hv hw =>
      rw [charPoint_single, charPoint_pair] at h
      have := lonePoint_lt u
      omega
  | @pair u v hu hv =>
    cases hd with
    | single w =>
      rw [charPoint_single, charPoint_pair] at h
      have := lonePoint_lt w
      omega
    | @pair u' v' hu' hv' =>
      rw [isHigh_iff] at hu hu'
      rw [isLow_iff] at hv hv'
      rw [charPoint_pair, charPoint_pair] at h
      have h₁ : u = u' := UInt16.toNat_inj.mp (by omega)
      have h₂ : v = v' := UInt16.toNat_inj.mp (by omega)
      rw [h₁, h₂]

/-- The units that are written as U+FFFD: unpaired surrogates, and U+FFFD itself. -/
def replaced (s : JsString) : List JsString := (chars s).filter fun c => charPoint c = 0xfffd

theorem chars_inj : ∀ {cs ds r r' : List JsString}, (∀ c ∈ cs, IsChar c) → (∀ d ∈ ds, IsChar d) →
    cs.map charPoint = ds.map charPoint →
    cs.filter (fun c => charPoint c = 0xfffd) ++ r =
      ds.filter (fun c => charPoint c = 0xfffd) ++ r' → cs = ds ∧ r = r'
  | [], [], _, _, _, _, _, h => ⟨rfl, h⟩
  | [], _ :: _, _, _, _, _, hp, _ => nomatch hp
  | _ :: _, [], _, _, _, _, hp, _ => nomatch hp
  | c :: cs, d :: ds, r, r', hc, hd, hp, h => by
    obtain ⟨hcd, hp⟩ := List.cons.inj hp
    have ih := fun {r r' : List JsString} => @chars_inj cs ds r r'
      (fun x hx => hc x (List.mem_cons_of_mem _ hx)) (fun x hx => hd x (List.mem_cons_of_mem _ hx)) hp
    simp only [List.filter_cons, ← hcd] at h
    split at h
    · obtain ⟨rfl, ht⟩ := List.cons.inj h
      obtain ⟨rfl, rfl⟩ := ih ht
      exact ⟨rfl, rfl⟩
    · rename_i hne
      obtain rfl := (hc c (by simp)).eq_of_point (hd d (by simp)) hcd (by simpa using hne)
      obtain ⟨rfl, rfl⟩ := ih h
      exact ⟨rfl, rfl⟩

/-- **The bytes and the replaced units determine the string.** -/
theorem eq_of_utf8 {s t : JsString} {r r' : List JsString} (h : utf8 s = utf8 t)
    (hr : replaced s ++ r = replaced t ++ r') : s = t ∧ r = r' := by
  have hp := points_of_utf8 h
  rw [points_eq_map, points_eq_map] at hp
  obtain ⟨hc, rfl⟩ := chars_inj (fun _ => isChar_of_mem) (fun _ => isChar_of_mem) hp hr
  rw [← flatten_chars s, ← flatten_chars t, hc]
  exact ⟨rfl, rfl⟩

theorem lonePoint_eq {u : UInt16} (h : (isHigh u || isLow u) = false) : lonePoint u = u.toNat := by
  simp [lonePoint, h]

theorem eq_of_lonePoint {u : UInt16} (h : (isHigh u || isLow u) = false)
    (hp : lonePoint u = 0xfffd) : u = 0xfffd := by
  rw [lonePoint_eq h] at hp
  exact UInt16.toNat_inj.mp hp

/-- In well-formed Unicode U+FFFD stands for itself. -/
theorem WellFormed.eq_of_point : ∀ {s : JsString}, WellFormed s →
    ∀ c ∈ chars s, charPoint c = 0xfffd → c = [0xfffd]
  | [], _, _, hc, _ => nomatch hc
  | [u], h, c, hc, hp => by
    obtain rfl : c = [u] := by simpa [chars] using hc
    rw [eq_of_lonePoint h hp]
  | u :: v :: rest, h, c, hc, hp => by
    rw [WellFormed] at h
    rw [chars] at hc
    split at hc
    case isTrue hpair =>
      rw [if_pos hpair] at h
      rcases List.mem_cons.mp hc with rfl | hc
      · rw [charPoint_pair] at hp
        omega
      · exact WellFormed.eq_of_point h c hc hp
    case isFalse hpair =>
      rw [if_neg hpair] at h
      rcases List.mem_cons.mp hc with rfl | hc
      · rw [eq_of_lonePoint h.1 hp]
      · exact WellFormed.eq_of_point h.2 c hc hp

theorem WellFormed.eq_of_replaced {s : JsString} (h : WellFormed s) : ∀ c ∈ replaced s, c = [0xfffd] :=
  fun c hc => h.eq_of_point c (List.mem_filter.mp hc).1 (by simpa using (List.mem_filter.mp hc).2)

theorem WellFormed.eq_of_utf8 {s t : JsString} (hs : WellFormed s) (ht : WellFormed t)
    (h : utf8 s = utf8 t) : s = t := by
  have hlen : (replaced s).length = (replaced t).length := by
    have hp := points_of_utf8 h
    rw [points_eq_map, points_eq_map] at hp
    have := congrArg (fun l => (l.filter (· = 0xfffd)).length) hp
    rw [replaced, replaced]
    simpa only [List.filter_map, List.length_map, Function.comp_def] using this
  have hr : replaced s = replaced t := by
    rw [List.eq_replicate_of_mem hs.eq_of_replaced, List.eq_replicate_of_mem ht.eq_of_replaced, hlen]
  exact (Js.eq_of_utf8 (r := []) h (by rw [hr])).1

end Js
