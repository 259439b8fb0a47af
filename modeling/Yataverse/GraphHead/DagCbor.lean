import Yataverse.Cbor.Item
import Yataverse.GraphHead.VerifyHead
import Yataverse.Js.Utf8

/-!
# What a dag-cbor encoding says

The namespace key signs the dag-cbor of a record, so the bytes should be those of one
record only, and the ones every other encoder writes.

- `item`: the data item of a value, its members in their order.
- `cbor_eq`: `cbor` encodes the item of the value with its keys sorted.
- `replacedUnits`: the units that UTF-8 writes as U+FFFD, in the order of the encoding.
- **`payload_eq_iff`**: two records under one signature are the same exactly when their
  replaced units are.
- **`dagCbor_canonical_iff`**: the encoding is the canonical one exactly when code units
  and bytes order the keys of every object alike.
-/

namespace GraphHead

open Js Fallible

/-! ## Data items -/

mutual

/-- The data item of a value; the members of an object keep their order. -/
def item : Json → Cbor.Item
  | .null => .simple 22
  | .bool b => .simple (if b then 21 else 20)
  | .num (.int n) => if 0 ≤ n then .uint n.toNat else .nint (-1 - n).toNat
  | .num _ => .simple 23
  | .str s => .text (utf8 s)
  | .arr xs => .array (itemList xs)
  | .obj kvs => .map (itemEntries kvs)

def itemList : List Json → List Cbor.Item
  | [] => []
  | x :: xs => item x :: itemList xs

def itemEntries : List (JsString × Json) → List (Bytes × Cbor.Item)
  | [] => []
  | e :: kvs => (utf8 e.1, item e.2) :: itemEntries kvs

end

theorem itemList_length (xs : List Json) : (itemList xs).length = xs.length := by
  induction xs with
  | nil => rfl
  | cons x xs ih => simp [itemList, ih]

theorem itemEntries_length (kvs : List (JsString × Json)) :
    (itemEntries kvs).length = kvs.length := by
  induction kvs with
  | nil => rfl
  | cons e kvs ih => simp [itemEntries, ih]

/-- `b` is the encoding of the item of `v`, its keys in the order of `cborKeyLe`. -/
structure Encodes (v : Json) (b : Bytes) : Prop where
  eq : b = (item (v.sortKeys cborKeyLe)).encode
  fits : (item (v.sortKeys cborKeyLe)).Fits

theorem cborHead_eq {major n : Nat} {b : Bytes} (h : cborHead major n = .ok b) :
    b = Cbor.head major n := by
  unfold cborHead at h
  unfold Cbor.head Cbor.width Cbor.bytesBE
  split_ifs at h with h₁ h₂ h₃ h₄
  · rw [← Except.ok.inj h]
    simp [h₁, byte]
  · rw [← Except.ok.inj h]
    simp [h₁, h₂, byte, Nat.mod_eq_of_lt h₂]
  · rw [← Except.ok.inj h]
    simp [h₁, h₂, h₃, byte, List.range_succ, Nat.mod_eq_of_lt (by omega : n / 256 < 256)]
  · rw [← Except.ok.inj h]
    simp [h₁, h₂, h₃, h₄, byte, List.range_succ]

theorem cborStr_eq {s : JsString} {b : Bytes} (h : cborStr s = .ok b) :
    b = Cbor.head 3 (utf8 s).length ++ utf8 s ∧ (utf8 s).length < 2 ^ 64 := by
  obtain ⟨hd, hhd, h⟩ := bind_eq_ok.mp h
  obtain rfl := Except.ok.inj h
  exact ⟨by rw [cborHead_eq hhd], Nat.lt_trans (cborHead_lt hhd) (by decide)⟩

/-- The members of an object, in the order they are written. -/
theorem members_encode : ∀ {kvs : List (JsString × Json)} {parts : List Bytes},
    (∀ e ∈ kvs, ∀ b, cbor e.2 = .ok b → Encodes e.2 b) →
    (kvs.map fun e => (e.1, cbor e.2)).mapM (fun e => do return (← cborStr e.1) ++ (← e.2)) =
      .ok parts →
    parts.flatten = Cbor.Item.encodeMembers
        (itemEntries (kvs.map fun e => (e.1, e.2.sortKeys cborKeyLe))) ∧
      Cbor.Item.FitsMembers (itemEntries (kvs.map fun e => (e.1, e.2.sortKeys cborKeyLe)))
  | [], parts, _, h => by
    obtain rfl := Except.ok.inj h
    exact ⟨rfl, trivial⟩
  | e :: kvs, parts, ih, h => by
    rw [List.map_cons, List.mapM_cons] at h
    obtain ⟨p, hp, h⟩ := bind_eq_ok.mp h
    obtain ⟨ps, hps, h⟩ := bind_eq_ok.mp h
    obtain rfl := Except.ok.inj h
    obtain ⟨k, hk, hp⟩ := bind_eq_ok.mp hp
    obtain ⟨b, hb, hp⟩ := bind_eq_ok.mp hp
    obtain rfl := Except.ok.inj hp
    obtain ⟨hrest, hfits⟩ := members_encode (fun e he => ih e (List.mem_cons_of_mem _ he)) hps
    obtain ⟨rfl, hklen⟩ := cborStr_eq hk
    obtain ⟨rfl, hf⟩ := ih e (by simp) b hb
    refine ⟨?_, ⟨hklen, hf⟩, hfits⟩
    rw [List.flatten_cons, hrest]
    rfl

theorem sorted_cborEntries (kvs : List (JsString × Json)) :
    (cborEntries kvs).insertionSort (fun a b => cborKeyLe a.1 b.1) =
      (kvs.insertionSort fun a b => cborKeyLe a.1 b.1).map fun e => (e.1, cbor e.2) := by
  have : cborEntries kvs = kvs.map fun e => (e.1, cbor e.2) := by
    induction kvs with
    | nil => rfl
    | cons e kvs ih => rw [cborEntries, ih, List.map_cons]
  rw [this]
  exact (List.map_insertionSort (fun a b : JsString × Json => cborKeyLe a.1 b.1)
    (fun a b : JsString × Except Err Bytes => cborKeyLe a.1 b.1) _ kvs fun _ _ _ _ => Iff.rfl).symm

theorem sorted_sortKeysEntries (kvs : List (JsString × Json)) :
    (Json.sortKeysEntries cborKeyLe kvs).insertionSort (fun a b => cborKeyLe a.1 b.1) =
      (kvs.insertionSort fun a b => cborKeyLe a.1 b.1).map
        fun e => (e.1, e.2.sortKeys cborKeyLe) := by
  rw [Json.sortKeysEntries_eq_map]
  exact (List.map_insertionSort (fun a b : JsString × Json => cborKeyLe a.1 b.1)
    (fun a b : JsString × Json => cborKeyLe a.1 b.1)
    (fun e : JsString × Json => (e.1, e.2.sortKeys cborKeyLe)) kvs fun _ _ _ _ => Iff.rfl).symm

mutual

/-- `cbor` encodes the item of the value with its keys sorted. -/
theorem cbor_eq : ∀ {v : Json} {b : Bytes}, cbor v = .ok b → Encodes v b
  | .null, b, h => by
    obtain rfl := Except.ok.inj h
    exact ⟨rfl, show _ < 24 by decide⟩
  | .bool true, b, h => by
    obtain rfl := Except.ok.inj h
    exact ⟨rfl, show _ < 24 by decide⟩
  | .bool false, b, h => by
    obtain rfl := Except.ok.inj h
    exact ⟨rfl, show _ < 24 by decide⟩
  | .num (.frac _), _, h => nomatch h
  | .num (.inf _), _, h => nomatch h
  | .num (.int n), b, h => by
    rw [cbor] at h
    have hitem : item (.num (.int n)) = if 0 ≤ n then .uint n.toNat else .nint (-1 - n).toNat := rfl
    split at h
    case isTrue hn =>
      rw [if_pos hn] at hitem
      exact ⟨by rw [Json.sortKeys, hitem]; exact cborHead_eq h,
        by rw [Json.sortKeys, hitem]; exact Nat.lt_trans (cborHead_lt h) (by decide)⟩
    case isFalse hn =>
      rw [if_neg hn] at hitem
      exact ⟨by rw [Json.sortKeys, hitem]; exact cborHead_eq h,
        by rw [Json.sortKeys, hitem]; exact Nat.lt_trans (cborHead_lt h) (by decide)⟩
  | .str s, b, h => by
    obtain ⟨rfl, hlen⟩ := cborStr_eq h
    exact ⟨rfl, hlen⟩
  | .arr xs, b, h => by
    obtain ⟨hd, hhd, h⟩ := bind_eq_ok.mp h
    obtain ⟨c, hc, h⟩ := bind_eq_ok.mp h
    obtain rfl := Except.ok.inj h
    obtain ⟨rfl, hf⟩ := cborList_eq hc
    have hlen : (itemList (Json.sortKeysList cborKeyLe xs)).length = xs.length := by
      rw [itemList_length, Json.sortKeysList_length]
    refine ⟨?_, ?_, hf⟩
    · rw [Json.sortKeys, item, Cbor.Item.encode, hlen, cborHead_eq hhd]
    · rw [hlen]
      exact Nat.lt_trans (cborHead_lt hhd) (by decide)
  | .obj kvs, b, h => by
    obtain ⟨hd, hhd, h⟩ := bind_eq_ok.mp h
    obtain ⟨parts, hp, h⟩ := bind_eq_ok.mp h
    obtain rfl := Except.ok.inj h
    rw [sorted_cborEntries] at hp
    obtain ⟨hparts, hf⟩ := members_encode
      (fun e he => cborMembers_eq kvs e (List.mem_insertionSort _ |>.mp he)) hp
    rw [← sorted_sortKeysEntries] at hparts hf
    have hlen : (itemEntries ((Json.sortKeysEntries cborKeyLe kvs).insertionSort
        fun a b => cborKeyLe a.1 b.1)).length = kvs.length := by
      rw [itemEntries_length, List.length_insertionSort, Json.sortKeysEntries_eq_map, List.length_map]
    refine ⟨?_, ?_, hf⟩
    · rw [Json.sortKeys, item, Cbor.Item.encode, hlen, cborHead_eq hhd, hparts]
    · rw [hlen]
      exact Nat.lt_trans (cborHead_lt hhd) (by decide)

theorem cborList_eq : ∀ {xs : List Json} {b : Bytes}, cborList xs = .ok b →
    b = Cbor.Item.encodeList (itemList (Json.sortKeysList cborKeyLe xs)) ∧
      Cbor.Item.FitsList (itemList (Json.sortKeysList cborKeyLe xs))
  | [], b, h => by
    obtain rfl := Except.ok.inj h
    exact ⟨rfl, trivial⟩
  | x :: xs, b, h => by
    obtain ⟨c, hc, h⟩ := bind_eq_ok.mp h
    obtain ⟨d, hd, h⟩ := bind_eq_ok.mp h
    obtain rfl := Except.ok.inj h
    obtain ⟨rfl, hf⟩ := cbor_eq hc
    obtain ⟨rfl, hfs⟩ := cborList_eq hd
    exact ⟨rfl, hf, hfs⟩

theorem cborMembers_eq : ∀ kvs : List (JsString × Json), ∀ e ∈ kvs, ∀ b, cbor e.2 = .ok b →
    Encodes e.2 b
  | [] => nofun
  | _ :: kvs => List.forall_mem_cons.mpr ⟨fun _ h => cbor_eq h, cborMembers_eq kvs⟩

end

/-! ## Items back to values -/

section Gather

variable {α : Type} (f : JsString → List α)

mutual

/-- What `f` finds in the keys and strings of a value, in their order. -/
def gather : Json → List α
  | .str s => f s
  | .arr xs => gatherList xs
  | .obj kvs => gatherEntries kvs
  | _ => []

def gatherList : List Json → List α
  | [] => []
  | x :: xs => gather x ++ gatherList xs

def gatherEntries : List (JsString × Json) → List α
  | [] => []
  | e :: kvs => f e.1 ++ (gather e.2 ++ gatherEntries kvs)

end

end Gather

theorem item_num {n : Int} : (0 ≤ n ∧ item (.num (.int n)) = .uint n.toNat) ∨
    (n < 0 ∧ item (.num (.int n)) = .nint (-1 - n).toNat) := by
  by_cases hn : 0 ≤ n
  · exact .inl ⟨hn, if_pos hn⟩
  · exact .inr ⟨by omega, if_neg hn⟩

/-- Values of one kind, and the same booleans and integers. -/
inductive SameKind : Json → Json → Prop
  | null : SameKind .null .null
  | bool (b : Bool) : SameKind (.bool b) (.bool b)
  | num (x : Number) : SameKind (.num x) (.num x)
  | str (s t : JsString) : SameKind (.str s) (.str t)
  | arr (xs ys : List Json) : SameKind (.arr xs) (.arr ys)
  | obj (kvs kvs' : List (JsString × Json)) : SameKind (.obj kvs) (.obj kvs')

theorem item_num_inj {m n : Int} (h : item (.num (.int m)) = item (.num (.int n))) : m = n := by
  rcases item_num (n := m) with ⟨hm, hi⟩ | ⟨hm, hi⟩ <;>
    rcases item_num (n := n) with ⟨hn, hj⟩ | ⟨hn, hj⟩ <;> rw [hi, hj] at h
  · have := Cbor.Item.uint.inj h
    omega
  · exact nomatch h
  · exact nomatch h
  · have := Cbor.Item.nint.inj h
    omega

/-- The kinds of item that stand for integers. -/
theorem sameKind_of_num {n : Int} {w : Json} (hw : w.Safe) (h : item (.num (.int n)) = item w) :
    w = .num (.int n) := by
  cases w with
  | num y =>
    obtain ⟨m, rfl, -⟩ := hw
    rw [item_num_inj h]
  | null | bool _ | str _ | arr _ | obj _ =>
    rcases item_num (n := n) with ⟨-, hi⟩ | ⟨-, hi⟩ <;> rw [hi] at h <;> exact nomatch h

theorem sameKind_of_bool {b b' : Bool} (h : item (.bool b) = item (.bool b')) :
    SameKind (.bool b) (.bool b') := by
  cases b <;> cases b' <;> first | constructor | exact nomatch h

theorem sameKind_of_item {v w : Json} (hv : v.Safe) (hw : w.Safe) (h : item v = item w) :
    SameKind v w := by
  cases v with
  | num x =>
    obtain ⟨n, rfl, -⟩ := hv
    rw [sameKind_of_num hw h]
    exact .num _
  | null | bool b | str _ | arr _ | obj _ =>
    cases w with
    | num y =>
      obtain ⟨n, rfl, -⟩ := hw
      exact nomatch sameKind_of_num hv h.symm
    | bool b' => first | exact sameKind_of_bool h | cases h | (cases b' <;> simp [item] at h)
    | _ => first | constructor | cases h | (cases b <;> simp [item] at h)

section Inj

variable {α : Type} {f : JsString → List α} {P : JsString → Prop}

mutual

/-- When bytes and `f` determine a string, items and what `f` finds determine a value. -/
theorem item_append_inj (hf : ∀ {s t : JsString} {r r' : List α}, P s → P t → utf8 s = utf8 t →
    f s ++ r = f t ++ r' → s = t ∧ r = r') : ∀ {v w : Json} {r r' : List α}, v.Safe → w.Safe →
    v.Strings P → w.Strings P → item v = item w → gather f v ++ r = gather f w ++ r' →
    v = w ∧ r = r'
  | .null, w, r, r', hv, hw, _, _, h, hr => by
    cases sameKind_of_item hv hw h
    exact ⟨rfl, hr⟩
  | .bool b, w, r, r', hv, hw, _, _, h, hr => by
    cases sameKind_of_item hv hw h
    exact ⟨rfl, hr⟩
  | .num x, w, r, r', hv, hw, _, _, h, hr => by
    cases sameKind_of_item hv hw h
    exact ⟨rfl, hr⟩
  | .str s, w, r, r', hv, hw, hs, hs', h, hr => by
    cases sameKind_of_item hv hw h
    obtain ⟨rfl, rfl⟩ := hf hs hs' (Cbor.Item.text.inj h) hr
    exact ⟨rfl, rfl⟩
  | .arr xs, w, r, r', hv, hw, hs, hs', h, hr => by
    cases sameKind_of_item hv hw h
    obtain ⟨rfl, rfl⟩ := itemList_append_inj hf hv hw hs hs' (Cbor.Item.array.inj h) hr
    exact ⟨rfl, rfl⟩
  | .obj kvs, w, r, r', hv, hw, hs, hs', h, hr => by
    cases sameKind_of_item hv hw h
    obtain ⟨rfl, rfl⟩ := itemEntries_append_inj hf hv hw hs hs' (Cbor.Item.map.inj h) hr
    exact ⟨rfl, rfl⟩

theorem itemList_append_inj (hf : ∀ {s t : JsString} {r r' : List α}, P s → P t →
    utf8 s = utf8 t → f s ++ r = f t ++ r' → s = t ∧ r = r') : ∀ {xs ys : List Json}
    {r r' : List α}, Json.SafeList xs → Json.SafeList ys → Json.StringsList P xs →
    Json.StringsList P ys → itemList xs = itemList ys → gatherList f xs ++ r = gatherList f ys ++ r' →
    xs = ys ∧ r = r'
  | [], [], _, _, _, _, _, _, _, hr => ⟨rfl, hr⟩
  | [], _ :: _, _, _, _, _, _, _, h, _ => nomatch h
  | _ :: _, [], _, _, _, _, _, _, h, _ => nomatch h
  | x :: xs, y :: ys, r, r', hx, hy, hs, hs', h, hr => by
    rw [itemList, itemList, List.cons.injEq] at h
    rw [gatherList, gatherList, List.append_assoc, List.append_assoc] at hr
    obtain ⟨hxy, ht⟩ := item_append_inj hf hx.1 hy.1 hs.1 hs'.1 h.1 hr
    obtain ⟨hxs, hr⟩ := itemList_append_inj hf hx.2 hy.2 hs.2 hs'.2 h.2 ht
    exact ⟨by rw [hxy, hxs], hr⟩

theorem itemEntries_append_inj (hf : ∀ {s t : JsString} {r r' : List α}, P s → P t →
    utf8 s = utf8 t → f s ++ r = f t ++ r' → s = t ∧ r = r') :
    ∀ {kvs kvs' : List (JsString × Json)} {r r' : List α}, Json.SafeEntries kvs →
    Json.SafeEntries kvs' → Json.StringsEntries P kvs → Json.StringsEntries P kvs' →
    itemEntries kvs = itemEntries kvs' → gatherEntries f kvs ++ r = gatherEntries f kvs' ++ r' →
    kvs = kvs' ∧ r = r'
  | [], [], _, _, _, _, _, _, _, hr => ⟨rfl, hr⟩
  | [], _ :: _, _, _, _, _, _, _, h, _ => nomatch h
  | _ :: _, [], _, _, _, _, _, _, h, _ => nomatch h
  | (k, x) :: kvs, (k', x') :: kvs', r, r', hx, hx', hs, hs', h, hr => by
    simp only [itemEntries, List.cons.injEq, Prod.mk.injEq] at h
    simp only [gatherEntries, List.append_assoc] at hr
    obtain ⟨hk, ht⟩ := hf (s := k) (t := k') hs.1.1 hs'.1.1 h.1.1 hr
    obtain ⟨hxx, ht⟩ := item_append_inj (v := x) (w := x') hf hx.1 hx'.1 hs.1.2 hs'.1.2 h.1.2 ht
    obtain ⟨hkvs, hr⟩ := itemEntries_append_inj hf hx.2 hx'.2 hs.2 hs'.2 h.2 ht
    exact ⟨by rw [hk, hxx, hkvs], hr⟩

end

end Inj

/-! ## One signature, one record -/

/-- The units of a value that UTF-8 writes as U+FFFD, in the order of the encoding. -/
def replacedUnits (v : Json) : List JsString := gather replaced (v.sortKeys cborKeyLe)

theorem item_of_dagCbor {v w : Json} {b : Bytes} (hv : dagCbor v = .ok b) (hw : dagCbor w = .ok b) :
    item (v.sortKeys cborKeyLe) = item (w.sortKeys cborKeyLe) := by
  obtain ⟨hb, hf⟩ := cbor_eq hv
  obtain ⟨hb', hf'⟩ := cbor_eq hw
  exact Cbor.Item.encode_injective hf hf' (hb.symm.trans hb')

/-- Encoded values are the same when their bytes and their replaced units are. -/
theorem eq_of_dagCbor {v w : Json} {b : Bytes} (hwf : v.WF) (hwf' : w.WF) (hv : dagCbor v = .ok b)
    (hw : dagCbor w = .ok b) (h : replacedUnits v = replacedUnits w) : v = w := by
  have hs := item_append_inj (P := fun _ => True) (r := []) (fun _ _ => eq_of_utf8)
    (safe_of_cbor hv).sortKeys (safe_of_cbor hw).sortKeys
    (Json.strings_of_forall (fun _ => trivial) _)
    (Json.strings_of_forall (fun _ => trivial) _)
    (item_of_dagCbor hv hw) (by rw [← replacedUnits, h, replacedUnits])
  exact Json.sortKeys_inj hwf hwf' hs.1

theorem wf_payload {record : Json} (h : record.WF) : (payload record).WF := by
  cases record with
  | obj kvs =>
    refine ⟨h.1.sublist (List.filter_sublist.map Prod.fst), Json.wfEntries_iff.mpr fun e he => ?_⟩
    exact Json.wfEntries_iff.mp h.2 e (List.mem_of_mem_filter he)
  | _ => exact h

section Signed

variable {nc : NodeCrypto} {record record' : Json} {graph graph' : JsString}
  {signers signers' : List JsString}

/-- Heads under one key and one signature, which verifies for one message only, have one
encoding. -/
theorem payload_bytes (once : ∀ pub msg msg' sig, nc.verify pub msg sig = true →
    nc.verify pub msg' sig = true → msg = msg') (h : IsHead nc record graph signers)
    (h' : IsHead nc record' graph' signers')
    (hkey : record.get (js "public_key_multibase") = record'.get (js "public_key_multibase"))
    (hsig : record.get (js "signature_multibase") = record'.get (js "signature_multibase")) :
    ∃ msg, dagCbor (payload record) = .ok msg ∧ dagCbor (payload record') = .ok msg := by
  obtain ⟨sig, bytes, msg, pub, hs, hb, hmsg, hpub, hv⟩ := h.signed
  obtain ⟨sig', bytes', msg', pub', hs', hb', hmsg', hpub', hv'⟩ := h'.signed
  rw [hsig, hs'] at hs
  obtain rfl := Option.some.inj hs
  rw [hb'] at hb
  obtain rfl := Option.some.inj hb
  rw [hkey, hpub'] at hpub
  obtain rfl := Except.ok.inj hpub
  exact ⟨msg, hmsg, (once pub' msg msg' bytes' hv hv') ▸ hmsg'⟩

/-- **What a namespace signature binds**: two accepted records under one key and one
signature agree, but for the signature fields, exactly when the units that UTF-8
replaces are the same in both. -/
theorem payload_eq_iff (once : ∀ pub msg msg' sig, nc.verify pub msg sig = true →
    nc.verify pub msg' sig = true → msg = msg') (hw : record.WF) (hw' : record'.WF)
    (h : verifyHead nc record graph signers = .ok record)
    (h' : verifyHead nc record' graph' signers' = .ok record')
    (hkey : record.get (js "public_key_multibase") = record'.get (js "public_key_multibase"))
    (hsig : record.get (js "signature_multibase") = record'.get (js "signature_multibase")) :
    payload record = payload record' ↔
      replacedUnits (payload record) = replacedUnits (payload record') := by
  constructor
  · intro he
    rw [he]
  · intro hr
    obtain ⟨msg, hm, hm'⟩ := payload_bytes once (verifyHead_ok.mp h).2 (verifyHead_ok.mp h').2
      hkey hsig
    exact eq_of_dagCbor (wf_payload hw) (wf_payload hw') hm hm' hr

end Signed

namespace Sample

/-- A head with one more field. -/
def noted (note : JsString) : Json :=
  .obj [(js "name", .str graph₀), (js "note", .str note), (js "public_key_multibase", .str did),
    (js "sequence", .num (.int 1)), (js "signature_multibase", .str (js
      "z47AP5xhcphHjZi5R3TtrbpMTAeJh7kEYB3mY4SAcDiyUxe1Keef6qgDYfHVLQBrseZJVg7GbhdekFzuZ1pnoS4Nx")),
    (js "value", .str (js "baf" ++ List.replicate 50 (unit 'b')))]

/-- The signature verifies for the encoding of the head with U+FFFD, and nothing else
does. -/
def notedCrypto : NodeCrypto where
  sha256 := id
  verify pub msg sig :=
    pub = (ed25519PubOfDid did).toOption.getD [] &&
    msg = (dagCbor (payload (noted [0xfffd]))).toOption.getD [] &&
    sig = ((multibase58 ((noted [0xfffd]).get (js "signature_multibase"))).bind b58Decode).getD []

theorem notedCrypto_once (pub msg msg' sig : Bytes) (h : notedCrypto.verify pub msg sig = true)
    (h' : notedCrypto.verify pub msg' sig = true) : msg = msg' := by
  simp only [notedCrypto, Bool.and_eq_true, decide_eq_true_eq] at h h'
  rw [h.1.2, h'.1.2]

theorem verifyHead_noted : ∀ note ∈ [[0xfffd], [0xd800]],
    verifyHead notedCrypto (noted note) graph₀ [did] = .ok (noted note) := by
  decide +kernel

theorem noted_wf (note : JsString) : (noted note).WF := by
  refine ⟨?_, trivial, trivial, trivial, trivial, trivial, trivial, trivial⟩
  show List.Pairwise (· < ·) [js "name", js "note", js "public_key_multibase", js "sequence",
    js "signature_multibase", js "value"]
  decide

end Sample

/-- An escaped lone surrogate is signed as U+FFFD. -/
theorem payload_eq_iff_sample :
    payload (Sample.noted [0xfffd]) = payload (Sample.noted [0xd800]) ↔
      replacedUnits (payload (Sample.noted [0xfffd])) =
        replacedUnits (payload (Sample.noted [0xd800])) :=
  payload_eq_iff Sample.notedCrypto_once (Sample.noted_wf _) (Sample.noted_wf _)
    (Sample.verifyHead_noted _ (by simp)) (Sample.verifyHead_noted _ (by simp)) rfl rfl

/-- One signature on two heads: with U+FFFD in a field, and with a lone surrogate. -/
theorem payload_not_bound : ¬ ∀ (nc : NodeCrypto) (record record' : Json) (graph : JsString)
    (signers : List JsString), (∀ pub msg msg' sig, nc.verify pub msg sig = true →
      nc.verify pub msg' sig = true → msg = msg') → record.WF → record'.WF →
    verifyHead nc record graph signers = .ok record →
    verifyHead nc record' graph signers = .ok record' →
    record.get (js "public_key_multibase") = record'.get (js "public_key_multibase") →
    record.get (js "signature_multibase") = record'.get (js "signature_multibase") →
    payload record = payload record' := by
  intro h
  have := h Sample.notedCrypto (Sample.noted [0xfffd]) (Sample.noted [0xd800]) Sample.graph₀
    [Sample.did] Sample.notedCrypto_once (Sample.noted_wf _) (Sample.noted_wf _)
    (Sample.verifyHead_noted _ (by simp)) (Sample.verifyHead_noted _ (by simp)) rfl rfl
  exact absurd this (by decide)

/-! ## The canonical order of keys -/

section LengthFirst

variable (le : JsString → JsString → Prop)

/-- By byte length, then by `le`. -/
def LengthFirst (a b : JsString) : Prop :=
  (utf8 a).length < (utf8 b).length ∨ (utf8 a).length = (utf8 b).length ∧ le a b

variable {le}

theorem lengthFirst_total (total : ∀ a b, le a b ∨ le b a) (a b : JsString) :
    LengthFirst le a b ∨ LengthFirst le b a := by
  rcases Nat.lt_trichotomy (utf8 a).length (utf8 b).length with h | h | h
  · exact .inl (.inl h)
  · exact (total a b).imp (fun hab => .inr ⟨h, hab⟩) fun hba => .inr ⟨h.symm, hba⟩
  · exact .inr (.inl h)

theorem lengthFirst_trans (trans : ∀ a b c, le a b → le b c → le a c) (a b c : JsString) :
    LengthFirst le a b → LengthFirst le b c → LengthFirst le a c := by
  rintro (h | ⟨h, hab⟩) (h' | ⟨h', hbc⟩)
  · exact .inl (Nat.lt_trans h h')
  · exact .inl (h' ▸ h)
  · exact .inl (h ▸ h')
  · exact .inr ⟨h.trans h', trans a b c hab hbc⟩

theorem LengthFirst.antisymm {a b : JsString} (anti : le a b → le b a → a = b)
    (h : LengthFirst le a b) (h' : LengthFirst le b a) : a = b := by
  rcases h with h | ⟨h, hab⟩ <;> rcases h' with h' | ⟨h', hba⟩
  · omega
  · omega
  · omega
  · exact anti hab hba

end LengthFirst

instance : Std.Total cborKeyLe := ⟨lengthFirst_total (List.le_total · ·)⟩

instance : IsTrans JsString cborKeyLe := ⟨lengthFirst_trans fun _ _ _ => List.le_trans⟩

/-- The order canonical dag-cbor has: by byte length, then bytewise. -/
def bytesLe (a b : JsString) : Prop := LengthFirst (fun a b => utf8 a ≤ utf8 b) a b

instance : DecidableRel bytesLe := fun _ _ => inferInstanceAs (Decidable (_ ∨ _))

instance : Std.Total bytesLe := ⟨lengthFirst_total fun _ _ => List.le_total _ _⟩

instance : IsTrans JsString bytesLe := ⟨lengthFirst_trans fun _ _ _ => List.le_trans⟩

/-- Canonical dag-cbor: shortest heads, UTF-8, and the keys of every map in the canonical
order. -/
def canonicalDagCbor (v : Json) : Bytes := (item (v.sortKeys bytesLe)).encode

/-- Code units order keys of one byte length as their bytes do. -/
def OrdersAlike (a b : JsString) : Prop :=
  (utf8 a).length = (utf8 b).length → (a ≤ b ↔ utf8 a ≤ utf8 b)

instance : DecidableRel OrdersAlike := fun _ _ => inferInstanceAs (Decidable (_ → _))

theorem ordersAlike_iff {a b : JsString} : OrdersAlike a b ↔ (cborKeyLe a b ↔ bytesLe a b) := by
  unfold OrdersAlike cborKeyLe bytesLe LengthFirst
  by_cases h : (utf8 a).length = (utf8 b).length <;> simp [h]

mutual

theorem gather_nil : ∀ v : Json, gather (fun _ => ([] : List Unit)) v = []
  | .null => rfl
  | .bool _ => rfl
  | .num _ => rfl
  | .str _ => rfl
  | .arr xs => gatherList_nil xs
  | .obj kvs => gatherEntries_nil kvs

theorem gatherList_nil : ∀ xs : List Json, gatherList (fun _ => ([] : List Unit)) xs = []
  | [] => rfl
  | x :: xs => by rw [gatherList, gather_nil x, gatherList_nil xs, List.append_nil]

theorem gatherEntries_nil : ∀ kvs : List (JsString × Json),
    gatherEntries (fun _ => ([] : List Unit)) kvs = []
  | [] => rfl
  | e :: kvs => by rw [gatherEntries, gather_nil e.2, gatherEntries_nil kvs]; rfl

end

theorem fitsMembers_iff {kvs : List (JsString × Json)} :
    Cbor.Item.FitsMembers (itemEntries kvs) ↔
      ∀ e ∈ kvs, (utf8 e.1).length < 2 ^ 64 ∧ (item e.2).Fits := by
  induction kvs with
  | nil => simp [itemEntries, Cbor.Item.FitsMembers]
  | cons e kvs ih => simp [itemEntries, Cbor.Item.FitsMembers, ih]

mutual

/-- Sorting changes no length and no integer. -/
theorem fits_sortKeys (le : JsString → JsString → Prop) [DecidableRel le] : ∀ v : Json,
    (item (v.sortKeys le)).Fits ↔ (item v).Fits
  | .null => Iff.rfl
  | .bool _ => Iff.rfl
  | .num _ => Iff.rfl
  | .str _ => Iff.rfl
  | .arr xs => by
    rw [Json.sortKeys, item, item, Cbor.Item.Fits, Cbor.Item.Fits, itemList_length, itemList_length,
      Json.sortKeysList_length, fitsList_sortKeys le xs]
  | .obj kvs => by
    have hm : Cbor.Item.FitsMembers (itemEntries ((Json.sortKeysEntries le kvs).insertionSort
        fun a b => le a.1 b.1)) ↔ Cbor.Item.FitsMembers (itemEntries kvs) := by
      rw [← fitsMembers_sortKeys le kvs, fitsMembers_iff, fitsMembers_iff]
      simp only [List.mem_insertionSort]
    rw [Json.sortKeys, item, item, Cbor.Item.Fits, Cbor.Item.Fits, hm, itemEntries_length,
      itemEntries_length, List.length_insertionSort, Json.sortKeysEntries_eq_map, List.length_map]

theorem fitsList_sortKeys (le : JsString → JsString → Prop) [DecidableRel le] :
    ∀ xs : List Json, Cbor.Item.FitsList (itemList (Json.sortKeysList le xs)) ↔
      Cbor.Item.FitsList (itemList xs)
  | [] => Iff.rfl
  | x :: xs => and_congr (fits_sortKeys le x) (fitsList_sortKeys le xs)

theorem fitsMembers_sortKeys (le : JsString → JsString → Prop) [DecidableRel le] :
    ∀ kvs : List (JsString × Json),
      Cbor.Item.FitsMembers (itemEntries (Json.sortKeysEntries le kvs)) ↔
        Cbor.Item.FitsMembers (itemEntries kvs)
  | [] => Iff.rfl
  | e :: kvs => and_congr (and_congr Iff.rfl (fits_sortKeys le e.2)) (fitsMembers_sortKeys le kvs)

end

/-- Well-formed Unicode is determined by its item. -/
theorem eq_of_item {v w : Json} (hv : v.Safe) (hw : w.Safe) (hu : v.Strings WellFormed)
    (hu' : w.Strings WellFormed) (h : item v = item w) : v = w :=
  (item_append_inj (f := fun _ => ([] : List Unit)) (r := [])
    (fun hs ht h hr => ⟨hs.eq_of_utf8 ht h, hr⟩) hv hw hu hu' h
    (by rw [gather_nil, gather_nil])).1

/-- **Canonical dag-cbor**: what the encoder writes for a value of well-formed Unicode is
canonical exactly when, in every object, code units order the keys of one byte length as
their UTF-8 bytes do. -/
theorem dagCbor_canonical_iff {v : Json} {b : Bytes} (hw : v.WF) (hu : v.Strings WellFormed)
    (h : dagCbor v = .ok b) : b = canonicalDagCbor v ↔ v.KeyPairs OrdersAlike := by
  have hR : OrdersAlike = fun a b => cborKeyLe a b ↔ bytesLe a b := by
    funext a b
    exact propext ordersAlike_iff
  have anti : ∀ a b, WellFormed a → WellFormed b → cborKeyLe a b → cborKeyLe b a → a = b :=
    fun a b _ _ => LengthFirst.antisymm List.le_antisymm
  have anti' : ∀ a b, WellFormed a → WellFormed b → bytesLe a b → bytesLe b a → a = b :=
    fun a b ha hb => LengthFirst.antisymm fun h h' => ha.eq_of_utf8 hb (List.le_antisymm h h')
  obtain ⟨rfl, hf⟩ := cbor_eq h
  rw [canonicalDagCbor, hR]
  constructor
  · intro he
    have hs := safe_of_cbor h
    have hf' := (fits_sortKeys bytesLe v).mpr ((fits_sortKeys cborKeyLe v).mp hf)
    have hitem := Cbor.Item.encode_injective hf hf' he
    exact Json.keyPairs_of_sortKeys anti anti' hw hu
      (eq_of_item hs.sortKeys hs.sortKeys hu.sortKeys hu.sortKeys hitem)
  · intro hk
    rw [hk.sortKeys_eq]

namespace Sample

/-- Two keys of four bytes: a surrogate pair, and one from U+E000 on. -/
def astral : Json := .obj [([0xd800, 0xdc00], .null), ([0xe000, 0x61], .null)]

theorem astral_wf : astral.WF := by
  refine ⟨?_, trivial, trivial, trivial⟩
  show List.Pairwise (· < ·) [[0xd800, 0xdc00], [0xe000, 0x61]]
  decide

theorem astral_wellFormed : astral.Strings WellFormed :=
  ⟨⟨by decide, trivial⟩, ⟨by decide, trivial⟩, trivial⟩

end Sample

/-- Keys of one length that both orders agree on. -/
theorem dagCbor_canonical_iff_sample :
    [0xa2, 0x61, 0x61, 0xf6, 0x61, 0x62, 0xf6] =
        canonicalDagCbor (.obj [(js "a", .null), (js "b", .null)]) ↔
      (Json.obj [(js "a", .null), (js "b", .null)]).KeyPairs OrdersAlike := by
  refine dagCbor_canonical_iff ⟨?_, trivial, trivial, trivial⟩
    ⟨⟨by decide, trivial⟩, ⟨by decide, trivial⟩, trivial⟩ (by decide +kernel)
  show List.Pairwise (· < ·) [js "a", js "b"]
  decide

/-- Surrogates come before U+E000, the bytes of their code points after. -/
theorem dagCbor_not_canonical : ¬ ∀ (v : Json) (b : Bytes), v.WF → v.Strings WellFormed →
    dagCbor v = .ok b → b = canonicalDagCbor v := by
  intro h
  have := h Sample.astral _ Sample.astral_wf Sample.astral_wellFormed (by decide +kernel :
    dagCbor Sample.astral = .ok [0xa2, 0x64, 0xf0, 0x90, 0x80, 0x80, 0xf6, 0x64, 0xee, 0x80, 0x80,
      0x61, 0xf6])
  exact absurd this (by decide +kernel)

end GraphHead
