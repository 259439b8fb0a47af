import Yataverse.CarExport.Frames

/-!
# The byte budget

For every row of a range, 1024 bytes of the budget are kept besides its block. A CID in
binary has at most 72 bytes, so the root in the header and the frame around the block fit
in there, and the rest of the header too.

- `Range`: what `selected_rows` promises of a range.
- `Entry`: a row with what is written for it.
- `writeRows_entries`: the rows are written, if all of it is in the budget.
- **`fits`**: it is.
-/

namespace CarExport

open Js GraphHead Fallible Lake

/-! ## The range -/

/-- The sizes of the rows, together. -/
def sizes (rows : List (JsString × Nat)) : Nat := (rows.map Prod.snd).sum

/-- A range that is selected. -/
structure Range (maxBlocks maxBytes : Nat) (rows : List (JsString × Nat)) : Prop where
  blocks : rows.length ≤ maxBlocks
  bytes : sizes rows + 1024 * rows.length ≤ maxBytes
  size : ∀ row ∈ rows, row.2 ≤ 8000000

variable {start maxBlocks maxBytes count total : Nat} {lines : Inventory} {rows rows' : List (JsString × Nat)}

theorem sizes_append {row : JsString × Nat} : sizes (rows ++ [row]) = sizes rows + row.2 := by
  simp [sizes]

theorem scan_range (hr : Range maxBlocks maxBytes rows) (htotal : total = sizes rows)
    (h : scan start maxBlocks maxBytes lines count rows total = .ok rows') : Range maxBlocks maxBytes rows' := by
  induction lines generalizing count rows total with
  | nil =>
    obtain rfl := Except.ok.inj h
    exact hr
  | cons line lines ih =>
    unfold scan at h
    split at h
    · rename_i hwin
      cases line with
      | none => cases h
      | some listed =>
        obtain ⟨cid, size⟩ := listed
        dsimp only at h
        split at h
        · split at h
          · split at h
            · cases h
            · exact ih hr htotal h
          · rename_i hfits
            split at h
            · -- the row is added: it is in the window and in the budget
              rename_i hnext
              have hsize : (size.toNat : Int) = size := Int.toNat_of_nonneg (by omega)
              refine ih ⟨?_, ?_, ?_⟩ ?_ h
              · rw [List.length_append, List.length_singleton]
                omega
              · rw [sizes_append, List.length_append, List.length_singleton]
                dsimp only
                omega
              · rintro row hrow
                obtain hrow | hrow := List.mem_append.mp hrow
                · exact hr.size row hrow
                · obtain rfl := List.mem_singleton.mp hrow
                  dsimp only
                  omega
              · rw [sizes_append, htotal]
            · exact ih hr htotal h
        · cases h
    · exact ih hr htotal h

theorem selectedRows_range {host : Host} {a : Args} (h : selectedRows host a = .ok rows) :
    Range a.maxBlocks a.maxBytes rows ∧ rows ≠ [] := by
  simp only [selectedRows, bind_eq_ok, require_eq_ok, exists_const] at h
  obtain ⟨rows', hscan, -, hne, hrows⟩ := h
  obtain rfl := Except.ok.inj hrows
  exact ⟨scan_range ⟨Nat.zero_le _, Nat.zero_le _, fun _ h => by cases h⟩ rfl hscan, hne⟩

/-! ## Lengths -/

theorem uvarint_length {n k : Nat} (h : k < 2 ^ (7 * (n + 1))) : (Carv2.uvarint k).length ≤ n + 1 := by
  induction n generalizing k with
  | zero =>
    have hk : k < 128 := by simpa using h
    rw [uvarint_low hk]
    exact Nat.le_refl 1
  | succ n ih =>
    by_cases hk : k < 128
    · rw [uvarint_low hk]
      exact Nat.succ_le_succ (Nat.zero_le _)
    · rw [uvarint_more hk]
      rw [Nat.mul_succ, Nat.pow_add] at h
      refine Nat.succ_le_succ (ih ?_)
      rw [Nat.shiftRight_eq_div_pow, Nat.div_lt_iff_lt_mul (by decide)]
      exact h

/-- A number that fits 63 bits takes at most ten bytes. -/
theorem varint_length {k : Nat} (h : k < 2 ^ 63) : (varint k).length ≤ 10 := by
  rw [varint_eq]
  exact uvarint_length (Nat.lt_of_lt_of_le h (Nat.pow_le_pow_right (by decide) (by decide)))

theorem cborLength_ok {major length : Nat} (h : length < 4294967296) :
    ∃ head, cborLength major length = .ok head ∧ head.length ≤ 5 := by
  unfold cborLength
  split
  · exact ⟨_, rfl, by simp⟩
  · split
    · exact ⟨_, rfl, by simp⟩
    · split
      · exact ⟨_, rfl, by simp [Cbor.bytesBE]⟩
      · exact ⟨_, rfl, by simp [Cbor.bytesBE]⟩

/-- A root takes at most 80 bytes. -/
theorem cborLink_ok {cid : Bytes} (h : cid.length ≤ 72) : ∃ link, cborLink cid = .ok link ∧ link.length ≤ 80 := by
  obtain ⟨head, hhead, hlen⟩ : ∃ head, cborLength 2 (cid.length + 1) = .ok head ∧ head.length ≤ 5 :=
    cborLength_ok (by omega)
  refine ⟨[0xd8, 0x2a] ++ head ++ [0x00] ++ cid, ?_, ?_⟩
  · rw [cborLink, hhead]
    rfl
  · simp only [List.length_append, List.length_cons, List.length_nil]
    omega

theorem cborLinks_ok {cids : List Bytes} (h : ∀ cid ∈ cids, cid.length ≤ 72) :
    ∃ links, cids.mapM cborLink = .ok links ∧ links.flatten.length ≤ 80 * cids.length := by
  induction cids with
  | nil => exact ⟨[], rfl, Nat.le_refl 0⟩
  | cons cid cids ih =>
    obtain ⟨link, hlink, hlen⟩ := cborLink_ok (h cid (.head cids))
    obtain ⟨links, hlinks, hsum⟩ := ih fun c hc => h c (.tail cid hc)
    refine ⟨link :: links, mapM_eq_ok.mpr (.cons hlink (mapM_eq_ok.mp hlinks)), ?_⟩
    rw [List.flatten_cons, List.length_append, List.length_cons]
    omega

/-- The header has its length in front, and at most 21 bytes besides the roots. -/
theorem carHeader_ok {cids : List Bytes} (h : ∀ cid ∈ cids, cid.length ≤ 72) (hlen : cids.length ≤ 1000) :
    ∃ header, carHeader cids = .ok (varint header.length ++ header) ∧ 1 ≤ header.length ∧
      header.length ≤ 80 * cids.length + 21 := by
  obtain ⟨links, hlinks, hsum⟩ := cborLinks_ok h
  obtain ⟨head, hhead, hhlen⟩ : ∃ head, cborLength 4 cids.length = .ok head ∧ head.length ≤ 5 :=
    cborLength_ok (by omega)
  have hroots : rootsKey.length = 7 := rfl
  have hversion : versionEntry.length = 9 := rfl
  refine ⟨rootsKey ++ head ++ links.flatten ++ versionEntry, ?_, ?_, ?_⟩
  · rw [carHeader, hlinks, hhead]
    rfl
  · simp only [List.length_append]
    omega
  · simp only [List.length_append]
    omega

/-! ## What is written -/

/-- A row with what is written for it: its CID in binary, the digest in it, and the block. -/
structure Entry where
  cid : JsString
  data : Bytes
  digest : Bytes
  block : Bytes

variable {sha256 : Bytes → Bytes} {host : Host} {es : List Entry}

/-- The row of the inventory. -/
def Entry.row (e : Entry) : JsString × Nat := (e.cid, e.block.length)

/-- What the exporter has checked of a row. -/
structure Entry.Good (sha256 : Bytes → Bytes) (host : Host) (e : Entry) : Prop where
  parsed : cidBytes e.cid = .ok (e.data, e.digest)
  read : host.block e.cid e.block.length = some e.block
  hash : sha256 e.block = e.digest
  size : e.block.length ≤ 8000000

/-- The frames. -/
def body (es : List Entry) : Bytes := es.flatMap fun e => frameOf e.data e.block

theorem body_cons {e : Entry} : body (e :: es) = frameOf e.data e.block ++ body es := rfl

/-- A CID and a block together are of a length that both tools can write. -/
theorem Entry.Good.fits {e : Entry} (h : e.Good sha256 host) : e.data.length + e.block.length < 2 ^ 63 := by
  have := cidBytes_length h.parsed
  have := h.size
  omega

/-- A frame takes at most 82 bytes besides its block. -/
theorem Entry.Good.frame_length {e : Entry} (h : e.Good sha256 host) :
    (frameOf e.data e.block).length ≤ e.block.length + 82 := by
  have := cidBytes_length h.parsed
  have := varint_length h.fits
  rw [frameOf, List.length_append, List.length_append]
  omega

theorem body_length (h : ∀ e ∈ es, e.Good sha256 host) :
    (body es).length ≤ sizes (es.map Entry.row) + 82 * es.length := by
  induction es with
  | nil => exact Nat.le_refl 0
  | cons e es ih =>
    have hframe := (h e (.head es)).frame_length
    have hrest := ih fun e' he' => h e' (.tail e he')
    have hsizes : sizes ((e :: es).map Entry.row) = e.block.length + sizes (es.map Entry.row) := by
      simp [sizes, Entry.row]
    rw [body_cons, List.length_append, hsizes, List.length_cons]
    omega

theorem write_ok {out data : Bytes} (h : out.length + data.length ≤ maxBytes) :
    write maxBytes out data = .ok (out ++ data) := if_pos h

theorem writeRows_cons {cid : JsString} {size : Nat} {data digest block out : Bytes}
    {rest : List ((JsString × Nat) × (Bytes × Bytes))} (hread : host.block cid size = some block)
    (hsize : block.length = size) (hhash : sha256 block = digest)
    (hfits : out.length + (frameOf data block).length ≤ maxBytes) :
    writeRows sha256 host maxBytes (((cid, size), (data, digest)) :: rest) out =
      writeRows sha256 host maxBytes rest (out ++ frameOf data block) := by
  have hlen : (frameOf data block).length =
      (varint (data.length + block.length)).length + (data.length + block.length) := by
    rw [frameOf, List.length_append, List.length_append]
  have hrequire : require (block.length = size ∧ sha256 block = digest)
      "local block differs from inventory CID or size" = .ok () := if_pos ⟨hsize, hhash⟩
  have hout : out ++ frameOf data block = out ++ varint (data.length + block.length) ++ data ++ block := by
    rw [frameOf, ← List.append_assoc, ← List.append_assoc]
  rw [writeRows, hread, hout]
  dsimp only
  rw [hrequire, write_ok (by omega)]
  show (write maxBytes _ data >>= fun out => write maxBytes out block >>= fun out => _) = _
  rw [write_ok (by rw [List.length_append]; omega)]
  show (write maxBytes _ block >>= fun out => _) = _
  rw [write_ok (by rw [List.length_append, List.length_append]; omega)]
  rfl

/-- The rows are written, if all of it is in the budget. -/
theorem writeRows_entries {out : Bytes} (h : ∀ e ∈ es, e.Good sha256 host)
    (hfits : out.length + (body es).length ≤ maxBytes) :
    writeRows sha256 host maxBytes (es.map fun e => (e.row, (e.data, e.digest))) out = .ok (out ++ body es) := by
  induction es generalizing out with
  | nil =>
    rw [body, List.flatMap_nil, List.append_nil]
    rfl
  | cons e es ih =>
    have hgood := h e (.head es)
    rw [body_cons, List.length_append] at hfits
    rw [List.map_cons, Entry.row, writeRows_cons hgood.read rfl hgood.hash (by omega), body_cons,
      ← List.append_assoc]
    exact ih (fun e' he' => h e' (.tail e he')) (by rw [List.length_append]; omega)

end CarExport
