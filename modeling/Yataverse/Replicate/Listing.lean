import Yataverse.Replicate.Checkpoint
import Yataverse.Lake.Cid
import Yataverse.Js.Parse

/-!
# Cursors and inventories

What `replicate_lake.py` reads before it moves a checkpoint to another listing: the CID in a
cursor of the public listing, and the rows of an inventory file.

- `legacyCursorCid`: the CID behind which a public listing goes on.
- `Inventory`: an inventory file, by its digest and its lines.
- `inventoryOffset`: how many lines there are up to a CID.
- `inventorySizes`: the sizes of all blocks of an inventory.
-/

namespace Replicate

open Js GraphHead Lake Fallible

/-! ## Legacy cursors -/

/-- `bytes.decode("utf-8")`. -/
def decodeUtf8 (bytes : Bytes) : Option JsString :=
  if utf8 (ofUtf8 bytes) = bytes then some (ofUtf8 bytes) else none

/-- A hexadecimal digit. -/
def hexValue (b : UInt8) : Option Nat :=
  if 48 ≤ b ∧ b ≤ 57 then some (b.toNat - 48)
  else if 65 ≤ b ∧ b ≤ 70 then some (b.toNat - 55)
  else if 97 ≤ b ∧ b ≤ 102 then some (b.toNat - 87)
  else none

/-- `unquote_to_bytes`: `%` with two hexadecimal digits behind it is one byte. -/
def unquoteBytes : Bytes → Bytes
  | [] => []
  | 37 :: a :: b :: rest =>
    match hexValue a, hexValue b with
    | some x, some y => byte (16 * x + y) :: unquoteBytes rest
    | _, _ => 37 :: unquoteBytes (a :: b :: rest)
  | c :: rest => c :: unquoteBytes rest

/-- `urllib.parse.unquote`. -/
def unquote (s : JsString) : JsString := ofUtf8 (unquoteBytes (utf8 s))

/-- `[A-Za-z0-9_-]`. -/
def isUrlSafe (u : UInt16) : Bool :=
  inRange 'A' 'Z' u || inRange 'a' 'z' u || inRange '0' '9' u || u == unit '_' || u == unit '-'

/-- The payload of a cursor: base64 of a quoted JSON text. -/
def cursorPayload (encoded : JsString) : Option Json :=
  if encoded.length % 4 = 1 then none
  else (decodeUtf8 (base64url encoded)).bind fun text => Json.parse (unquote text)

/-- `payload.get("v") == 1`. -/
def isVersionOne : Json → Bool
  | .num (.int 1) | .bool true => true
  | _ => false

/-- `legacy_cursor_cid`. -/
def legacyCursorCid (cursor : JsString) : Except Error JsString := do
  require (cursor.take 2 = js "1-" ∧ cursor.drop 2 ≠ [] ∧ (cursor.drop 2).all isUrlSafe = true)
    (.replication "legacy listing cursor has unknown format")
  match cursorPayload (cursor.drop 2) with
  | none => .error (.replication "legacy listing cursor cannot be decoded")
  | some payload =>
    match isVersionOne (payload.get (js "v")), payload.get (js "startAfter") with
    | true, .str key =>
      if key.take 5 = js "ipld/" ∧ cidRe (key.drop 5) = true then .ok (key.drop 5)
      else .error (.replication "legacy listing cursor has no valid block CID")
    | _, _ => .error (.replication "legacy listing cursor has no valid block CID")

/-! ## Inventory files -/

/-- A line of an inventory: no JSON object, or one with what stands under `cid`, where that is
a string, and under `bytes`, where that is a positive integer. -/
inductive Line where
  | unreadable
  | object (cid : Option JsString) (bytes : Option Nat)
deriving DecidableEq

/-- An inventory file. -/
structure Inventory where
  sha256 : JsString
  lines : List Line

/-- From the line `index` on: the number of lines up to the
first one with the CID. What stands behind that one is not read. -/
def offsetOf (cid : JsString) : List Line → Nat → Except Error (Option Nat)
  | [], _ => .ok none
  | .unreadable :: _, _ => .error (.replication "inventory row is unreadable")
  | .object found _ :: lines, index =>
    if found = some cid then .ok (some (index + 1)) else offsetOf cid lines (index + 1)

/-- The loop of `inventory_offset`. Without a CID no line is read as JSON. -/
def offsetAfter (after : Option JsString) (lines : List Line) : Except Error (Option Nat) :=
  match after with
  | some cid => offsetOf cid lines 0
  | none => .ok none

/-- `inventory_offset`. -/
def inventoryOffset (file : Option Inventory) (expected : JsString) (after : Option JsString) :
    Except Error (Option JsString) := do
  require (sha256Re expected = true) (.replication "inventory digest is invalid")
  match file with
  | none => .error .os
  | some inventory => do
    let offset ← offsetAfter after inventory.lines
    require (inventory.sha256 = expected) (.replication "inventory digest differs from pinned snapshot")
    require (after = none ∨ offset ≠ none) (.replication "legacy cursor CID absent from local inventory")
    return offset.map natStr

/-- The loop of `inventory_sizes`. -/
def sizesOf : List Line → List (JsString × Nat) → Except Error (List (JsString × Nat))
  | [], sizes => .ok sizes
  | .object (some cid) (some size) :: lines, sizes =>
    if cidRe cid = true ∧ sizes.lookup cid = none then sizesOf lines (sizes ++ [(cid, size)])
    else .error (.replication "inventory CID, size, or uniqueness is invalid")
  | .object _ _ :: _, _ => .error (.replication "inventory CID, size, or uniqueness is invalid")
  | .unreadable :: _, _ => .error (.replication "inventory row is unreadable")

/-- `inventory_sizes`. -/
def inventorySizes (file : Option Inventory) (expected : Option JsString) :
    Except Error (List (JsString × Nat)) := do
  match expected with
  | none => .error (.replication "inventory digest is invalid")
  | some expected => do
    require (sha256Re expected = true) (.replication "inventory digest is invalid")
    match file with
    | none => .error .os
    | some inventory => do
      let sizes ← sizesOf inventory.lines []
      require (inventory.sha256 = expected ∧ sizes ≠ [])
        (.replication "inventory digest differs from pinned snapshot or is empty")
      return sizes

variable {file : Option Inventory} {expected : JsString}

/-- An inventory whose sizes are read has the digest that is expected. -/
theorem inventoryOffset_of_sizes {sizes : List (JsString × Nat)} (h : inventorySizes file (some expected) = .ok sizes) :
    inventoryOffset file expected none = .ok none := by
  cases file with
  | none =>
    obtain ⟨_, -, h⟩ := bind_eq_ok.mp h
    cases h
  | some inventory =>
    simp only [inventorySizes, bind_eq_ok, require_eq_ok] at h
    obtain ⟨_, hre, _, -, _, ⟨hsha, -⟩, -⟩ := h
    simp only [inventoryOffset, bind_eq_ok]
    exact ⟨(), require_eq_ok.mpr hre, none, rfl, (), require_eq_ok.mpr hsha, (), require_eq_ok.mpr (.inl trivial), rfl⟩

/-- The digest does not depend on the CID that is looked for. -/
theorem inventoryOffset_none {after offset : Option JsString} (h : inventoryOffset file expected after = .ok offset) :
    inventoryOffset file expected none = .ok none := by
  cases file with
  | none =>
    obtain ⟨_, -, h⟩ := bind_eq_ok.mp h
    cases h
  | some inventory =>
    simp only [inventoryOffset, bind_eq_ok, require_eq_ok] at h
    obtain ⟨_, hre, _, -, _, hsha, -⟩ := h
    simp only [inventoryOffset, bind_eq_ok]
    exact ⟨(), require_eq_ok.mpr hre, none, rfl, (), require_eq_ok.mpr hsha, (), require_eq_ok.mpr (.inl trivial), rfl⟩

/-- An offset is a number. -/
theorem inventoryOffset_digits {after : Option JsString} {offset : JsString}
    (h : inventoryOffset file expected after = .ok (some offset)) : ∃ n, offset = natStr n := by
  cases file with
  | none =>
    obtain ⟨_, -, h⟩ := bind_eq_ok.mp h
    cases h
  | some inventory =>
    simp only [inventoryOffset, bind_eq_ok, require_eq_ok] at h
    obtain ⟨_, -, found, -, _, -, _, -, h⟩ := h
    obtain ⟨n, -, hn⟩ := Option.map_eq_some_iff.mp (Except.ok.inj h)
    exact ⟨n, hn.symm⟩

end Replicate
