import Yataverse.Fallible.Rules
import Yataverse.Js.Held
import Yataverse.Js.Property
import Yataverse.Lake.Cid

/-!
# Pages of the listing

`capture_lake_inventory` reads the public listing of the lake page by page.

- `uploadedUtc`: when a block was uploaded.
- `Page`, `fetchListing`: the checks of a page.
- `checked_of_fetchListing`: every block of a page has a CID and a size that a double holds.
-/

namespace LakeCapture

open Js Json GraphHead Lake Fallible

/-! ## Time -/

/-- `months` -/
def months : List JsString :=
  [js "Jan", js "Feb", js "Mar", js "Apr", js "May", js "Jun", js "Jul", js "Aug", js "Sep", js "Oct", js "Nov", js "Dec"]

/-- `\w` -/
def isWord (u : UInt16) : Bool := inRange 'a' 'z' u || inRange 'A' 'Z' u || inRange '0' '9' u || u == unit '_'

/-- `\d` -/
def isDigit (u : UInt16) : Bool := inRange '0' '9' u

/-- The text as it is. -/
def literal (s : String) : List (UInt16 → Bool) := (js s).map fun c u => u == c

/-- `\w{3} (\w{3}) (\d\d) (\d{4}) (\d\d):(\d\d):(\d\d) GMT\+0000 \(Coordinated Universal Time\)` -/
def uploadedPattern : List (UInt16 → Bool) :=
  List.replicate 3 isWord ++ literal " " ++ List.replicate 3 isWord ++ literal " " ++ List.replicate 2 isDigit ++
    literal " " ++ List.replicate 4 isDigit ++ literal " " ++ List.replicate 2 isDigit ++ literal ":" ++
      List.replicate 2 isDigit ++ literal ":" ++ List.replicate 2 isDigit ++ literal " GMT+0000 (Coordinated Universal Time)"

/-- The number that the digits from `start` on write. -/
def numberAt (s : JsString) (start len : Nat) : Nat := ofDigits ((s.drop start).take len)

/-- The day of the first of a month, from 1970 on. -/
def firstDay (year month : Nat) : Int :=
  let y : Int := year
  let leap := year % 4 = 0 ∧ year % 100 ≠ 0 ∨ year % 400 = 0
  let before := ([0, 31, 59, 90, 120, 151, 181, 212, 243, 273, 304, 334].getD month 0 : Nat)
  365 * (y - 1970) + (y - 1969) / 4 - (y - 1901) / 100 + (y - 1601) / 400 + before + if leap ∧ 2 ≤ month then 1 else 0

/-- `Date.UTC`: milliseconds from 1970 on. A year before 100 is one of the last century. -/
def dateUtc (year month day hour minute second : Nat) : Int :=
  let days := firstDay (if year < 100 then 1900 + year else year) month + day - 1
  (((days * 24 + hour) * 60 + minute) * 60 + second) * 1000

/-- `uploaded-utc` -/
def uploadedUtc (v : Json) : Except JsString Int :=
  let s := v.text
  let month := months.idxOf? ((s.drop 4).take 3)
  match month with
  | some month =>
    if s.length = uploadedPattern.length ∧ (List.zipWith (fun p u => p u) uploadedPattern s).all id = true then
      .ok (dateUtc (numberAt s 11 4) month (numberAt s 8 2) (numberAt s 16 2) (numberAt s 19 2) (numberAt s 22 2))
    else .error (js "listing uploaded time is not the expected UTC form")
  | none => .error (js "listing uploaded time is not the expected UTC form")

example : uploadedUtc (.str (js "Tue Sep 29 2026 12:34:56 GMT+0000 (Coordinated Universal Time)")) = .ok 1790685296000 := by
  decide +kernel

/-! ## Pages -/

/-- A block of a page. -/
structure Block where
  cid : JsString
  size : Nat
  uploaded : Json

/-- A page that has passed its checks. -/
structure Page where
  blocks : List Block
  cursor : Option JsString
  truncated : Bool

/-- `page-limit` -/
def pageLimit : Nat := 2 * 1000 * 1000

/-- The checks of one block that is an object. -/
def checkFields (b : Json) : Except JsString Block :=
  match b.get (js "cid"), (b.get (js "size")).int? with
  | .str cid, size =>
    if cidRe cid = true then
      match size with
      | some size =>
        if 0 < size then .ok ⟨cid, size.toNat, b.get (js "uploaded")⟩
        else .error (js "lake listing contains an invalid block size")
      | none => .error (js "lake listing contains an invalid block size")
    else .error (js "lake listing contains an invalid CID")
  | _, _ => .error (js "lake listing contains an invalid CID")

/-- The checks of one block. -/
def checkBlock (b : Json) : Except JsString Block :=
  match b with
  | .null => .error (js "Cannot read properties of null (reading 'cid')")
  | b => checkFields b

/-- `cursor`, which is a string or nothing. -/
def cursorIn (l : Json) : Except JsString (Option JsString) :=
  match l.get (js "cursor") with
  | .null => .ok none
  | .str cursor => .ok (some cursor)
  | _ => .error (js "lake listing cursor is not a string")

/-- The checks of `fetch-listing`. -/
def checkListing (l : Json) : Except JsString Page := do
  require (l.get (js "ok") = .bool true) (js "lake listing did not return ok=true")
  let .arr blocks := l.get (js "blocks") | .error (js "lake listing has no bounded block page")
  require (0 < blocks.length ∧ blocks.length ≤ 200) (js "lake listing has no bounded block page")
  let .bool truncated := l.get (js "truncated?") | .error (js "lake listing has no truncation verdict")
  let cursor ← cursorIn l
  require (truncated = false ∨ cursor.isSome = true) (js "truncated lake listing has no cursor")
  let blocks ← blocks.mapM checkBlock
  return ⟨blocks, cursor, truncated⟩

/-- `fetch-listing`, on the body of the answer. -/
def fetchListing (body : Bytes) : Except JsString Page := do
  require (body.length ≤ pageLimit) (js "lake listing page exceeds 2 MB")
  match Json.parse (ofUtf8 body) with
  | none => .error (js "lake listing is not JSON")
  | some .null => .error (js "Cannot read properties of null (reading 'blocks')")
  | some l => checkListing l

variable {v l : Json} {b : Block} {page : Page} {body : Bytes}

/-! ## What is in a page -/

/-- A block that has passed its checks. -/
structure Block.Checked (b : Block) : Prop where
  cid : cidRe b.cid = true
  held : (Number.int b.size).Held
  sized : 1 ≤ b.size

theorem checked_of_checkFields (hv : v.Numbers Number.Held) (h : checkFields v = .ok b) : b.Checked := by
  unfold checkFields at h
  have hheld := hv.get (js "size")
  cases hcid : v.get (js "cid") with
  | str cid =>
    rw [hcid] at h
    dsimp only at h
    by_cases hre : cidRe cid = true
    · rw [if_pos hre] at h
      cases hget : v.get (js "size") with
      | num x =>
        rw [hget] at h hheld
        cases x with
        | int m =>
          dsimp only [int?] at h
          by_cases hpos : 0 < m
          · rw [if_pos hpos] at h
            obtain rfl := Except.ok.inj h
            obtain ⟨n, rfl⟩ := Int.eq_ofNat_of_zero_le hpos.le
            exact ⟨hre, hheld, by exact_mod_cast hpos⟩
          · rw [if_neg hpos] at h
            cases h
        | frac q => cases h
        | inf negative => cases h
      | _ =>
        rw [hget] at h
        cases h
    · rw [if_neg hre] at h
      cases h
  | _ =>
    rw [hcid] at h
    cases h

theorem checked_of_checkBlock (hv : v.Numbers Number.Held) (h : checkBlock v = .ok b) : b.Checked := by
  cases v with
  | null => cases h
  | _ => exact checked_of_checkFields hv h

theorem numbers_of_mem {P : Number → Prop} {xs : List Json} (h : NumbersList P xs) (hv : v ∈ xs) : v.Numbers P := by
  induction xs with
  | nil => cases hv
  | cons x xs ih =>
    rcases List.mem_cons.mp hv with rfl | hv
    · exact h.1
    · exact ih h.2 hv

/-- A page that has passed its checks. -/
structure Page.Checked (page : Page) : Prop where
  blocks : ∀ b ∈ page.blocks, b.Checked
  nonempty : page.blocks ≠ []
  goesOn : page.truncated = true → page.cursor.isSome = true

theorem checked_of_checkListing (hl : l.Numbers Number.Held) (h : checkListing l = .ok page) : page.Checked := by
  unfold checkListing at h
  obtain ⟨_, -, h⟩ := bind_eq_ok.mp h
  have hheld := hl.get (js "blocks")
  cases hblocks : l.get (js "blocks") with
  | arr xs =>
    rw [hblocks] at h hheld
    dsimp only at h
    obtain ⟨_, hlen, h⟩ := bind_eq_ok.mp h
    have hlen := require_eq_ok.mp hlen
    cases htruncated : l.get (js "truncated?") with
    | bool truncated =>
      rw [htruncated] at h
      dsimp only at h
      obtain ⟨cursor, -, h⟩ := bind_eq_ok.mp h
      obtain ⟨_, hcursor, h⟩ := bind_eq_ok.mp h
      have hcursor := require_eq_ok.mp hcursor
      obtain ⟨blocks, hmap, h⟩ := bind_eq_ok.mp h
      obtain rfl := Except.ok.inj h
      have hforall := mapM_eq_ok.mp hmap
      refine ⟨fun b hb => ?_, ?_, fun ht => ?_⟩
      · obtain ⟨x, hx, hcheck⟩ := mapM_mem hmap b hb
        exact checked_of_checkBlock (numbers_of_mem hheld hx) hcheck
      · rintro rfl
        have := hforall.length_eq
        rw [List.length_nil] at this
        omega
      · have ht : truncated = true := ht
        exact hcursor.resolve_left (by rw [ht]; decide)
    | _ =>
      rw [htruncated] at h
      cases h
  | _ =>
    rw [hblocks] at h
    cases h

/-- **A page has CIDs and sizes that a double holds.** -/
theorem checked_of_fetchListing (h : fetchListing body = .ok page) : page.Checked := by
  unfold fetchListing at h
  obtain ⟨_, -, h⟩ := bind_eq_ok.mp h
  cases hparse : Json.parse (ofUtf8 body) with
  | none =>
    rw [hparse] at h
    cases h
  | some l =>
    rw [hparse] at h
    have hl := numbers_of_parse hparse
    cases l with
    | null => cases h
    | _ => exact checked_of_checkListing hl h

end LakeCapture
