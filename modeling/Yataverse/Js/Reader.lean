import Yataverse.Js.Loads

/-!
# Readers of JSON

`JSON.parse` and `json.loads` have one grammar and differ in what they read as a number.

- `valueStep`, `elementsStep`, `membersStep`: one call of each of the three functions of a reader.
- `Reader`: the functions, defined by these steps; `jsonReader`, `pythonReader`: the two of them.
- `ReadsValue`, `ReadsElements`, `ReadsMembers`: what a step has read.
- **`Reader.enough`**: as much fuel as units are read is enough.
-/

namespace Js

open Json

/-! ## Steps -/

section

variable (num value : JsString → Option (Json × JsString)) (elements : JsString → Option (List Json × JsString))
  (members : JsString → Option (List (JsString × Json) × JsString))

/-- One call of `readValue`. -/
def valueStep (s : JsString) : Option (Json × JsString) :=
  let s := s.dropWhile isSpace
  match s with
  | [] => none
  | u :: r =>
    if u = unit '"' then (readString r).map fun (t, r) => (str t, r)
    else if u = unit '[' then
      match skip ']' (r.dropWhile isSpace) with
      | some r => some (arr [], r)
      | none => (elements r).map fun (xs, r) => (arr xs, r)
    else if u = unit '{' then
      match skip '}' (r.dropWhile isSpace) with
      | some r => some (obj [], r)
      | none => (members r).map fun (kvs, r) => (obj kvs, r)
    else if u = unit 'n' then readWord (js "null") null s
    else if u = unit 't' then readWord (js "true") (bool true) s
    else if u = unit 'f' then readWord (js "false") (bool false) s
    else num s

/-- One call of `readElements`. -/
def elementsStep (s : JsString) : Option (List Json × JsString) := do
  let (v, s) ← value s
  let s := s.dropWhile isSpace
  match skip ',' s with
  | some r =>
    let (xs, r) ← elements r
    return (v :: xs, r)
  | none => (skip ']' s).map fun r => ([v], r)

/-- One call of `readMembers`. -/
def membersStep (s : JsString) : Option (List (JsString × Json) × JsString) := do
  let (k, s) ← readString (← skip '"' (s.dropWhile isSpace))
  let (v, s) ← value (← skip ':' (s.dropWhile isSpace))
  let s := s.dropWhile isSpace
  match skip ',' s with
  | some r =>
    let (kvs, r) ← members r
    return (insertNew k v kvs, r)
  | none => (skip '}' s).map fun r => ([(k, v)], r)

end

/-- A reader: its functions call each other as the steps say, with one unit of fuel less. -/
structure Reader where
  num : JsString → Option (Json × JsString)
  value : Nat → JsString → Option (Json × JsString)
  elements : Nat → JsString → Option (List Json × JsString)
  members : Nat → JsString → Option (List (JsString × Json) × JsString)
  value_zero : ∀ s, value 0 s = none
  elements_zero : ∀ s, elements 0 s = none
  members_zero : ∀ s, members 0 s = none
  value_succ : ∀ fuel s, value (fuel + 1) s = valueStep num (elements fuel) (members fuel) s
  elements_succ : ∀ fuel s, elements (fuel + 1) s = elementsStep (value fuel) (elements fuel) s
  members_succ : ∀ fuel s, members (fuel + 1) s = membersStep (value fuel) (members fuel) s

/-- The value of a text. -/
def Reader.parse (R : Reader) (s : JsString) : Option Json :=
  match R.value (s.length + 1) s with
  | some (v, r) => if r.all isSpace then some v else none
  | none => none

/-- `JSON.parse` -/
def jsonReader : Reader where
  num := Json.readNumber
  value := Json.readValue
  elements := Json.readElements
  members := Json.readMembers
  value_zero _ := rfl
  elements_zero _ := rfl
  members_zero _ := rfl
  value_succ _ _ := by rw [Json.readValue]; rfl
  elements_succ _ _ := by rw [Json.readElements]; rfl
  members_succ _ _ := by rw [Json.readMembers]; rfl

/-- `json.loads` -/
def pythonReader : Reader where
  num := Loads.readFloatWord
  value := Loads.readValue
  elements := Loads.readElements
  members := Loads.readMembers
  value_zero _ := rfl
  elements_zero _ := rfl
  members_zero _ := rfl
  value_succ _ _ := by rw [Loads.readValue]; rfl
  elements_succ _ _ := by rw [Loads.readElements]; rfl
  members_succ _ _ := by rw [Loads.readMembers]; rfl

theorem jsonReader_parse (s : JsString) : jsonReader.parse s = Json.parse s := rfl

theorem pythonReader_parse (s : JsString) : pythonReader.parse s = loads s := rfl

/-! ## What a step has read -/

/-- The words that stand for values. -/
def words : List (JsString × Json) := [(js "null", null), (js "true", bool true), (js "false", bool false)]

/-- The first units of values that are not numbers. -/
def marks : JsString := [unit '"', unit '[', unit '{', unit 'n', unit 't', unit 'f']

section

variable (num value : JsString → Option (Json × JsString)) (elements : JsString → Option (List Json × JsString))
  (members : JsString → Option (List (JsString × Json) × JsString))

inductive ReadsValue : JsString → Json → JsString → Prop
  | str {s t x r : JsString} (hs : s.dropWhile isSpace = unit '"' :: t) (hx : readString t = some (x, r)) :
      ReadsValue s (str x) r
  | emptyArr {s t r : JsString} (hs : s.dropWhile isSpace = unit '[' :: t)
      (hend : skip ']' (t.dropWhile isSpace) = some r) : ReadsValue s (arr []) r
  | arr {s t r : JsString} {xs : List Json} (hs : s.dropWhile isSpace = unit '[' :: t)
      (hmore : skip ']' (t.dropWhile isSpace) = none) (hxs : elements t = some (xs, r)) : ReadsValue s (arr xs) r
  | emptyObj {s t r : JsString} (hs : s.dropWhile isSpace = unit '{' :: t)
      (hend : skip '}' (t.dropWhile isSpace) = some r) : ReadsValue s (obj []) r
  | obj {s t r : JsString} {kvs : List (JsString × Json)} (hs : s.dropWhile isSpace = unit '{' :: t)
      (hmore : skip '}' (t.dropWhile isSpace) = none) (hkvs : members t = some (kvs, r)) : ReadsValue s (obj kvs) r
  | word {s w r : JsString} {v : Json} (hw : (w, v) ∈ words) (hs : s.dropWhile isSpace = w ++ r) : ReadsValue s v r
  | num {s t r : JsString} {u : UInt16} {v : Json} (hs : s.dropWhile isSpace = u :: t) (hu : u ∉ marks)
      (hx : num (u :: t) = some (v, r)) : ReadsValue s v r

inductive ReadsElements : JsString → List Json → JsString → Prop
  | next {s s' t r : JsString} {v : Json} {xs : List Json} (hv : value s = some (v, s'))
      (hsep : skip ',' (s'.dropWhile isSpace) = some t) (hxs : elements t = some (xs, r)) : ReadsElements s (v :: xs) r
  | last {s s' r : JsString} {v : Json} (hv : value s = some (v, s'))
      (hsep : skip ',' (s'.dropWhile isSpace) = none) (hend : skip ']' (s'.dropWhile isSpace) = some r) :
      ReadsElements s [v] r

/-- The key of an entry, and what is behind its colon. -/
structure ReadsKey (s k t : JsString) : Prop where
  reads : ∃ q a, skip '"' (s.dropWhile isSpace) = some q ∧ readString q = some (k, a) ∧
    skip ':' (a.dropWhile isSpace) = some t

inductive ReadsMembers : JsString → List (JsString × Json) → JsString → Prop
  | next {s k t s' t' r : JsString} {v : Json} {kvs : List (JsString × Json)} (hk : ReadsKey s k t)
      (hv : value t = some (v, s')) (hsep : skip ',' (s'.dropWhile isSpace) = some t')
      (hkvs : members t' = some (kvs, r)) : ReadsMembers s (insertNew k v kvs) r
  | last {s k t s' r : JsString} {v : Json} (hk : ReadsKey s k t) (hv : value t = some (v, s'))
      (hsep : skip ',' (s'.dropWhile isSpace) = none) (hend : skip '}' (s'.dropWhile isSpace) = some r) :
      ReadsMembers s [(k, v)] r

end

section

variable {num value : JsString → Option (Json × JsString)} {elements : JsString → Option (List Json × JsString)}
  {members : JsString → Option (List (JsString × Json) × JsString)} {s r w : JsString} {v v' : Json} {xs : List Json}
  {kvs : List (JsString × Json)}

theorem readWord_eq_some : readWord w v' s = some (v, r) ↔ v = v' ∧ s = w ++ r := by
  unfold readWord
  constructor
  · intro h
    split_ifs at h with hw
    obtain ⟨rfl, rfl⟩ := Prod.mk.inj (Option.some.inj h)
    obtain ⟨t, rfl⟩ := List.isPrefixOf_iff_prefix.mp hw
    rw [List.drop_left]
    exact ⟨rfl, rfl⟩
  · rintro ⟨rfl, rfl⟩
    rw [if_pos (List.isPrefixOf_iff_prefix.mpr (List.prefix_append w r)), List.drop_left]

theorem valueStep_eq_some : valueStep num elements members s = some (v, r) ↔ ReadsValue num elements members s v r := by
  constructor
  · intro h
    unfold valueStep at h
    cases hs : s.dropWhile isSpace with
    | nil =>
      rw [hs] at h
      cases h
    | cons u t =>
      rw [hs] at h
      dsimp only at h
      split_ifs at h with h₁ h₂ h₃ h₄ h₅ h₆
      · obtain ⟨⟨x, r'⟩, hx, hp⟩ := Option.map_eq_some_iff.mp h
        obtain ⟨rfl, rfl⟩ := Prod.mk.inj hp
        exact .str (hs.trans (h₁ ▸ rfl)) hx
      · cases hend : skip ']' (t.dropWhile isSpace) with
        | some r' =>
          rw [hend] at h
          obtain ⟨rfl, rfl⟩ := Prod.mk.inj (Option.some.inj h)
          exact .emptyArr (hs.trans (h₂ ▸ rfl)) hend
        | none =>
          rw [hend] at h
          obtain ⟨⟨xs, r'⟩, hxs, hp⟩ := Option.map_eq_some_iff.mp h
          obtain ⟨rfl, rfl⟩ := Prod.mk.inj hp
          exact .arr (hs.trans (h₂ ▸ rfl)) hend hxs
      · cases hend : skip '}' (t.dropWhile isSpace) with
        | some r' =>
          rw [hend] at h
          obtain ⟨rfl, rfl⟩ := Prod.mk.inj (Option.some.inj h)
          exact .emptyObj (hs.trans (h₃ ▸ rfl)) hend
        | none =>
          rw [hend] at h
          obtain ⟨⟨kvs, r'⟩, hkvs, hp⟩ := Option.map_eq_some_iff.mp h
          obtain ⟨rfl, rfl⟩ := Prod.mk.inj hp
          exact .obj (hs.trans (h₃ ▸ rfl)) hend hkvs
      · obtain ⟨rfl, hw⟩ := readWord_eq_some.mp h
        exact .word (by simp [words]) (hs.trans hw)
      · obtain ⟨rfl, hw⟩ := readWord_eq_some.mp h
        exact .word (by simp [words]) (hs.trans hw)
      · obtain ⟨rfl, hw⟩ := readWord_eq_some.mp h
        exact .word (by simp [words]) (hs.trans hw)
      · exact .num hs (by simp [marks, *]) h
  · intro h
    unfold valueStep
    cases h with
    | str hs hx => simp [hs, hx]
    | emptyArr hs hend => simp [hs, hend, (by decide : unit '[' ≠ unit '"')]
    | arr hs hmore hxs => simp [hs, hmore, hxs, (by decide : unit '[' ≠ unit '"')]
    | emptyObj hs hend => simp [hs, hend, (by decide : unit '{' ≠ unit '"'), (by decide : unit '{' ≠ unit '[')]
    | obj hs hmore hkvs => simp [hs, hmore, hkvs, (by decide : unit '{' ≠ unit '"'), (by decide : unit '{' ≠ unit '[')]
    | word hw hs =>
      have hword : readWord _ v (s.dropWhile isSpace) = some (v, r) := readWord_eq_some.mpr ⟨rfl, hs⟩
      rw [hs] at hword ⊢
      simp only [words, List.mem_cons, List.not_mem_nil, or_false, Prod.mk.injEq] at hw
      rcases hw with ⟨rfl, rfl⟩ | ⟨rfl, rfl⟩ | ⟨rfl, rfl⟩
      all_goals exact hword
    | num hs hu hx =>
      simp only [marks, List.mem_cons, List.not_mem_nil, or_false, not_or] at hu
      obtain ⟨h₁, h₂, h₃, h₄, h₅, h₆⟩ := hu
      simp [hs, h₁, h₂, h₃, h₄, h₅, h₆, hx]

theorem elementsStep_eq_some : elementsStep value elements s = some (xs, r) ↔ ReadsElements value elements s xs r := by
  simp only [elementsStep, Option.bind_eq_bind, Option.bind_eq_some_iff]
  constructor
  · rintro ⟨⟨v, s'⟩, hv, h⟩
    cases hsep : skip ',' (s'.dropWhile isSpace) with
    | some t =>
      rw [hsep] at h
      obtain ⟨⟨ys, r'⟩, hys, h⟩ := Option.bind_eq_some_iff.mp h
      obtain ⟨rfl, rfl⟩ := Prod.mk.inj (Option.some.inj h)
      exact .next hv hsep hys
    | none =>
      rw [hsep] at h
      obtain ⟨r', hend, hp⟩ := Option.map_eq_some_iff.mp h
      obtain ⟨rfl, rfl⟩ := Prod.mk.inj hp
      exact .last hv hsep hend
  · intro h
    cases h with
    | next hv hsep hxs => exact ⟨_, hv, by simp [hsep, hxs]⟩
    | last hv hsep hend => exact ⟨_, hv, by simp [hsep, hend]⟩

theorem membersStep_eq_some : membersStep value members s = some (kvs, r) ↔ ReadsMembers value members s kvs r := by
  simp only [membersStep, Option.bind_eq_bind, Option.bind_eq_some_iff]
  constructor
  · rintro ⟨q, hq, ⟨k, a⟩, hk, t, hcolon, ⟨v, s'⟩, hv, h⟩
    have hkey : ReadsKey s k t := ⟨q, a, hq, hk, hcolon⟩
    cases hsep : skip ',' (s'.dropWhile isSpace) with
    | some t' =>
      rw [hsep] at h
      obtain ⟨⟨more, r'⟩, hmore, h⟩ := Option.bind_eq_some_iff.mp h
      obtain ⟨rfl, rfl⟩ := Prod.mk.inj (Option.some.inj h)
      exact .next hkey hv hsep hmore
    | none =>
      rw [hsep] at h
      obtain ⟨r', hend, hp⟩ := Option.map_eq_some_iff.mp h
      obtain ⟨rfl, rfl⟩ := Prod.mk.inj hp
      exact .last hkey hv hsep hend
  · intro h
    cases h with
    | next hkey hv hsep hkvs =>
      obtain ⟨q, a, hq, hk, hcolon⟩ := hkey
      exact ⟨q, hq, _, hk, _, hcolon, _, hv, by simp [hsep, hkvs]⟩
    | last hkey hv hsep hend =>
      obtain ⟨q, a, hq, hk, hcolon⟩ := hkey
      exact ⟨q, hq, _, hk, _, hcolon, _, hv, by simp [hsep, hend]⟩

end

/-! ## Fuel -/

section

variable {s t r x : JsString} {n : Nat}

theorem length_dropWhile (s : JsString) : (s.dropWhile isSpace).length ≤ s.length := (List.dropWhile_suffix _).length_le

theorem length_skip {c : Char} (h : skip c s = some r) : s.length = r.length + 1 := by
  rw [Loads.skip_eq_some h]
  rfl

theorem length_skip_space {c : Char} (h : skip c (s.dropWhile isSpace) = some r) : r.length < s.length := by
  have := length_skip h
  have := length_dropWhile s
  omega

/-- What `readString` has read. -/
inductive ReadsString : JsString → JsString → JsString → Prop
  | close (r : JsString) : ReadsString (unit '"' :: r) [] r
  | code {a b c d w : UInt16} {s x r : JsString} (hw : hexUnit a b c d = some w) (more : ReadsString s x r) :
      ReadsString (unit '\\' :: unit 'u' :: a :: b :: c :: d :: s) (w :: x) r
  | escape {e w : UInt16} {s x r : JsString} (he : e ≠ unit 'u') (hw : shortEscape e = some w)
      (more : ReadsString s x r) : ReadsString (unit '\\' :: e :: s) (w :: x) r
  | self {u : UInt16} {s x r : JsString} (hquote : u ≠ unit '"') (hcontrol : ¬ u < 0x20) (hslash : u ≠ unit '\\')
      (more : ReadsString s x r) : ReadsString (u :: s) (u :: x) r

theorem readsString_of_eq_some (h : readString s = some (x, r)) : ReadsString s x r := by
  induction hn : s.length using Nat.strongRecOn generalizing s x with
  | _ n ih =>
    subst hn
    cases s with
    | nil => cases h
    | cons u s =>
      rw [readString.eq_def] at h
      dsimp only at h
      split_ifs at h with hquote hcontrol hslash
      · obtain ⟨rfl, rfl⟩ := Prod.mk.inj (Option.some.inj h)
        exact hquote ▸ .close _
      · cases s with
        | nil => cases h
        | cons e s =>
          dsimp only at h
          split_ifs at h with he
          · split at h
            · rename_i a b c d s
              obtain ⟨w, hw, h⟩ := Option.bind_eq_some_iff.mp h
              obtain ⟨⟨y, r'⟩, hy, h⟩ := Option.bind_eq_some_iff.mp h
              obtain ⟨rfl, rfl⟩ := Prod.mk.inj (Option.some.inj h)
              subst hslash he
              exact .code hw (ih _ (by simp only [List.length_cons]; omega) hy rfl)
            · cases h
          · obtain ⟨w, hw, h⟩ := Option.bind_eq_some_iff.mp h
            obtain ⟨⟨y, r'⟩, hy, h⟩ := Option.bind_eq_some_iff.mp h
            obtain ⟨rfl, rfl⟩ := Prod.mk.inj (Option.some.inj h)
            subst hslash
            exact .escape he hw (ih _ (by simp only [List.length_cons]; omega) hy rfl)
      · obtain ⟨⟨y, r'⟩, hy, h⟩ := Option.bind_eq_some_iff.mp h
        obtain ⟨rfl, rfl⟩ := Prod.mk.inj (Option.some.inj h)
        exact .self hquote hcontrol hslash (ih _ (Nat.lt_succ_self _) hy rfl)

theorem ReadsString.eq_some (h : ReadsString s x r) : readString s = some (x, r) := by
  induction h with
  | close r => exact readString_close r
  | code hw more ih =>
    rw [readString.eq_def]
    simp [hw, ih, (by decide : unit '\\' ≠ unit '"'), (by decide : ¬ unit '\\' < 0x20)]
  | escape he hw more ih =>
    rw [readString.eq_def]
    simp [he, hw, ih, (by decide : unit '\\' ≠ unit '"'), (by decide : ¬ unit '\\' < 0x20)]
  | self hquote hcontrol hslash more ih =>
    rw [readString.eq_def]
    simp [hquote, hcontrol, hslash, ih]

theorem readString_eq_some : readString s = some (x, r) ↔ ReadsString s x r :=
  ⟨readsString_of_eq_some, ReadsString.eq_some⟩

theorem ReadsString.length_lt (h : ReadsString s x r) : r.length < s.length := by
  induction h with
  | close r => exact Nat.lt_succ_self _
  | code hw more ih | escape he hw more ih | self hquote hcontrol hslash more ih =>
    simp only [List.length_cons]
    omega

theorem length_readString (h : readString s = some (x, r)) : r.length < s.length :=
  (readString_eq_some.mp h).length_lt

/-- What is read with this much fuel is shorter than the text, and read with as much fuel as it has units. -/
def Enough {α : Type} (read : Nat → JsString → Option (α × JsString)) (fuel : Nat) : Prop :=
  ∀ s v r, read fuel s = some (v, r) → r.length < s.length ∧ ∀ g, s.length ≤ g + r.length → read g s = some (v, r)

theorem length_cons_of_space {u : UInt16} (h : s.dropWhile isSpace = u :: t) : t.length < s.length := by
  have := length_dropWhile s
  rw [h, List.length_cons] at this
  exact this

theorem ReadsKey.length_lt {k : JsString} (h : ReadsKey s k t) : t.length < s.length := by
  obtain ⟨q, a, hq, hk, hcolon⟩ := h
  have := length_skip_space hq
  have := length_readString hk
  have := length_skip_space hcolon
  omega

variable (R : Reader)

theorem Reader.enough_value {fuel : Nat} (hnum : ∀ s v r, R.num s = some (v, r) → r.length < s.length)
    (helements : Enough R.elements fuel) (hmembers : Enough R.members fuel) : Enough R.value (fuel + 1) := by
  intro s v r h
  rw [R.value_succ, valueStep_eq_some] at h
  have hlen : r.length < s.length := by
    cases h with
    | str hs hx => exact (length_readString hx).trans (length_cons_of_space hs)
    | emptyArr hs hend | emptyObj hs hend => exact (length_skip_space hend).trans (length_cons_of_space hs)
    | arr hs hmore hxs => exact (helements _ _ _ hxs).1.trans (length_cons_of_space hs)
    | obj hs hmore hkvs => exact (hmembers _ _ _ hkvs).1.trans (length_cons_of_space hs)
    | word hw hs =>
      have hle := length_dropWhile s
      rw [hs, List.length_append] at hle
      simp only [words, List.mem_cons, List.not_mem_nil, or_false, Prod.mk.injEq] at hw
      have hpos : 0 < (js "null").length ∧ 0 < (js "true").length ∧ 0 < (js "false").length := by decide
      rcases hw with ⟨rfl, rfl⟩ | ⟨rfl, rfl⟩ | ⟨rfl, rfl⟩ <;> omega
    | num hs hu hx =>
      have hle := length_dropWhile s
      rw [hs] at hle
      exact (hnum _ _ _ hx).trans_le hle
  refine ⟨hlen, fun g hg => ?_⟩
  obtain ⟨g, rfl⟩ := Nat.exists_eq_succ_of_ne_zero (show g ≠ 0 by omega)
  rw [R.value_succ, valueStep_eq_some]
  cases h with
  | str hs hx => exact .str hs hx
  | emptyArr hs hend => exact .emptyArr hs hend
  | emptyObj hs hend => exact .emptyObj hs hend
  | arr hs hmore hxs =>
    have := length_cons_of_space hs
    exact .arr hs hmore ((helements _ _ _ hxs).2 g (by omega))
  | obj hs hmore hkvs =>
    have := length_cons_of_space hs
    exact .obj hs hmore ((hmembers _ _ _ hkvs).2 g (by omega))
  | word hw hs => exact .word hw hs
  | num hs hu hx => exact .num hs hu hx

theorem Reader.enough_elements {fuel : Nat} (hvalue : Enough R.value fuel) (helements : Enough R.elements fuel) :
    Enough R.elements (fuel + 1) := by
  intro s xs r h
  rw [R.elements_succ, elementsStep_eq_some] at h
  cases h with
  | next hv hsep hxs =>
    obtain ⟨hv', hvalue⟩ := hvalue _ _ _ hv
    obtain ⟨hxs', helements⟩ := helements _ _ _ hxs
    have := length_skip_space hsep
    refine ⟨by omega, fun g hg => ?_⟩
    obtain ⟨g, rfl⟩ := Nat.exists_eq_succ_of_ne_zero (show g ≠ 0 by omega)
    rw [R.elements_succ, elementsStep_eq_some]
    exact .next (hvalue g (by omega)) hsep (helements g (by omega))
  | last hv hsep hend =>
    obtain ⟨hv', hvalue⟩ := hvalue _ _ _ hv
    have := length_skip_space hend
    refine ⟨by omega, fun g hg => ?_⟩
    obtain ⟨g, rfl⟩ := Nat.exists_eq_succ_of_ne_zero (show g ≠ 0 by omega)
    rw [R.elements_succ, elementsStep_eq_some]
    exact .last (hvalue g (by omega)) hsep hend

theorem Reader.enough_members {fuel : Nat} (hvalue : Enough R.value fuel) (hmembers : Enough R.members fuel) :
    Enough R.members (fuel + 1) := by
  intro s kvs r h
  rw [R.members_succ, membersStep_eq_some] at h
  cases h with
  | next hk hv hsep hkvs =>
    obtain ⟨hv', hvalue⟩ := hvalue _ _ _ hv
    obtain ⟨hkvs', hmembers⟩ := hmembers _ _ _ hkvs
    have := length_skip_space hsep
    have := hk.length_lt
    refine ⟨by omega, fun g hg => ?_⟩
    obtain ⟨g, rfl⟩ := Nat.exists_eq_succ_of_ne_zero (show g ≠ 0 by omega)
    rw [R.members_succ, membersStep_eq_some]
    exact .next hk (hvalue g (by omega)) hsep (hmembers g (by omega))
  | last hk hv hsep hend =>
    obtain ⟨hv', hvalue⟩ := hvalue _ _ _ hv
    have := length_skip_space hend
    have := hk.length_lt
    refine ⟨by omega, fun g hg => ?_⟩
    obtain ⟨g, rfl⟩ := Nat.exists_eq_succ_of_ne_zero (show g ≠ 0 by omega)
    rw [R.members_succ, membersStep_eq_some]
    exact .last hk (hvalue g (by omega)) hsep hend

theorem Reader.enough_all (hnum : ∀ s v r, R.num s = some (v, r) → r.length < s.length) (fuel : Nat) :
    Enough R.value fuel ∧ Enough R.elements fuel ∧ Enough R.members fuel := by
  induction fuel with
  | zero =>
    refine ⟨fun s v r h => ?_, fun s v r h => ?_, fun s v r h => ?_⟩
    · rw [R.value_zero] at h
      cases h
    · rw [R.elements_zero] at h
      cases h
    · rw [R.members_zero] at h
      cases h
  | succ fuel ih =>
    obtain ⟨hvalue, helements, hmembers⟩ := ih
    exact ⟨R.enough_value hnum helements hmembers, R.enough_elements hvalue helements, R.enough_members hvalue hmembers⟩

/-- **As much fuel as a text has units is enough.** -/
theorem Reader.enough (hnum : ∀ s v r, R.num s = some (v, r) → r.length < s.length) {fuel : Nat} {v : Json}
    (h : R.value fuel s = some (v, r)) (hspace : r.all isSpace = true) : R.parse s = some v := by
  have hread := ((R.enough_all hnum fuel).1 _ _ _ h).2 (s.length + 1) (by omega)
  rw [Reader.parse, hread]
  exact if_pos hspace

end

end Js
