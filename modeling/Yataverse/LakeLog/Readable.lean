import Yataverse.GraphHead.Identity
import Yataverse.LakeLog.Page
import Yataverse.Splitting.Joined
import Mathlib.Data.List.Forall2

/-!
# The projected log can be read

A reader starts with `head.json` and takes the pages of each epoch from the objects before it. Epochs with one
digest share their pages.

- `inventory`: the rows of an epoch's file.
- `readPages`: the pages that the entry of an epoch names.
- `pageKey_inj`: a key is that of one page of one inventory.
- **`build_readable`**: every epoch reads back.
-/

namespace LakeLog

open Js Json GraphHead Lake Fallible Splitting

/-! ## Readers -/

/-- The rows of an inventory file; `none` where a line is no row. -/
def fileRows (file : Bytes) : Option (List ListedRow) :=
  (inkedLines (ofUtf8 file)).mapM fun line => (Json.parse line).bind rowOf

/-- The rows of an epoch's inventory. -/
def inventory (files : JsString → Except Err Bytes) (e : Epoch) : Option (List ListedRow) :=
  match files e.path with
  | .ok file => fileRows file
  | .error _ => none

/-- The object under a key; what is written later is what is there. -/
def fetch (objects : List (JsString × Bytes)) (key : JsString) : Option Bytes := objects.reverse.lookup key

/-- The pages that an entry of the head names: `0.json` and so on, as many as its rows need. -/
def readPages (objects : List (JsString × Bytes)) (entry : Json) : Option (List (List ListedRow)) :=
  match entry.get (js "prefix"), entry.get (js "rows"), entry.get (js "page_rows") with
  | .str under, .num (.int rows), .num (.int perPage) =>
    (List.range ((rows.toNat + perPage.toNat - 1) / perPage.toNat)).mapM fun n =>
      (fetch objects (pageKey under n)).bind readPage
  | _, _, _ => none

/-- The rows of all epochs together. -/
def rowCount (files : JsString → Except Err Bytes) (epochs : List Epoch) : Nat :=
  (epochs.map fun e => ((inventory files e).getD []).length).sum

/-- No two of the files have one digest. -/
def NoCollision (nc : NodeCrypto) (files : JsString → Except Err Bytes) (epochs : List Epoch) : Prop :=
  ∀ e ∈ epochs, ∀ e' ∈ epochs, ∀ file file', files e.path = .ok file → files e'.path = .ok file' →
    nc.sha256 file = nc.sha256 file' → file = file'

/-- The pages of an epoch are its inventory. -/
structure EntryReads (files : JsString → Except Err Bytes) (perPage : PageRows) (objects : List (JsString × Bytes))
    (e : Epoch) (entry : Json) (pages : List (List ListedRow)) : Prop where
  read : readPages objects entry = some pages
  whole : inventory files e = some pages.flatten
  counted : entry.get (js "rows") = .num (.int pages.flatten.length)
  sized : ∀ page ∈ pages, 1 ≤ page.length ∧ page.length ≤ perPage.val

variable {nc : NodeCrypto} {files : JsString → Except Err Bytes} {perPage : PageRows} {epochs : List Epoch} {e : Epoch}
  {head : Head} {objects front : List (JsString × Bytes)} {a b key under : JsString} {m n : Nat} {file data : Bytes}
  {values : List Json} {rows : List ListedRow}

/-! ## Keys -/

theorem natStr_injective : Function.Injective natStr := fun m n h => by
  rw [← ofDigits_natStr m, h, ofDigits_natStr]

theorem hexDigit_injective : ∀ m < 16, ∀ n < 16, hexDigit m = hexDigit n → m = n := by decide

theorem hexdigest_injective {a b : Bytes} (h : hexdigest a = hexdigest b) : a = b := by
  induction a generalizing b with
  | nil =>
    cases b with
    | nil => rfl
    | cons y b => cases h
  | cons x a ih =>
    cases b with
    | nil => cases h
    | cons y b =>
      obtain ⟨hhigh, h⟩ := List.cons.inj h
      obtain ⟨hlow, hrest⟩ := List.cons.inj h
      have hrest : hexdigest a = hexdigest b := hrest
      have hx : x.toNat < 256 := x.toNat_lt
      have hy : y.toNat < 256 := y.toNat_lt
      have h₁ := hexDigit_injective _ (by omega) _ (by omega) hhigh
      have h₂ := hexDigit_injective _ (by omega) _ (by omega) hlow
      obtain rfl : x = y := UInt8.toNat_inj.mp (by omega)
      rw [ih hrest]

theorem slash_notMem_hexdigest (bs : Bytes) : unit '/' ∉ hexdigest bs := by
  have hdigit : ∀ n < 16, hexDigit n ≠ unit '/' := by decide
  intro h
  obtain ⟨b, -, hb⟩ := List.mem_flatMap.mp h
  have hlt : b.toNat < 256 := b.toNat_lt
  rcases List.mem_cons.mp hb with hb | hb
  · exact hdigit _ (by omega) hb.symm
  · exact hdigit _ (by omega) (List.mem_singleton.mp hb).symm

/-- **A key is that of one page of one inventory.** -/
theorem pageKey_inj (ha : unit '/' ∉ a) (hb : unit '/' ∉ b) (h : pageKey (pagesAt a) m = pageKey (pagesAt b) n) :
    a = b ∧ m = n := by
  have hslash : js "/" = [unit '/'] := by decide
  have h' := List.append_cancel_right h
  rw [pagesAt, pagesAt, hslash, List.append_assoc, List.append_assoc, List.append_assoc, List.append_assoc] at h'
  obtain ⟨rfl, hn⟩ := append_cons_inj ha hb (List.append_cancel_left h')
  exact ⟨rfl, natStr_injective hn⟩

/-! ## Objects -/

theorem lookup_eq_some {κ ν : Type} [BEq κ] [LawfulBEq κ] {l : List (κ × ν)} {k : κ} {v : ν} (hmem : (k, v) ∈ l)
    (h : ∀ w, (k, w) ∈ l → w = v) : l.lookup k = some v := by
  induction l with
  | nil => cases hmem
  | cons e l ih =>
    obtain ⟨k', w⟩ := e
    by_cases hk : k = k'
    · subst hk
      rw [List.lookup_cons, beq_self_eq_true, h w List.mem_cons_self]
    · rw [List.lookup_cons, beq_eq_false_iff_ne.mpr hk]
      refine ih ?_ fun w hw => h w (List.mem_cons_of_mem _ hw)
      rcases List.mem_cons.mp hmem with heq | hmem
      · exact absurd (Prod.mk.inj heq).1 hk
      · exact hmem

/-- An object is in the store where all objects with its key are the same. -/
theorem fetch_eq_some (hmem : (key, data) ∈ objects) (h : ∀ other, (key, other) ∈ objects → other = data) :
    fetch objects key = some data :=
  lookup_eq_some (List.mem_reverse.mpr hmem) fun other hother => h other (List.mem_reverse.mp hother)

theorem mapM_eq_some_iff {α β : Type} {f : α → Option β} {xs : List α} {ys : List β} :
    xs.mapM f = some ys ↔ xs.map f = ys.map some := by
  induction xs generalizing ys with
  | nil =>
    rw [List.mapM_nil, List.map_nil, eq_comm (a := []), List.map_eq_nil_iff]
    exact ⟨fun h => (Option.some.inj h).symm, fun h => by rw [h]; rfl⟩
  | cons x xs ih =>
    rw [List.mapM_cons, List.map_cons]
    constructor
    · intro h
      obtain ⟨y, hy, h⟩ := Option.bind_eq_some_iff.mp h
      obtain ⟨zs, hzs, h⟩ := Option.bind_eq_some_iff.mp h
      obtain rfl := Option.some.inj h
      rw [hy, ih.mp hzs, List.map_cons]
    · intro h
      cases ys with
      | nil => cases h
      | cons y ys =>
        obtain ⟨hy, hys⟩ := List.cons.inj h
        rw [hy, ih.mpr hys]
        rfl

theorem forall₂_right {α β : Type} {R : α → β → Prop} {xs : List α} {ys : List β} {y : β} (h : List.Forall₂ R xs ys)
    (hy : y ∈ ys) : ∃ x ∈ xs, R x y := by
  induction h with
  | nil => cases hy
  | @cons x z xs ys hR _ ih =>
    rcases List.mem_cons.mp hy with rfl | hy
    · exact ⟨x, List.mem_cons_self, hR⟩
    · obtain ⟨x', hx', hR'⟩ := ih hy
      exact ⟨x', List.mem_cons_of_mem _ hx', hR'⟩

theorem forall₂_left {α β : Type} {R : α → β → Prop} {xs : List α} {ys : List β} {x : α} (h : List.Forall₂ R xs ys)
    (hx : x ∈ xs) : ∃ y ∈ ys, R x y :=
  forall₂_right h.flip hx

/-- The objects of an epoch are its pages. -/
theorem mem_pageObjects (h : pageObjects under perPage values = .ok objects) :
    (key, data) ∈ objects ↔
      ∃ n page, (chunks perPage.val values)[n]? = some page ∧ key = pageKey under n ∧ pageData page = .ok data := by
  have hobject {page : List Json} {n : Nat} {o : JsString × Bytes} :
      pageObject under (page, n) = .ok o ↔ ∃ data, pageData page = .ok data ∧ o = (pageKey under n, data) := by
    simp only [pageObject, bind_eq_ok, pure, Except.pure, Except.ok.injEq]
    constructor
    · rintro ⟨d, hd, ho⟩
      exact ⟨d, hd, ho.symm⟩
    · rintro ⟨d, hd, ho⟩
      exact ⟨d, hd, ho.symm⟩
  constructor
  · intro hmem
    obtain ⟨⟨page, n⟩, hpage, ho⟩ := mapM_mem h _ hmem
    obtain ⟨d, hd, heq⟩ := hobject.mp ho
    obtain ⟨rfl, rfl⟩ := Prod.mk.inj heq
    exact ⟨n, page, List.mem_zipIdx_iff_getElem?.mp hpage, rfl, hd⟩
  · rintro ⟨n, page, hpage, rfl, hd⟩
    have hmem : (page, n) ∈ (chunks perPage.val values).zipIdx := List.mem_zipIdx_iff_getElem?.mpr hpage
    obtain ⟨o, hmem, ho⟩ := forall₂_left (mapM_eq_ok.mp h) hmem
    obtain ⟨d, hd', rfl⟩ := hobject.mp ho
    obtain rfl := Except.ok.inj (hd.symm.trans hd')
    exact hmem

/-! ## Rows -/

/-- The lines of an inventory are its rows. -/
theorem rows_of_lines {lines : List JsString} (hlines : lines.mapM parseLine = .ok values)
    (hrows : (lines.mapM fun line => (Json.parse line).bind rowOf) = some rows) :
    values.mapM rowOf = some rows ∧ ∀ row ∈ rows, row.Held := by
  induction lines generalizing values rows with
  | nil =>
    obtain rfl := Except.ok.inj hlines
    obtain rfl := Option.some.inj hrows
    exact ⟨rfl, fun row h => absurd h List.not_mem_nil⟩
  | cons line lines ih =>
    rw [List.mapM_cons] at hlines hrows
    obtain ⟨v, hv, hlines⟩ := bind_eq_ok.mp hlines
    obtain ⟨vs, hvs, hlines⟩ := bind_eq_ok.mp hlines
    obtain rfl := Except.ok.inj hlines
    obtain ⟨row, hrow, hrows⟩ := Option.bind_eq_some_iff.mp hrows
    obtain ⟨rest, hrest, hrows⟩ := Option.bind_eq_some_iff.mp hrows
    obtain rfl := Option.some.inj hrows
    obtain ⟨w, hw, hrow⟩ := Option.bind_eq_some_iff.mp hrow
    obtain ⟨ih, ihheld⟩ := ih hvs hrest
    rw [parseLine, hw] at hv
    obtain rfl := Except.ok.inj hv
    refine ⟨?_, List.forall_mem_cons.mpr ⟨held_of_rowOf (numbers_of_parse hw) hrow, ihheld⟩⟩
    rw [List.mapM_cons, hrow, ih]
    rfl

/-- A chunk of the values, and the rows in it. -/
theorem chunk_rows {page : List Json} {listed : List ListedRow} (hrows : values.mapM rowOf = some rows)
    (hpage : (chunks perPage.val values)[n]? = some page) (hlisted : (chunks perPage.val rows)[n]? = some listed) :
    page.mapM rowOf = some listed := by
  have hmap := congrArg (chunks perPage.val) (mapM_eq_some_iff.mp hrows)
  rw [chunks_map, chunks_map] at hmap
  have hn := congrArg (fun l => l[n]?) hmap
  rw [List.getElem?_map, List.getElem?_map, hpage, hlisted] at hn
  exact mapM_eq_some_iff.mpr (Option.some.inj hn)

/-! ## The pages of an epoch -/

section Pages

variable {parts : List (Bytes × List Json × List (JsString × Bytes))}
  {part : Bytes × List Json × List (JsString × Bytes)} {page : List Json}

/-- The objects of all epochs. -/
def partObjects (parts : List (Bytes × List Json × List (JsString × Bytes))) : List (JsString × Bytes) :=
  parts.flatMap fun part => part.2.2

/-- **A page is under its key**, whatever other epochs have written. -/
theorem fetch_page (hcoll : NoCollision nc files epochs)
    (hparts : List.Forall₂ (fun e part => Accepted nc files perPage e part.1 part.2.1 part.2.2) epochs parts)
    (he : e ∈ epochs) (hpart : part ∈ parts) (haccepted : Accepted nc files perPage e part.1 part.2.1 part.2.2)
    (hpage : (chunks perPage.val part.2.1)[n]? = some page) (hdata : pageData page = .ok data) :
    fetch (partObjects parts) (pageKey (pagesAt (hexdigest (nc.sha256 part.1))) n) = some data := by
  refine fetch_eq_some ?_ ?_
  · exact List.mem_flatMap.mpr ⟨part, hpart, (mem_pageObjects haccepted.paged).mpr ⟨n, page, hpage, rfl, hdata⟩⟩
  · intro other hother
    obtain ⟨part', hpart', hother⟩ := List.mem_flatMap.mp hother
    obtain ⟨e', he', haccepted'⟩ := forall₂_right hparts hpart'
    obtain ⟨n', page', hpage', hkey, hdata'⟩ := (mem_pageObjects haccepted'.paged).mp hother
    obtain ⟨hsha, rfl⟩ := pageKey_inj (slash_notMem_hexdigest _) (slash_notMem_hexdigest _) hkey
    have hfile := hcoll e he e' he' _ _ haccepted.found haccepted'.found (hexdigest_injective hsha)
    have hlines := haccepted'.lines
    rw [← hfile, haccepted.lines] at hlines
    rw [← Except.ok.inj hlines, hpage] at hpage'
    obtain rfl := Option.some.inj hpage'
    exact Except.ok.inj (hdata'.symm.trans hdata)

/-- **The pages of an epoch are its rows.** -/
theorem readPages_entryValue (hcoll : NoCollision nc files epochs)
    (hparts : List.Forall₂ (fun e part => Accepted nc files perPage e part.1 part.2.1 part.2.2) epochs parts)
    (he : e ∈ epochs) (hpart : part ∈ parts) (haccepted : Accepted nc files perPage e part.1 part.2.1 part.2.2)
    (hrows : fileRows part.1 = some rows) :
    readPages (partObjects parts) (entryValue perPage e) = some (chunks perPage.val rows) := by
  obtain ⟨hvalues, hheld⟩ := rows_of_lines haccepted.lines hrows
  have hlen : part.2.1.length = rows.length := by
    have := congrArg List.length (mapM_eq_some_iff.mp hvalues)
    rwa [List.length_map, List.length_map] at this
  have hunder : (entryValue perPage e).get (js "prefix") = .str (pagesAt (hexdigest (nc.sha256 part.1))) := by
    have h : (entryValue perPage e).get (js "prefix") = .str (pagesAt (e.sha256.getD [])) := rfl
    rw [h, haccepted.digest, Option.getD_some]
  have hcount : (entryValue perPage e).get (js "rows") = .num (.int part.2.1.length) := by
    have h : (entryValue perPage e).get (js "rows") = (e.rows.map Json.num).getD .null := rfl
    rw [h, haccepted.counted, Option.map_some, Option.getD_some]
  have hsize : (entryValue perPage e).get (js "page_rows") = .num (.int perPage.val) := rfl
  have hchunks : (rows.length + perPage.val - 1) / perPage.val = (chunks perPage.val rows).length :=
    (length_chunks perPage.pos rows).symm
  rw [readPages, hunder, hcount, hsize]
  dsimp only
  rw [Int.toNat_natCast, Int.toNat_natCast, hlen, hchunks, mapM_eq_some_iff]
  refine List.ext_getElem (by rw [List.length_map, List.length_map, List.length_range]) ?_
  intro i hi _
  rw [List.length_map, List.length_range] at hi
  rw [List.getElem_map, List.getElem_map, List.getElem_range]
  -- the `i`-th chunk of the values is the `i`-th chunk of the rows
  have hlisted : (chunks perPage.val rows)[i]? = some (chunks perPage.val rows)[i] := List.getElem?_eq_getElem hi
  have hi' : i < (chunks perPage.val part.2.1).length := by
    rwa [length_chunks perPage.pos, hlen, ← length_chunks perPage.pos]
  have hpage := List.getElem?_eq_getElem hi'
  have hpageRows := chunk_rows hvalues hpage hlisted
  have hdata := congrArg (fun texts => texts >>= fun texts => .ok (utf8 (unit '[' :: joinComma texts ++ [unit ']'])))
    (mapM_rowText hpageRows)
  have hne : (chunks perPage.val part.2.1)[i] ≠ [] := by
    intro hnil
    have := (length_of_mem_chunks perPage.pos (List.getElem_mem hi')).1
    rw [hnil] at this
    exact absurd this (by decide)
  have hheld' : ∀ row ∈ (chunks perPage.val rows)[i], row.Held := by
    intro row hrow
    refine hheld row ?_
    rw [← flatten_chunks perPage.val rows]
    exact List.mem_flatten.mpr ⟨_, List.getElem_mem hi, hrow⟩
  rw [fetch_page hcoll hparts he hpart haccepted hpage hdata, Option.bind_some]
  exact readPage_pageData hne hpageRows hheld' hdata

theorem length_of_inventory (haccepted : Accepted nc files perPage e part.1 part.2.1 part.2.2)
    (hrows : inventory files e = some rows) : part.2.1.length = rows.length := by
  rw [inventory, haccepted.found] at hrows
  have := congrArg List.length (mapM_eq_some_iff.mp (rows_of_lines haccepted.lines hrows).1)
  rwa [List.length_map, List.length_map] at this

/-- **An epoch reads back.** -/
theorem entryReads_of_accepted (hcoll : NoCollision nc files epochs)
    (hparts : List.Forall₂ (fun e part => Accepted nc files perPage e part.1 part.2.1 part.2.2) epochs parts)
    (he : e ∈ epochs) (hpart : part ∈ parts) (haccepted : Accepted nc files perPage e part.1 part.2.1 part.2.2)
    (hrows : inventory files e = some rows) :
    EntryReads files perPage (partObjects parts) e (entryValue perPage e) (chunks perPage.val rows) := by
  have hfile : fileRows part.1 = some rows := by
    rw [inventory, haccepted.found] at hrows
    exact hrows
  have hlen := length_of_inventory haccepted hrows
  refine ⟨readPages_entryValue hcoll hparts he hpart haccepted hfile, ?_, ?_, ?_⟩
  · rw [flatten_chunks]
    exact hrows
  · have h : (entryValue perPage e).get (js "rows") = (e.rows.map Json.num).getD .null := rfl
    rw [h, haccepted.counted, Option.map_some, Option.getD_some, flatten_chunks, hlen]
  · exact fun page hpage => length_of_mem_chunks perPage.pos hpage

/-! ## The head -/

/-- The sum of the rows, which doubles hold. -/
theorem total_eq {counts : List Nat} {total : Nat} (h : total + counts.sum ≤ 2 ^ 53) :
    counts.foldl (fun (total : Number) (n : Nat) => total.add n) (.int total) = .int (total + counts.sum : Nat) := by
  induction counts generalizing total with
  | nil => rfl
  | cons n counts ih =>
    rw [List.sum_cons] at h
    have hstep : (Number.int total).add n = .int (total + n : Nat) := by
      rw [Number.add, Number.ofInt_exact (by omega), Nat.cast_add]
    rw [List.foldl_cons, hstep, ih (by omega), List.sum_cons, Nat.add_assoc]

theorem strOrNull_wf (s : Option JsString) : (strOrNull s).WF ∧ (strOrNull s).Safe := by
  cases s with
  | none => exact ⟨trivial, trivial⟩
  | some s => exact ⟨trivial, trivial⟩

/-- A count of at most `2 ^ 53`. -/
theorem safe_count {x : Option Number} {n : Int} (hx : x = some (.int n)) (hn : n.natAbs ≤ 2 ^ 53) :
    ((x.map Json.num).getD .null).WF ∧ ((x.map Json.num).getD .null).Safe := by
  subst hx
  exact ⟨trivial, n, rfl, hn⟩

theorem entryValue_wf {i k : Int} (hepoch : e.epoch = some (.int i)) (hi : i.natAbs ≤ 2 ^ 53)
    (hcount : e.rows = some (.int k)) (hk : k.natAbs ≤ 2 ^ 53) :
    (entryValue perPage e).WF ∧ (entryValue perPage e).Safe := by
  obtain ⟨hw₁, hs₁⟩ := safe_count hepoch hi
  obtain ⟨hw₂, hs₂⟩ := strOrNull_wf e.inventory
  obtain ⟨hw₃, hs₃⟩ := safe_count hcount hk
  obtain ⟨hw₄, hs₄⟩ := strOrNull_wf e.sha256
  have hkeys : List.Pairwise (· < ·)
      [js "epoch", js "inventory", js "page_rows", js "prefix", js "rows", js "sha256"] := by decide
  exact ⟨⟨hkeys, hw₁, hw₂, trivial, trivial, hw₃, hw₄, trivial⟩,
    hs₁, hs₂, ⟨perPage.val, rfl, perPage.exact⟩, trivial, hs₃, hs₄, trivial⟩

theorem wfList_of_forall {vs : List Json} (h : ∀ v ∈ vs, v.WF ∧ v.Safe) : WFList vs ∧ SafeList vs := by
  induction vs with
  | nil => exact ⟨trivial, trivial⟩
  | cons v vs ih =>
    obtain ⟨hv, hvs⟩ := List.forall_mem_cons.mp h
    obtain ⟨hw, hs⟩ := ih hvs
    exact ⟨⟨hv.1, hw⟩, hv.2, hs⟩

theorem rowCount_eq (hparts : List.Forall₂ (fun e part => Accepted nc files perPage e part.1 part.2.1 part.2.2) epochs parts)
    (hrows : ∀ e ∈ epochs, ∃ rows, inventory files e = some rows) :
    (parts.map fun part => part.2.1.length).sum = rowCount files epochs := by
  induction hparts with
  | nil => rfl
  | @cons e part epochs parts haccepted _ ih =>
    obtain ⟨⟨rows, he⟩, hrest⟩ := List.forall_mem_cons.mp hrows
    have hcount : ((inventory files e).getD []).length = rows.length := by rw [he, Option.getD_some]
    rw [List.map_cons, List.sum_cons, ih hrest, rowCount, rowCount, List.map_cons, List.sum_cons, hcount,
      length_of_inventory haccepted he]

/-- The number of an epoch in log order. -/
theorem epoch_of_order (horder : epochs.map Epoch.epoch = epochNumbers epochs.length) (he : e ∈ epochs) :
    ∃ i : Nat, i < epochs.length ∧ e.epoch = some (.int i) := by
  have hmem := @List.mem_map_of_mem _ _ _ _ Epoch.epoch he
  rw [horder] at hmem
  obtain ⟨i, hi, heq⟩ := List.mem_map.mp hmem
  exact ⟨i, List.mem_range.mp hi, heq.symm⟩

end Pages

/-! ## The whole log -/

/-- What a reader finds: `head.json` last, and behind each of its entries the rows of that epoch, all before it. -/
structure Projected (files : JsString → Except Err Bytes) (perPage : PageRows) (epochs : List Epoch)
    (front : List (JsString × Bytes)) (v : Json) (entries : List Json) : Prop where
  listed : v.get (js "epochs") = .arr entries
  numbered : entries.map (fun entry => entry.get (js "epoch")) =
    (List.range entries.length).map fun (i : Nat) => .num (.int i)
  seq : v.get (js "seq") = .num (.int (entries.length - 1))
  total : v.get (js "rows") = .num (.int (rowCount files epochs))
  reads : List.Forall₂ (fun e entry => ∃ pages, EntryReads files perPage front e entry pages) epochs entries

/-- **The projected listing can be read back**, where every line of the inventories is a row and doubles count the
epochs and the rows. -/
theorem build_readable {nc : NodeCrypto} {files : JsString → Except Err Bytes} {perPage : PageRows}
    {epochs : List Epoch} {head : Head} {objects : List (JsString × Bytes)}
    (h : build nc files perPage epochs head = .ok objects)
    (hrows : ∀ e ∈ epochs, ∃ rows, inventory files e = some rows) (hcoll : NoCollision nc files epochs)
    (hepochs : epochs.length ≤ 2 ^ 53) (hcount : rowCount files epochs ≤ 2 ^ 53) :
    ∃ front data v entries, objects = front ++ [(headKey, data)] ∧ parseJson data = some v ∧
      Projected files perPage epochs front v entries := by
  obtain ⟨parts, total, data, hparts, htotal, horder, hseq, hdata, rfl⟩ := build_eq_ok h
  have hsum := rowCount_eq hparts hrows
  have htotal' : total = .int (rowCount files epochs) := by
    have hzero := @total_eq (parts.map fun part => part.2.1.length) 0 (by omega)
    rw [hsum, Nat.zero_add] at hzero
    exact htotal.trans hzero
  have hentry : ∀ e ∈ epochs, (entryValue perPage e).WF ∧ (entryValue perPage e).Safe := by
    intro e he
    obtain ⟨part, hpart, haccepted⟩ := forall₂_left hparts he
    obtain ⟨i, hi, hepoch⟩ := epoch_of_order horder he
    have hle : part.2.1.length ≤ (parts.map fun part => part.2.1.length).sum :=
      List.single_le_sum (fun _ _ => Nat.zero_le _) _ (List.mem_map_of_mem hpart)
    exact entryValue_wf hepoch (by omega) haccepted.counted (by omega)
  have hhead : (headValue perPage head ⟨partObjects parts, epochs, total⟩).WF ∧
      (headValue perPage head ⟨partObjects parts, epochs, total⟩).Safe := by
    obtain ⟨hw₁, hs₁⟩ := strOrNull_wf head.bundle
    obtain ⟨hw₂, hs₂⟩ := @wfList_of_forall (epochs.map (entryValue perPage)) (List.forall_mem_map.mpr hentry)
    obtain ⟨hw₃, hs₃⟩ := strOrNull_wf head.manifest
    obtain ⟨hw₄, hs₄⟩ := safe_count hseq (by omega)
    have hkeys : List.Pairwise (· < ·) [js "bundle", js "epochs", js "manifest", js "rows", js "seq"] := by decide
    exact ⟨⟨hkeys, hw₁, hw₂, hw₃, trivial, hw₄, trivial⟩,
      hs₁, hs₂, hs₃, ⟨_, htotal', by omega⟩, hs₄, trivial⟩
  refine ⟨partObjects parts, data, _, epochs.map (entryValue perPage), rfl, parseJson_canonical hhead.1 hhead.2 hdata, ?_⟩
  refine ⟨rfl, ?_, ?_, ?_, ?_⟩
  · have hmap := congrArg (List.map fun x : Option Number => (x.map Json.num).getD .null) horder
    rw [epochNumbers, List.map_map, List.map_map] at hmap
    rw [List.map_map, List.length_map]
    exact hmap
  · have hget : (headValue perPage head ⟨partObjects parts, epochs, total⟩).get (js "seq") =
        (head.seq.map Json.num).getD .null := rfl
    rw [hget, hseq, List.length_map]
    rfl
  · exact congrArg Json.num htotal'
  · rw [List.forall₂_map_right_iff, List.forall₂_same]
    intro e he
    obtain ⟨part, hpart, haccepted⟩ := forall₂_left hparts he
    obtain ⟨rows, hinventory⟩ := hrows e he
    exact ⟨_, entryReads_of_accepted hcoll hparts he hpart haccepted hinventory⟩

/-! ## Runs -/

namespace Sample

/-- An inventory of two rows. -/
def twoRows : Bytes := utf8 (js "\x7b\"cid\":\"bafkrei\",\"bytes\":12\x7d\n\x7b\"cid\":\"bafkrej\",\"bytes\":7\x7d\n")

/-- An inventory whose row has no size. -/
def noSize : Bytes := utf8 (js "\x7b\"cid\":\"bafkrei\"\x7d\n")

/-- The SHA-256 of `twoRows`, of `noSize` and of nothing. -/
def sha256 (data : Bytes) : Bytes :=
  if data = twoRows then
    [131, 35, 8, 238, 135, 129, 46, 184, 81, 242, 241, 133, 65, 37, 1, 169, 143, 102, 164, 92, 229, 175, 27, 121, 25,
      54, 216, 143, 159, 151, 52, 187]
  else if data = noSize then
    [53, 182, 11, 47, 9, 46, 50, 88, 123, 4, 9, 199, 140, 61, 144, 156, 198, 148, 178, 95, 97, 101, 212, 233, 233, 167,
      166, 228, 107, 77, 189, 118]
  else
    [227, 176, 196, 66, 152, 252, 28, 20, 154, 251, 244, 200, 153, 111, 185, 36, 39, 174, 65, 228, 100, 155, 147, 76,
      164, 149, 153, 27, 120, 82, 184, 85]

def crypto : NodeCrypto := ⟨sha256, fun _ _ _ => false⟩

def onDisk (path : JsString) : Except Err Bytes :=
  if path = js "two" then .ok twoRows else if path = js "bare" then .ok noSize else .ok []

def epochOf (n : Nat) (path : String) (file : Bytes) (rows : Nat) : Epoch :=
  ⟨some (.int n), js path, some (hexdigest (sha256 file)), some (.int rows), some (js "inventory")⟩

/-- Two rows, none, and the two rows again. -/
def threeEpochs : List Epoch := [epochOf 0 "two" twoRows 2, epochOf 1 "none" [] 0, epochOf 2 "two" twoRows 2]

def headAt (seq : Nat) : Head := ⟨some (.int seq), some (js "manifest"), some (js "bundle")⟩

/-- One row a page. -/
def single : PageRows := ⟨1, by decide, by decide⟩

def written : List (JsString × Bytes) := (build crypto onDisk single threeEpochs (headAt 2)).toOption.getD []

def writtenBare : List (JsString × Bytes) :=
  (build crypto onDisk pageRows [epochOf 0 "bare" noSize 1] (headAt 0)).toOption.getD []

theorem build_written : build crypto onDisk single threeEpochs (headAt 2) = .ok written := by
  have hok : (build crypto onDisk single threeEpochs (headAt 2)).isOk = true := by decide +kernel
  unfold written
  cases h : build crypto onDisk single threeEpochs (headAt 2) with
  | ok objects => rfl
  | error e =>
    rw [h] at hok
    cases hok

end Sample

theorem build_readable_sample : ∃ front data v entries, Sample.written = front ++ [(headKey, data)] ∧
    parseJson data = some v ∧ Projected Sample.onDisk Sample.single Sample.threeEpochs front v entries := by
  have hrows : ∀ e ∈ Sample.threeEpochs, ∃ rows, inventory Sample.onDisk e = some rows := by
    intro e he
    have h : (Sample.threeEpochs.all fun e => (inventory Sample.onDisk e).isSome) = true := by decide +kernel
    exact Option.isSome_iff_exists.mp (List.all_eq_true.mp h e he)
  have hcoll : NoCollision Sample.crypto Sample.onDisk Sample.threeEpochs := by
    intro e he e' he' file file' hfile hfile' hsha
    have h : ∀ e ∈ Sample.threeEpochs, Sample.onDisk e.path = .ok Sample.twoRows ∨ Sample.onDisk e.path = .ok [] := by
      decide
    have hne : Sample.sha256 Sample.twoRows ≠ Sample.sha256 [] := by decide
    rcases h e he with h₁ | h₁ <;> rcases h e' he' with h₂ | h₂ <;>
      obtain rfl := Except.ok.inj (h₁.symm.trans hfile) <;> obtain rfl := Except.ok.inj (h₂.symm.trans hfile')
    · rfl
    · exact absurd hsha hne
    · exact absurd hsha.symm hne
    · rfl
  exact build_readable Sample.build_written hrows hcoll (by decide) (by decide +kernel)

/-- **A row without a size** is accepted, and its page is no JSON. -/
theorem build_not_readable :
    build Sample.crypto Sample.onDisk pageRows [Sample.epochOf 0 "bare" Sample.noSize 1] (Sample.headAt 0) =
        .ok Sample.writtenBare ∧
      ∃ data, fetch Sample.writtenBare (pageKey (pagesAt (hexdigest (Sample.sha256 Sample.noSize))) 0) = some data ∧
        parseJson data = none := by
  have hok : (build Sample.crypto Sample.onDisk pageRows [Sample.epochOf 0 "bare" Sample.noSize 1]
      (Sample.headAt 0)).isOk = true := by decide +kernel
  constructor
  · unfold Sample.writtenBare
    cases h : build Sample.crypto Sample.onDisk pageRows [Sample.epochOf 0 "bare" Sample.noSize 1] (Sample.headAt 0) with
    | ok objects => rfl
    | error e =>
      rw [h] at hok
      cases hok
  · exact ⟨utf8 (js "[\x7b\"cid\":\"bafkrei\",\"bytes\":\x7d]"), by decide +kernel, by decide +kernel⟩

end LakeLog
