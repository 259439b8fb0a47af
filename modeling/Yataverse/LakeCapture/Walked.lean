import Yataverse.Fallible.Fold
import Yataverse.LakeCapture.Capture
import Yataverse.LakeDiff.Written

/-!
# How far a walk has come

A checkpoint and the file behind it come from the pages that were taken.

- `included`: the rows of a page.
- `walkTo`: the pages, the checkpoint and the file behind so many pages.
- `Path`: the same without an end.
- `Sound`, **`sound_path`**: what the checkpoint says of the file, and that the rows are in order.
- `Sound.scan_eq`: a run finds the file as the checkpoint says, but for the sum of the sizes.
- `walkTo_of_le`: there is one way.
-/

namespace LakeCapture

open Js GraphHead Lake LakeDiff EventLoop Fallible Sorting

/-! ## The rows of a page -/

/-- A block behind the cutoff is left out. -/
def late (cutoff : Option Int) (b : Block) : Bool := (isLate cutoff b).toOption.getD false

/-- The rows of a page. -/
def included (cutoff : Option Int) (blocks : List Block) : List Row :=
  (blocks.filter fun b => !late cutoff b).map fun b => ⟨b.cid, b.size⟩

/-- The rows of pages. -/
def capturedRows (args : Args) (pages : List Page) : List Row :=
  pages.flatMap fun page => included (args.cutoff.map Prod.snd) page.blocks

variable {cutoff : Option Int} {acc acc' : Taken} {b : Block} {blocks : List Block} {rows : List Row}

theorem takeBlock_eq_ok (h : takeBlock cutoff acc b = .ok acc') : acc.previous < b.cid ∧
    acc' = if late cutoff b then { acc with previous := b.cid }
      else ⟨acc.rows ++ [⟨b.cid, b.size⟩], acc.bytes.add b.size, b.cid, b.cid⟩ := by
  unfold takeBlock at h
  obtain ⟨_, hlt, h⟩ := bind_eq_ok.mp h
  obtain ⟨isLate, hlate, h⟩ := bind_eq_ok.mp h
  rw [late, hlate]
  exact ⟨require_eq_ok.mp hlt, (Except.ok.inj h).symm⟩

/-- What the blocks of a page have added. -/
structure Added (cutoff : Option Int) (blocks : List Block) (acc acc' : Taken) : Prop where
  rows : acc'.rows = acc.rows ++ included cutoff blocks
  bytes : acc'.bytes = addSizes (included cutoff blocks) acc.bytes
  last : acc'.lastIncluded = (((included cutoff blocks).getLast?).map Row.cid).getD acc.lastIncluded
  increasing : Increasing Row.cid (included cutoff blocks)
  above : ∀ row ∈ included cutoff blocks, acc.previous < row.cid ∧ row.cid ≤ acc'.previous
  seen : acc.previous ≤ acc'.previous

theorem included_cons_late (h : late cutoff b = true) : included cutoff (b :: blocks) = included cutoff blocks := by
  rw [included, List.filter_cons_of_neg (by rw [h]; decide), included]

theorem included_cons (h : late cutoff b = false) :
    included cutoff (b :: blocks) = ⟨b.cid, b.size⟩ :: included cutoff blocks := by
  rw [included, List.filter_cons_of_pos (by rw [h]; rfl), List.map_cons, included]

/-- **The blocks of a page.** -/
theorem added_of_foldlM (h : blocks.foldlM (takeBlock cutoff) acc = .ok acc') : Added cutoff blocks acc acc' := by
  induction blocks generalizing acc with
  | nil =>
    obtain rfl := Except.ok.inj h
    exact ⟨(List.append_nil _).symm, rfl, rfl, .nil, fun row hrow => absurd hrow List.not_mem_nil, Std.le_refl _⟩
  | cons b blocks ih =>
    obtain ⟨mid, hstep, h⟩ := foldlM_cons_ok h
    obtain ⟨hlt, hmid⟩ := takeBlock_eq_ok hstep
    have ih := ih h
    cases hlate : late cutoff b with
    | true =>
      have heq := @included_cons_late cutoff b blocks hlate
      rw [hlate, if_pos rfl] at hmid
      subst hmid
      refine ⟨heq ▸ ih.rows, heq ▸ ih.bytes, heq ▸ ih.last, heq ▸ ih.increasing, fun row hrow => ?_, ?_⟩
      · rw [heq] at hrow
        exact ⟨List.lt_trans hlt (ih.above row hrow).1, (ih.above row hrow).2⟩
      · exact Std.le_trans (Std.le_of_lt hlt) ih.seen
    | false =>
      have heq := @included_cons cutoff b blocks hlate
      rw [hlate, if_neg Bool.false_ne_true] at hmid
      subst hmid
      refine ⟨?_, ?_, ?_, ?_, fun row hrow => ?_, ?_⟩
      · rw [heq, ih.rows, List.append_assoc, List.singleton_append]
      · rw [heq, ih.bytes]
        rfl
      · rw [heq, ih.last, List.getLast?_cons]
        cases (included cutoff blocks).getLast? <;> rfl
      · rw [heq]
        exact List.pairwise_cons.mpr ⟨fun row hrow => (ih.above row hrow).1, ih.increasing⟩
      · rw [heq] at hrow
        rcases List.mem_cons.mp hrow with rfl | hrow
        · exact ⟨hlt, ih.seen⟩
        · exact ⟨List.lt_trans hlt (ih.above row hrow).1, (ih.above row hrow).2⟩
      · exact Std.le_trans (Std.le_of_lt hlt) ih.seen

/-! ## Pages -/

variable {nc : NodeCrypto} {args : Args} {serve : Option JsString → Except JsString Bytes} {pages : List Page}
  {s s' : Checkpoint} {content payload : Bytes} {l : Page}

/-- The pages that were taken, the checkpoint behind them and the file. `more` says that the listing goes on. -/
structure Progress where
  pages : List Page
  more : Bool
  state : Checkpoint
  content : Bytes

section

variable (nc args serve)

/-- Before the first page. -/
def Progress.start : Progress := ⟨[], true, firstCheckpoint nc args, []⟩

/-- One more page. -/
def Progress.take (p : Progress) : Except JsString Progress := do
  let l ← fetchPage serve p.state.cursor
  let (payload, s) ← takePage nc args p.content p.state l
  return ⟨p.pages ++ [l], l.truncated, s, p.content ++ payload⟩

/-- One more page, where the listing goes on. -/
def Progress.next (p : Progress) : Except JsString Progress := do
  require (p.more = true) (js "no more pages")
  p.take nc args serve

/-- Behind the first `n` pages. -/
def walkTo : Nat → Except JsString Progress
  | 0 => .ok (.start nc args)
  | n + 1 => walkTo n >>= Progress.next nc args serve

/-- Pages that were taken one after the other, also behind a last one. -/
inductive Path : Progress → Prop
  | start : Path (.start nc args)
  | page {p q : Progress} (path : Path p) (taken : p.take nc args serve = .ok q) : Path q

end

/-- What a checkpoint says of the file. -/
structure Sound (nc : NodeCrypto) (args : Args) (rows : List Row) (s : Checkpoint) (content : Bytes) : Prop where
  identity : SameIdentity args s
  status : s.status = .inProgress
  ordered : Ordered rows
  text : content = utf8 (rows.flatMap rowLine)
  size : s.size = content.length
  counted : s.rows = rows.length
  sha256 : s.sha256 = hexdigest (nc.sha256 content)
  bytes : totalSize rows ≤ 2 ^ 53 → s.bytes = .int (totalSize rows)
  last : s.lastCid = (rows.getLast?.map Row.cid).getD []
  seen : s.lastCid ≤ s.seen
  above : ∀ row ∈ rows, row.cid ≤ s.seen

theorem sound_start (nc : NodeCrypto) (args : Args) : Sound nc args [] (firstCheckpoint nc args) [] where
  identity := ⟨rfl, rfl, rfl, rfl⟩
  status := rfl
  ordered := ⟨.nil, by simp, by simp, by simp⟩
  text := rfl
  size := rfl
  counted := rfl
  sha256 := rfl
  bytes _ := rfl
  last := rfl
  seen := Std.le_refl _
  above := by simp

theorem checked_of_included (hl : l.Checked) {row : Row} (hrow : row ∈ included cutoff l.blocks) :
    cidRe row.cid = true ∧ (Number.int row.size).Held ∧ 1 ≤ row.size := by
  obtain ⟨b, hb, rfl⟩ := List.mem_map.mp hrow
  have h := hl.blocks b (List.mem_filter.mp hb).1
  exact ⟨h.cid, h.held, h.sized⟩

theorem totalSize_append (a b : List Row) : totalSize (a ++ b) = totalSize a + totalSize b := by
  rw [totalSize, List.map_append, List.sum_append, totalSize, totalSize]

/-- **One page.** -/
theorem Sound.page (h : Sound nc args rows s content) (hl : l.Checked)
    (ht : takePage nc args content s l = .ok (payload, s')) :
    Sound nc args (rows ++ included (args.cutoff.map Prod.snd) l.blocks) s' (content ++ payload) := by
  unfold takePage at ht
  obtain ⟨_, -, ht⟩ := bind_eq_ok.mp ht
  obtain ⟨acc, hacc, ht⟩ := bind_eq_ok.mp ht
  have hadded := added_of_foldlM hacc
  obtain ⟨rfl, rfl⟩ := Prod.mk.inj (Except.ok.inj ht)
  have hinc : acc.rows = included (args.cutoff.map Prod.snd) l.blocks := hadded.rows
  have hbytes := hadded.bytes
  have hlast := hadded.last
  have habove := hadded.above
  have hseen := hadded.seen
  have hordered : Ordered (included (args.cutoff.map Prod.snd) l.blocks) :=
    ⟨hadded.increasing, fun row hrow => (checked_of_included hl hrow).1,
      fun row hrow => (checked_of_included hl hrow).2.1, fun row hrow => (checked_of_included hl hrow).2.2⟩
  rw [hinc]
  generalize included (args.cutoff.map Prod.snd) l.blocks = inc at *
  dsimp only at hbytes hlast habove hseen
  refine ⟨h.identity, h.status, ?_, ?_, ?_, ?_, rfl, ?_, ?_, ?_, ?_⟩
  · exact h.ordered.append hordered fun a ha b hb => Std.lt_of_le_of_lt (h.above a ha) (habove b hb).1
  · rw [utf8_rows_append h.ordered hordered, ← h.text]
  · rw [List.length_append, ← h.size]
  · rw [List.length_append, ← h.counted]
  · intro htotal
    rw [totalSize_append] at htotal
    have hpage : acc.bytes = .int (totalSize inc) := by
      rw [hbytes]
      exact (addSizes_exact (n := 0) (by omega)).trans (by rw [Nat.zero_add])
    have hsum : plus s.bytes acc.bytes = .int (totalSize rows + totalSize inc : Nat) := by
      rw [hpage, h.bytes (by omega), plus, Number.add, Number.ofInt_exact (by omega), Nat.cast_add]
    rw [totalSize_append]
    exact hsum
  · rw [List.getLast?_append, hlast, h.last]
    cases inc.getLast? <;> rfl
  · have hle : acc.lastIncluded ≤ acc.previous := by
      rw [hlast]
      cases hget : inc.getLast? with
      | none => exact Std.le_trans h.seen hseen
      | some row => exact (habove row (List.mem_of_getLast? hget)).2
    exact hle
  · intro row hrow
    rcases List.mem_append.mp hrow with hrow | hrow
    · exact Std.le_trans (h.above row hrow) hseen
    · exact (habove row hrow).2

theorem checked_of_fetchPage {cursor : Option JsString} (h : fetchPage serve cursor = .ok l) : l.Checked := by
  obtain ⟨body, -, hbody⟩ := bind_eq_ok.mp h
  exact checked_of_fetchListing hbody

theorem take_eq_ok {p q : Progress} : p.take nc args serve = .ok q ↔ ∃ l payload s,
    fetchPage serve p.state.cursor = .ok l ∧ takePage nc args p.content p.state l = .ok (payload, s) ∧
      q = ⟨p.pages ++ [l], l.truncated, s, p.content ++ payload⟩ := by
  simp only [Progress.take, bind_eq_ok]
  constructor
  · rintro ⟨l, hfetch, ⟨payload, s⟩, htake, hq⟩
    exact ⟨l, payload, s, hfetch, htake, (Except.ok.inj hq).symm⟩
  · rintro ⟨l, payload, s, hfetch, htake, rfl⟩
    exact ⟨l, hfetch, (payload, s), htake, rfl⟩

theorem next_eq_ok {p q : Progress} : p.next nc args serve = .ok q ↔ p.more = true ∧ p.take nc args serve = .ok q := by
  simp only [Progress.next, bind_eq_ok, require_eq_ok]
  constructor
  · rintro ⟨_, hmore, htake⟩
    exact ⟨hmore, htake⟩
  · rintro ⟨hmore, htake⟩
    exact ⟨(), hmore, htake⟩

theorem path_walkTo {n : Nat} {p : Progress} (h : walkTo nc args serve n = .ok p) :
    Path nc args serve p ∧ p.pages.length = n := by
  induction n generalizing p with
  | zero =>
    obtain rfl := Except.ok.inj h
    exact ⟨.start, rfl⟩
  | succ n ih =>
    obtain ⟨q, hq, hnext⟩ := bind_eq_ok.mp h
    have htake := (next_eq_ok.mp hnext).2
    obtain ⟨l, payload, s, -, -, rfl⟩ := take_eq_ok.mp htake
    exact ⟨.page (ih hq).1 htake, by rw [List.length_append, (ih hq).2, List.length_singleton]⟩

/-- **What a checkpoint says of the file**, behind any pages. -/
theorem sound_path {p : Progress} (h : Path nc args serve p) :
    Sound nc args (capturedRows args p.pages) p.state p.content := by
  induction h with
  | start => exact sound_start nc args
  | page path taken ih =>
    obtain ⟨l, payload, s, hfetch, htake, rfl⟩ := take_eq_ok.mp taken
    dsimp only
    rw [capturedRows, List.flatMap_append, List.flatMap_singleton]
    exact ih.page (checked_of_fetchPage hfetch) htake

/-- What `scan-partial!` finds. The sizes are added row by row there, and page by page in the checkpoint. -/
theorem Sound.scan_eq (h : Sound nc args rows s content) :
    scan nc content = .ok ⟨s.sha256, s.rows, addSizes rows (.int 0), s.lastCid⟩ := by
  have hread : inventoryRows content = .ok rows := by
    rw [h.text]
    exact inventoryRows_rows h.ordered
  rw [scan, hread]
  refine congrArg Except.ok ?_
  rw [h.sha256, h.counted, h.last]

/-- Up to `2 ^ 53`, the sums are the same. -/
theorem Sound.sum_eq (h : Sound nc args rows s content) (htotal : totalSize rows ≤ 2 ^ 53) :
    addSizes rows (.int 0) = s.bytes := by
  rw [h.bytes htotal]
  exact (addSizes_exact (n := 0) (by omega)).trans (by rw [Nat.zero_add])

/-- **The way is the same up to a page**: before the last one, the listing goes on. -/
theorem walkTo_of_le {m n : Nat} {p : Progress} (h : walkTo nc args serve n = .ok p) (hle : m ≤ n) :
    ∃ q, walkTo nc args serve m = .ok q ∧ q.pages <+: p.pages ∧ (m < n → q.more = true) := by
  induction n generalizing p with
  | zero =>
    obtain rfl := Nat.le_zero.mp hle
    exact ⟨p, h, List.prefix_refl _, fun hlt => absurd hlt (Nat.lt_irrefl _)⟩
  | succ n ih =>
    obtain ⟨q, hq, hnext⟩ := bind_eq_ok.mp h
    obtain ⟨hmore, htake⟩ := next_eq_ok.mp hnext
    obtain ⟨l, payload, s, -, -, rfl⟩ := take_eq_ok.mp htake
    rcases Nat.lt_or_eq_of_le hle with hlt | rfl
    · obtain ⟨r, hr, hpages, hgoes⟩ := ih hq (Nat.le_of_lt_succ hlt)
      refine ⟨r, hr, hpages.trans (List.prefix_append _ _), fun _ => ?_⟩
      rcases Nat.lt_or_eq_of_le (Nat.le_of_lt_succ hlt) with hlt' | rfl
      · exact hgoes hlt'
      · rw [hq] at hr
        rw [← Except.ok.inj hr]
        exact hmore
    · exact ⟨_, h, List.prefix_refl _, fun hlt => absurd hlt (Nat.lt_irrefl _)⟩

end LakeCapture
