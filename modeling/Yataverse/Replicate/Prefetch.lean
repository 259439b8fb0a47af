import Yataverse.Machine.Run
import Mathlib.Algebra.GroupWithZero.Nat
import Mathlib.Data.List.Basic
import Mathlib.Data.List.Enum

/-!
# The window of downloads, step by step

`prefetch_ordered` of `replicate_lake.py` as the generator that it is. It submits downloads to a
pool, takes the oldest one out of its window and waits for it, and yields its block; the downloads
end in any order while it runs, waits or is suspended.

- `Window`: the variables of the generator, and the downloads.
- `step`: a step of the generator, or the end of a download.
- `Good`: the invariant.
- `rank`: every event makes it smaller.
- **`prefetch_window`**: what holds in every state of a run, and how a run ends.
- `prefetch_drops`: an item that is too large ends the run before the downloads in front of it are
  yielded.
-/

namespace Replicate.Prefetch

open Machine

/-! ## The generator -/

variable {α β ε : Type}

/-- Where the generator stands. An item with a handle is a download that has been taken out of the
window; an item alone is the one that the loop has come to. -/
inductive Point (α ε : Type) where
  | next
  | room (item : α)
  | wait (oldest : α × Nat) (item : Option α)
  | yielded (item : Option α)
  | tail
  | ended
  | refused (item : α)
  | raised (oldest : α × Nat) (item : Option α) (e : ε)

/-- The items that are left, the downloads that have been submitted (`none` is one that runs), the
window with the handles of its downloads, its bytes, and what has been yielded. -/
structure Window (α β ε : Type) where
  todo : List α
  futures : List (α × Option (Except ε β))
  pending : List (α × Nat)
  pendingBytes : Int
  yielded : List (α × β)
  point : Point α ε

/-- The generator goes on, or a download ends. -/
inductive Event (β ε : Type) where
  | advance
  | finished (handle : Nat) (result : Except ε β)

/-- Before the first item. -/
def start (items : List α) : Window α β ε := ⟨items, [], [], 0, [], .next⟩

variable (size : α → Nat) (workers maxPrefetchBytes : Nat)

/-- `pending.append((item, pool.submit(...)))`. -/
def submit (s : Window α β ε) (item : α) : Window α β ε :=
  { s with
    futures := s.futures ++ [(item, none)]
    pending := s.pending ++ [(item, s.futures.length)]
    pendingBytes := s.pendingBytes + size item
    point := .next }

/-- `oldest, future = pending.popleft()`. -/
def takeOldest (s : Window α β ε) (oldest : α × Nat) (pending : List (α × Nat)) (item : Option α) : Window α β ε :=
  { s with pending := pending, pendingBytes := s.pendingBytes - size oldest.1, point := .wait oldest item }

/-- What the generator does next. It does nothing while the download that it waits for runs, and
when it has ended. -/
def advance (s : Window α β ε) : Option (Window α β ε) :=
  match s.point with
  | .next =>
    match s.todo with
    | [] => some { s with point := .tail }
    | item :: todo =>
      if maxPrefetchBytes < size item then some { s with todo := todo, point := .refused item }
      else some { s with todo := todo, point := .room item }
  | .room item =>
    match s.pending with
    | [] => some (submit size s item)
    | oldest :: pending =>
      if workers ≤ s.pending.length ∨ (maxPrefetchBytes : Int) < s.pendingBytes + size item then
        some (takeOldest size s oldest pending (some item))
      else some (submit size s item)
  | .wait oldest item =>
    match s.futures[oldest.2]? with
    | some (_, some (.ok data)) => some { s with yielded := s.yielded ++ [(oldest.1, data)], point := .yielded item }
    | some (_, some (.error e)) => some { s with point := .raised oldest item e }
    | _ => none
  | .yielded (some item) => some { s with point := .room item }
  | .yielded none => some { s with point := .tail }
  | .tail =>
    match s.pending with
    | [] => some { s with point := .ended }
    | oldest :: pending => some (takeOldest size s oldest pending none)
  | .ended | .refused _ | .raised _ _ _ => none

/-- A step. -/
def step (s : Window α β ε) : Event β ε → Option (Window α β ε)
  | .advance => advance size workers maxPrefetchBytes s
  | .finished handle result =>
    match s.futures[handle]? with
    | some (item, none) => some { s with futures := s.futures.set handle (item, some result) }
    | _ => none

/-! ## The invariant -/

/-- The item that the loop has come to and has not submitted. -/
def Point.current : Point α ε → List α
  | .room item | .refused item => [item]
  | .wait _ item | .yielded item | .raised _ item _ => item.toList
  | .next | .tail | .ended => []

/-- The download that has been taken out of the window and not been yielded. -/
def Point.taken : Point α ε → List (α × Nat)
  | .wait oldest _ | .raised oldest _ _ => [oldest]
  | _ => []

/-- The item that has passed the check of its size and has not been submitted. -/
def Point.ready : Point α ε → Option α
  | .room item => some item
  | .wait _ item | .yielded item => item
  | _ => none

/-- The loop over the items is over. -/
def Point.draining : Point α ε → Prop
  | .tail | .ended | .wait _ none | .yielded none => True
  | _ => False

/-- The downloads that have been submitted and not been yielded. -/
def Window.open (s : Window α β ε) : List (α × Nat) := s.point.taken ++ s.pending

/-- The sum of their sizes. -/
def bytesOf (entries : List (α × Nat)) : Nat := (entries.map fun entry => size entry.1).sum

/-- The state is over. -/
def Point.over : Point α ε → Prop
  | .ended | .refused _ | .raised _ _ _ => True
  | _ => False

/-- The invariant of a run over `items`. -/
structure Good (items : List α) (s : Window α β ε) : Prop where
  items : items = s.futures.map Prod.fst ++ s.point.current ++ s.todo
  /-- The window is what has been submitted behind what has been yielded. -/
  window : s.open = (s.futures.map Prod.fst).zipIdx.drop s.yielded.length
  bytes : s.pendingBytes = bytesOf size s.pending
  width : s.open.length ≤ workers
  weight : bytesOf size s.open ≤ maxPrefetchBytes
  /-- Every yield has the result of its own download. -/
  results : s.futures.take s.yielded.length = s.yielded.map fun (item, data) => (item, some (.ok data))
  fits : ∀ item, s.point.ready = some item → size item ≤ maxPrefetchBytes
  sizes : ∀ future ∈ s.futures, size future.1 ≤ maxPrefetchBytes
  draining : s.point.draining → s.todo = []
  refused : ∀ item, s.point = .refused item → maxPrefetchBytes < size item
  raised : ∀ oldest item e, s.point = .raised oldest item e →
    ∃ fetched, s.futures[oldest.2]? = some (fetched, some (Except.error e))
  ended : s.point = .ended → s.pending = []

variable {size workers maxPrefetchBytes} {items : List α} {s s' : Window α β ε}

theorem good_start : Good size workers maxPrefetchBytes items (start items : Window α β ε) where
  items := rfl
  window := rfl
  bytes := rfl
  width := Nat.zero_le _
  weight := Nat.zero_le _
  results := rfl
  fits _ h := by cases h
  sizes _ h := by cases h
  draining h := h.elim
  refused _ h := by cases h
  raised _ _ _ h := by cases h
  ended h := by cases h

/-! ## Steps keep it -/

theorem bytesOf_append (xs ys : List (α × Nat)) : bytesOf size (xs ++ ys) = bytesOf size xs + bytesOf size ys := by
  rw [bytesOf, List.map_append, List.sum_append]
  rfl

theorem bytesOf_cons (x : α × Nat) (xs : List (α × Nat)) : bytesOf size (x :: xs) = size x.1 + bytesOf size xs := rfl

/-- The point moves, and nothing else. -/
theorem Good.move (point : Point α ε) (h : Good size workers maxPrefetchBytes items s)
    (hcurrent : point.current = s.point.current) (htaken : point.taken = s.point.taken)
    (hfits : ∀ item, point.ready = some item → size item ≤ maxPrefetchBytes)
    (hdraining : point.draining → s.todo = []) (hrefused : ∀ item, point ≠ .refused item)
    (hraised : ∀ oldest item e, point = .raised oldest item e →
      ∃ fetched, s.futures[oldest.2]? = some (fetched, some (Except.error e)))
    (hended : point = .ended → s.pending = []) :
    Good size workers maxPrefetchBytes items { s with point := point } where
  items := by rw [hcurrent]; exact h.items
  window := by rw [Window.open, htaken]; exact h.window
  bytes := h.bytes
  width := by rw [Window.open, htaken]; exact h.width
  weight := by rw [Window.open, htaken]; exact h.weight
  results := h.results
  fits := hfits
  sizes := h.sizes
  draining := hdraining
  refused item hi := absurd hi (hrefused item)
  raised := hraised
  ended := hended

/-- The next item. -/
theorem Good.item {item : α} {todo : List α} {point : Point α ε} (h : Good size workers maxPrefetchBytes items s)
    (hpoint : s.point = .next) (htodo : s.todo = item :: todo) (hcurrent : point.current = [item])
    (htaken : point.taken = []) (hfits : point = .room item ∧ size item ≤ maxPrefetchBytes ∨
      point = .refused item ∧ maxPrefetchBytes < size item) :
    Good size workers maxPrefetchBytes items { s with todo := todo, point := point } := by
  have hopen : Window.open { s with todo := todo, point := point } = s.open := by
    rw [Window.open, Window.open, htaken, hpoint]
    rfl
  refine {
    items := ?_
    window := hopen ▸ h.window
    bytes := h.bytes
    width := hopen ▸ h.width
    weight := hopen ▸ h.weight
    results := h.results
    fits := ?_
    sizes := h.sizes
    draining := ?_
    refused := ?_
    raised := ?_
    ended := ?_ }
  · have hitems := h.items
    rw [hpoint, htodo] at hitems
    rw [hcurrent, hitems]
    simp only [Point.current, List.append_nil, List.append_assoc, List.singleton_append]
  · rintro i hi
    rcases hfits with ⟨rfl, hsize⟩ | ⟨rfl, -⟩
    · obtain rfl := Option.some.inj hi
      exact hsize
    · cases hi
  · intro hd
    rcases hfits with ⟨rfl, -⟩ | ⟨rfl, -⟩ <;> exact hd.elim
  · rintro i hi
    rcases hfits with ⟨rfl, -⟩ | ⟨rfl, hsize⟩
    · cases hi
    · cases hi
      exact hsize
  · rintro _ _ _ hi
    rcases hfits with ⟨rfl, -⟩ | ⟨rfl, -⟩ <;> cases hi
  · intro hi
    rcases hfits with ⟨rfl, -⟩ | ⟨rfl, -⟩ <;> cases hi

theorem Good.yielded_le (h : Good size workers maxPrefetchBytes items s) : s.yielded.length ≤ s.futures.length := by
  have hlen := congrArg List.length h.results
  rw [List.length_take, List.length_map] at hlen
  omega

/-- A download is submitted. -/
theorem Good.submit {item : α} (h : Good size workers maxPrefetchBytes items s) (hpoint : s.point = .room item)
    (hwidth : s.pending.length < workers) (hweight : bytesOf size s.pending + size item ≤ maxPrefetchBytes) :
    Good size workers maxPrefetchBytes items (submit size s item) := by
  have hopen : s.open = s.pending := by
    rw [Window.open, hpoint]
    rfl
  have hbytes : bytesOf size (s.pending ++ [(item, s.futures.length)]) = bytesOf size s.pending + size item :=
    bytesOf_append _ _
  have hnew : (Prefetch.submit size s item).open = s.pending ++ [(item, s.futures.length)] := rfl
  refine {
    items := ?_
    window := ?_
    bytes := ?_
    width := ?_
    weight := ?_
    results := ?_
    fits := fun _ hi => (by cases hi)
    sizes := ?_
    draining := fun hd => hd.elim
    refused := fun _ hi => (by cases hi)
    raised := fun _ _ _ hi => (by cases hi)
    ended := fun hi => (by cases hi) }
  · have hitems := h.items
    rw [hpoint] at hitems
    rw [hitems, Prefetch.submit, List.map_append]
    simp only [Point.current, List.map_cons, List.map_nil, List.append_nil]
  · have hwindow := h.window
    rw [hopen] at hwindow
    rw [hnew, hwindow, Prefetch.submit, List.map_append, List.zipIdx_append, List.drop_append_of_le_length]
    · simp
    · rw [List.length_zipIdx, List.length_map]
      exact h.yielded_le
  · change s.pendingBytes + (size item : Int) = bytesOf size (s.pending ++ [(item, s.futures.length)])
    rw [hbytes, h.bytes]
    omega
  · rw [hnew, List.length_append]
    exact hwidth
  · rw [hnew, hbytes]
    exact hweight
  · rw [Prefetch.submit, List.take_append_of_le_length h.yielded_le]
    exact h.results
  · intro future hf
    rcases List.mem_append.mp hf with hf | hf
    · exact h.sizes future hf
    · obtain rfl := List.mem_singleton.mp hf
      exact h.fits item (by rw [hpoint]; rfl)

/-- The oldest download is taken out of the window. -/
theorem Good.takeOldest {oldest : α × Nat} {pending : List (α × Nat)} {item : Option α}
    (h : Good size workers maxPrefetchBytes items s) (hpending : s.pending = oldest :: pending)
    (htaken : s.point.taken = []) (hcurrent : s.point.current = item.toList)
    (hfits : ∀ i, item = some i → size i ≤ maxPrefetchBytes) (hdraining : item = none → s.todo = []) :
    Good size workers maxPrefetchBytes items (takeOldest size s oldest pending item) := by
  have hopen : (Prefetch.takeOldest size s oldest pending item).open = s.open := by
    rw [Window.open, Window.open, htaken, hpending]
    rfl
  refine {
    items := ?_
    window := hopen ▸ h.window
    bytes := ?_
    width := hopen ▸ h.width
    weight := hopen ▸ h.weight
    results := h.results
    fits := hfits
    sizes := h.sizes
    draining := fun hd => ?_
    refused := fun _ hi => (by cases hi)
    raised := fun _ _ _ hi => (by cases hi)
    ended := fun hi => (by cases hi) }
  · have hitems := h.items
    rw [hcurrent] at hitems
    exact hitems
  · have hbytes := h.bytes
    rw [hpending, bytesOf_cons] at hbytes
    rw [Prefetch.takeOldest]
    dsimp only
    omega
  · cases item with
    | none => exact hdraining rfl
    | some i => exact hd.elim

/-- The download that is waited for is the first one that has not been yielded. -/
theorem Good.handle {oldest : α × Nat} {rest : List (α × Nat)} (h : Good size workers maxPrefetchBytes items s)
    (hopen : s.open = oldest :: rest) : oldest.2 = s.yielded.length ∧
      rest = (s.futures.map Prod.fst).zipIdx.drop (s.yielded.length + 1) ∧
      ∃ state, s.futures[s.yielded.length]? = some (oldest.1, state) := by
  have hwindow := h.window
  rw [hopen] at hwindow
  have hhead := congrArg (·[0]?) hwindow
  simp only [List.getElem?_cons_zero, List.getElem?_drop, Nat.add_zero, List.getElem?_zipIdx, List.getElem?_map] at hhead
  cases hget : s.futures[s.yielded.length]? with
  | none =>
    rw [hget] at hhead
    cases hhead
  | some future =>
    rw [hget] at hhead
    obtain rfl := Option.some.inj hhead
    refine ⟨Nat.zero_add _, ?_, future.2, rfl⟩
    have htail := congrArg List.tail hwindow
    rw [List.tail_drop] at htail
    exact htail

/-- A block is yielded. -/
theorem Good.yields {oldest : α × Nat} {item : Option α} {fetched : α} {data : β}
    (h : Good size workers maxPrefetchBytes items s) (hpoint : s.point = .wait oldest item)
    (hdone : s.futures[oldest.2]? = some (fetched, some (.ok data))) :
    Good size workers maxPrefetchBytes items
      { s with yielded := s.yielded ++ [(oldest.1, data)], point := .yielded item } := by
  have hopen : s.open = oldest :: s.pending := by
    rw [Window.open, hpoint]
    rfl
  obtain ⟨hhandle, hrest, state, hget⟩ := h.handle hopen
  rw [hhandle, hget] at hdone
  obtain ⟨rfl, rfl⟩ := Prod.mk.inj (Option.some.inj hdone)
  have hnew : Window.open { s with yielded := s.yielded ++ [(oldest.1, data)], point := .yielded item } = s.pending := rfl
  have hwidth := h.width
  have hweight := h.weight
  rw [hopen] at hwidth hweight
  rw [List.length_cons] at hwidth
  rw [bytesOf_cons] at hweight
  refine {
    items := ?_
    window := ?_
    bytes := h.bytes
    width := ?_
    weight := ?_
    results := ?_
    fits := fun i hi => h.fits i (by rw [hpoint]; exact hi)
    sizes := h.sizes
    draining := fun hd => ?_
    refused := fun _ hi => (by cases hi)
    raised := fun _ _ _ hi => (by cases hi)
    ended := fun hi => (by cases hi) }
  · have hitems := h.items
    rw [hpoint] at hitems
    exact hitems
  · rw [hnew, List.length_append]
    exact hrest
  · rw [hnew]
    omega
  · rw [hnew]
    omega
  · rw [List.length_append, List.length_singleton, List.take_add_one, h.results, hget, List.map_append]
    rfl
  · cases item with
    | none => exact h.draining (by rw [hpoint]; trivial)
    | some i => exact hd.elim

/-- A download ends. -/
theorem Good.finished {handle : Nat} {item : α} {result : Except ε β} (h : Good size workers maxPrefetchBytes items s)
    (hget : s.futures[handle]? = some (item, none)) :
    Good size workers maxPrefetchBytes items { s with futures := s.futures.set handle (item, some result) } := by
  have hlt : handle < s.futures.length := (List.getElem?_eq_some_iff.mp hget).1
  have hsame : (s.futures.set handle (item, some result)).map Prod.fst = s.futures.map Prod.fst := by
    refine List.ext_getElem? fun i => ?_
    rw [List.map_set, List.getElem?_set]
    by_cases hi : handle = i
    · subst hi
      rw [if_pos rfl, List.length_map, if_pos hlt, List.getElem?_map, hget]
      rfl
    · rw [if_neg hi]
  have hlate : s.yielded.length ≤ handle := by
    by_contra hlt
    have htake := congrArg (·[handle]?) h.results
    simp only [List.getElem?_take, List.getElem?_map] at htake
    rw [if_pos (Nat.lt_of_not_le hlt), hget] at htake
    obtain ⟨y, -, hy⟩ := Option.map_eq_some_iff.mp htake.symm
    cases hy
  refine {
    items := ?_
    window := ?_
    bytes := h.bytes
    width := h.width
    weight := h.weight
    results := ?_
    fits := h.fits
    sizes := fun future hf => ?_
    draining := h.draining
    refused := h.refused
    raised := fun oldest i e hi => ?_
    ended := h.ended }
  · rw [hsame]
    exact h.items
  · rw [hsame]
    exact h.window
  · rw [List.take_set_of_le hlate]
    exact h.results
  · rcases List.mem_or_eq_of_mem_set hf with hf | rfl
    · exact h.sizes future hf
    · exact h.sizes (item, none) (List.mem_of_getElem? hget)
  · obtain ⟨fetched, hfetched⟩ := h.raised oldest i e hi
    refine ⟨fetched, ?_⟩
    rw [List.getElem?_set_ne]
    · exact hfetched
    · rintro rfl
      rw [hget] at hfetched
      cases hfetched

/-- A step of the generator. -/
theorem Good.advance (hworkers : 1 ≤ workers) (h : Good size workers maxPrefetchBytes items s)
    (hs : advance size workers maxPrefetchBytes s = some s') : Good size workers maxPrefetchBytes items s' := by
  cases hpoint : s.point with
  | next =>
    cases htodo : s.todo with
    | nil =>
      simp only [Prefetch.advance, hpoint, htodo, Option.some.injEq] at hs
      subst hs
      have hmove := h.move .tail (by rw [hpoint]; rfl) (by rw [hpoint]; rfl) (fun _ hi => (by cases hi)) (fun _ => htodo)
        (fun _ hi => (by cases hi)) (fun _ _ _ hi => (by cases hi)) fun hi => (by cases hi)
      rw [htodo] at hmove
      exact hmove
    | cons item todo =>
      simp only [Prefetch.advance, hpoint, htodo] at hs
      by_cases hsize : maxPrefetchBytes < size item
      · rw [if_pos hsize] at hs
        obtain rfl := Option.some.inj hs
        exact h.item hpoint htodo rfl rfl (.inr ⟨rfl, hsize⟩)
      · rw [if_neg hsize] at hs
        obtain rfl := Option.some.inj hs
        exact h.item hpoint htodo rfl rfl (.inl ⟨rfl, Nat.le_of_not_lt hsize⟩)
  | room item =>
    have hfits : size item ≤ maxPrefetchBytes := h.fits item (by rw [hpoint]; rfl)
    cases hpending : s.pending with
    | nil =>
      simp only [Prefetch.advance, hpoint, hpending, Option.some.injEq] at hs
      subst hs
      refine h.submit hpoint (by rw [hpending]; exact hworkers) ?_
      rw [hpending, bytesOf]
      simpa using hfits
    | cons oldest pending =>
      simp only [Prefetch.advance, hpoint, hpending] at hs
      split_ifs at hs with hfull
      · obtain rfl := Option.some.inj hs
        refine h.takeOldest hpending (by rw [hpoint]; rfl) (by rw [hpoint]; rfl) ?_ fun hi => (by cases hi)
        rintro i hi
        obtain rfl := Option.some.inj hi
        exact hfits
      · obtain rfl := Option.some.inj hs
        rw [← hpending, h.bytes] at hfull
        refine h.submit hpoint ?_ ?_ <;> omega
  | wait oldest item =>
    simp only [Prefetch.advance, hpoint] at hs
    split at hs
    · rename_i fetched data hget
      obtain rfl := Option.some.inj hs
      exact h.yields hpoint hget
    · rename_i fetched e hget
      obtain rfl := Option.some.inj hs
      refine h.move _ (by rw [hpoint]; rfl) (by rw [hpoint]; rfl) (fun _ hi => (by cases hi)) (fun hd => hd.elim)
        (fun _ hi => (by cases hi)) ?_ fun hi => (by cases hi)
      rintro oldest' item' e' hraised
      obtain ⟨rfl, rfl, rfl⟩ := Point.raised.inj hraised
      exact ⟨fetched, hget⟩
    · cases hs
  | yielded item =>
    cases item with
    | some item =>
      simp only [Prefetch.advance, hpoint, Option.some.injEq] at hs
      subst hs
      exact h.move _ (by rw [hpoint]; rfl) (by rw [hpoint]; rfl) (fun i hi => h.fits i (by rw [hpoint]; exact hi))
        (fun hd => hd.elim) (fun _ hi => (by cases hi)) (fun _ _ _ hi => (by cases hi)) fun hi => (by cases hi)
    | none =>
      simp only [Prefetch.advance, hpoint, Option.some.injEq] at hs
      subst hs
      exact h.move _ (by rw [hpoint]; rfl) (by rw [hpoint]; rfl) (fun _ hi => (by cases hi))
        (fun _ => h.draining (by rw [hpoint]; trivial)) (fun _ hi => (by cases hi)) (fun _ _ _ hi => (by cases hi))
        fun hi => (by cases hi)
  | tail =>
    have htodo : s.todo = [] := h.draining (by rw [hpoint]; trivial)
    cases hpending : s.pending with
    | nil =>
      simp only [Prefetch.advance, hpoint, hpending, Option.some.injEq] at hs
      subst hs
      have hmove := h.move .ended (by rw [hpoint]; rfl) (by rw [hpoint]; rfl) (fun _ hi => (by cases hi)) (fun _ => htodo)
        (fun _ hi => (by cases hi)) (fun _ _ _ hi => (by cases hi)) fun _ => hpending
      rw [hpending] at hmove
      exact hmove
    | cons oldest pending =>
      simp only [Prefetch.advance, hpoint, hpending, Option.some.injEq] at hs
      subst hs
      exact h.takeOldest hpending (by rw [hpoint]; rfl) (by rw [hpoint]; rfl) (fun _ hi => (by cases hi)) fun _ => htodo
  | ended | refused | raised =>
    simp only [Prefetch.advance, hpoint] at hs
    cases hs

/-- **One step** keeps the invariant. -/
theorem Good.step (hworkers : 1 ≤ workers) {event : Event β ε} (h : Good size workers maxPrefetchBytes items s)
    (hs : step size workers maxPrefetchBytes s event = some s') : Good size workers maxPrefetchBytes items s' := by
  cases event with
  | advance => exact h.advance hworkers hs
  | finished handle result =>
    simp only [Prefetch.step] at hs
    split at hs
    · rename_i item hget
      obtain rfl := Option.some.inj hs
      exact h.finished hget
    · cases hs

/-- **Every state** of a run has it. -/
theorem Good.of_run (hworkers : 1 ≤ workers) {events : List (Event β ε)}
    (hrun : Machine.run (Prefetch.step size workers maxPrefetchBytes) (start items) events = some s) :
    Good size workers maxPrefetchBytes items s :=
  (Always.of_step (fun _ _ _ h hs => h.step hworkers hs) good_start).final hrun

/-! ## The results are those of the events -/

theorem advance_futures (hs : advance size workers maxPrefetchBytes s = some s') :
    s'.futures = s.futures ∨ ∃ item, s'.futures = s.futures ++ [(item, none)] := by
  cases hpoint : s.point with
  | next =>
    simp only [advance, hpoint] at hs
    split at hs
    · obtain rfl := Option.some.inj hs
      exact .inl rfl
    · split_ifs at hs <;> obtain rfl := Option.some.inj hs <;> exact .inl rfl
  | room item =>
    simp only [advance, hpoint] at hs
    split at hs
    · obtain rfl := Option.some.inj hs
      exact .inr ⟨item, rfl⟩
    · split_ifs at hs
      · obtain rfl := Option.some.inj hs
        exact .inl rfl
      · obtain rfl := Option.some.inj hs
        exact .inr ⟨item, rfl⟩
  | wait oldest item =>
    simp only [advance, hpoint] at hs
    split at hs
    · obtain rfl := Option.some.inj hs
      exact .inl rfl
    · obtain rfl := Option.some.inj hs
      exact .inl rfl
    · cases hs
  | yielded item =>
    cases item <;> simp only [advance, hpoint] at hs <;> obtain rfl := Option.some.inj hs <;> exact .inl rfl
  | tail =>
    simp only [advance, hpoint] at hs
    split at hs <;> obtain rfl := Option.some.inj hs <;> exact .inl rfl
  | ended | refused | raised =>
    simp only [advance, hpoint] at hs
    cases hs

/-- A result that is there behind a step was there before it, or the step is the end of that download. -/
theorem step_result {event : Event β ε} {handle : Nat} {item : α} {result : Except ε β}
    (hs : step size workers maxPrefetchBytes s event = some s') (hget : s'.futures[handle]? = some (item, some result)) :
    s.futures[handle]? = some (item, some result) ∨ event = .finished handle result := by
  cases event with
  | advance =>
    rcases advance_futures hs with heq | ⟨last, heq⟩
    · exact .inl (heq ▸ hget)
    · rw [heq] at hget
      rcases Nat.lt_or_ge handle s.futures.length with hlt | hge
      · rw [List.getElem?_append_left hlt] at hget
        exact .inl hget
      · rw [List.getElem?_append_right hge] at hget
        have hmem := List.mem_singleton.mp (List.mem_of_getElem? hget)
        cases hmem
  | finished other result' =>
    simp only [step] at hs
    split at hs
    · rename_i item' hother
      obtain rfl := Option.some.inj hs
      rw [List.getElem?_set] at hget
      by_cases heq : other = handle
      · subst heq
        rw [if_pos rfl, if_pos (List.getElem?_eq_some_iff.mp hother).1] at hget
        obtain ⟨rfl, hresult⟩ := Prod.mk.inj (Option.some.inj hget)
        exact .inr (by rw [Option.some.inj hresult])
      · rw [if_neg heq] at hget
        exact .inl hget
    · cases hs

theorem run_result {events : List (Event β ε)} {handle : Nat} {item : α} {result : Except ε β}
    (hrun : Machine.run (step size workers maxPrefetchBytes) s events = some s')
    (hget : s'.futures[handle]? = some (item, some result)) :
    s.futures[handle]? = some (item, some result) ∨ Event.finished handle result ∈ events := by
  induction events generalizing s with
  | nil =>
    obtain rfl := Option.some.inj hrun
    exact .inl hget
  | cons event events ih =>
    obtain ⟨s₁, hs, hrun⟩ := Option.bind_eq_some_iff.mp hrun
    rcases ih hrun with h | h
    · rcases step_result hs h with h | rfl
      · exact .inl h
      · exact .inr List.mem_cons_self
    · exact .inr (List.mem_cons_of_mem _ h)

/-! ## Every event makes the rank smaller -/

/-- What is left to do at a point. -/
def Point.rank : Point α ε → Nat
  | .next => 2
  | .room _ => 7
  | .wait _ (some _) => 9
  | .wait _ none => 3
  | .yielded (some _) => 8
  | .yielded none => 2
  | .tail => 1
  | .ended | .refused _ | .raised _ _ _ => 0

/-- The downloads that run. -/
def Window.running (s : Window α β ε) : Nat := s.futures.countP fun future => future.2.isNone

/-- The rank. -/
def Window.rank (s : Window α β ε) : Nat := 6 * s.todo.length + 3 * s.pending.length + s.running + s.point.rank

theorem rank_advance (hs : advance size workers maxPrefetchBytes s = some s') : s'.rank < s.rank := by
  cases hpoint : s.point with
  | next =>
    simp only [advance, hpoint] at hs
    split at hs
    · rename_i htodo
      obtain rfl := Option.some.inj hs
      simp only [Window.rank, Window.running, hpoint, htodo, Point.rank]
      omega
    · rename_i item todo htodo
      split_ifs at hs <;> obtain rfl := Option.some.inj hs <;>
        simp only [Window.rank, Window.running, hpoint, htodo, Point.rank, List.length_cons] <;> omega
  | room item =>
    simp only [advance, hpoint] at hs
    split at hs
    · obtain rfl := Option.some.inj hs
      simp only [Window.rank, Window.running, submit, hpoint, Point.rank, List.length_append, List.length_singleton,
        List.countP_append, List.countP_singleton, Option.isNone_none, if_true]
      omega
    · rename_i oldest pending hpending
      split_ifs at hs <;> obtain rfl := Option.some.inj hs <;>
        simp only [Window.rank, Window.running, submit, takeOldest, hpoint, hpending, Point.rank, List.length_append,
          List.length_cons, List.length_nil, List.countP_append, List.countP_singleton, Option.isNone_none, if_true] <;> omega
  | wait oldest item =>
    simp only [advance, hpoint] at hs
    split at hs
    · obtain rfl := Option.some.inj hs
      cases item <;> simp only [Window.rank, Window.running, hpoint, Point.rank] <;> omega
    · obtain rfl := Option.some.inj hs
      cases item <;> simp only [Window.rank, Window.running, hpoint, Point.rank] <;> omega
    · cases hs
  | yielded item =>
    cases item <;> simp only [advance, hpoint] at hs <;> obtain rfl := Option.some.inj hs <;>
      simp only [Window.rank, Window.running, hpoint, Point.rank] <;> omega
  | tail =>
    simp only [advance, hpoint] at hs
    split at hs
    · rename_i hpending
      obtain rfl := Option.some.inj hs
      simp only [Window.rank, Window.running, hpoint, hpending, Point.rank]
      omega
    · rename_i oldest pending hpending
      obtain rfl := Option.some.inj hs
      simp only [Window.rank, Window.running, takeOldest, hpoint, hpending, Point.rank, List.length_cons]
      omega
  | ended | refused | raised =>
    simp only [advance, hpoint] at hs
    cases hs

theorem rank_step {event : Event β ε} (hs : step size workers maxPrefetchBytes s event = some s') : s'.rank < s.rank := by
  cases event with
  | advance => exact rank_advance hs
  | finished handle result =>
    simp only [step] at hs
    split at hs
    · rename_i item hget
      obtain ⟨hlt, heq⟩ := List.getElem?_eq_some_iff.mp hget
      obtain rfl := Option.some.inj hs
      have hpos : 0 < s.running := List.countP_pos_iff.mpr ⟨_, List.mem_of_getElem? hget, rfl⟩
      simp only [Window.rank, Window.running, List.countP_set hlt, heq, Option.isNone_none, Option.isNone_some, if_true] at hpos ⊢
      simp only [Bool.false_eq_true, if_false]
      omega
    · cases hs

/-- A run is no longer than its rank. -/
theorem run_length {events : List (Event β ε)} (hrun : Machine.run (step size workers maxPrefetchBytes) s events = some s') :
    events.length + s'.rank ≤ s.rank := by
  induction events generalizing s with
  | nil =>
    obtain rfl := Option.some.inj hrun
    simp
  | cons event events ih =>
    obtain ⟨s₁, hs, hrun⟩ := Option.bind_eq_some_iff.mp hrun
    have hlt := rank_step hs
    have hle := ih hrun
    rw [List.length_cons]
    omega

/-! ## What a run yields -/

variable (size workers maxPrefetchBytes items) in
/-- What holds behind the events of a run. -/
structure Served (events : List (Event β ε)) (s : Window α β ε) : Prop where
  /-- The items come in their order, each of them once. -/
  order : s.yielded.map Prod.fst = items.take s.yielded.length
  /-- The block of an item is the one that its own download ended with. -/
  own : ∀ (i : Nat) (item : α) (data : β), s.yielded[i]? = some (item, data) → Event.finished i (.ok data) ∈ events
  window : s.open.map Prod.fst = (items.take s.futures.length).drop s.yielded.length
  width : s.open.length ≤ workers
  weight : bytesOf size s.open ≤ maxPrefetchBytes
  /-- The count leaves out the download that is waited for. -/
  bytes : s.pendingBytes + bytesOf size s.point.taken = bytesOf size s.open
  fits : ∀ item ∈ items.take s.futures.length, size item ≤ maxPrefetchBytes
  ended : s.point = .ended → s.yielded.map Prod.fst = items
  refused : ∀ item, s.point = .refused item → items[s.futures.length]? = some item ∧ maxPrefetchBytes < size item
  raised : ∀ oldest item e, s.point = .raised oldest item e →
    items[s.yielded.length]? = some oldest.1 ∧ Event.finished s.yielded.length (Except.error e) ∈ events
  /-- It goes on, or the download that it waits for does. -/
  goes : s.point.over ∨ (advance size workers maxPrefetchBytes s).isSome = true ∨
    ∃ oldest item, s.point = .wait oldest item ∧
      ∀ result, (step size workers maxPrefetchBytes s (.finished oldest.2 result)).isSome = true
  short : events.length ≤ 6 * items.length + 2

theorem Good.submitted (h : Good size workers maxPrefetchBytes items s) :
    s.futures.map Prod.fst = items.take s.futures.length := by
  rw [h.items, List.append_assoc, List.take_append_of_le_length (Nat.le_of_eq (List.length_map _).symm), List.take_of_length_le (Nat.le_of_eq (List.length_map _))]

theorem Good.order (h : Good size workers maxPrefetchBytes items s) :
    s.yielded.map Prod.fst = items.take s.yielded.length := by
  have hresults := congrArg (List.map Prod.fst) h.results
  rw [List.map_take, h.submitted, List.take_take, Nat.min_eq_left h.yielded_le, List.map_map] at hresults
  rw [hresults]
  rfl

theorem Good.goes (h : Good size workers maxPrefetchBytes items s) :
    s.point.over ∨ (Prefetch.advance size workers maxPrefetchBytes s).isSome = true ∨
      ∃ oldest item, s.point = .wait oldest item ∧
        ∀ result, (Prefetch.step size workers maxPrefetchBytes s (.finished oldest.2 result)).isSome = true := by
  cases hpoint : s.point with
  | next =>
    refine .inr (.inl ?_)
    rw [Prefetch.advance, hpoint]
    cases s.todo with
    | nil => rfl
    | cons item todo => dsimp only; split_ifs <;> rfl
  | room item =>
    refine .inr (.inl ?_)
    rw [Prefetch.advance, hpoint]
    cases s.pending with
    | nil => rfl
    | cons oldest pending => dsimp only; split_ifs <;> rfl
  | wait oldest item =>
    obtain ⟨hhandle, -, state, hget⟩ := @Good.handle _ _ _ _ _ _ _ _ oldest s.pending h (by rw [Window.open, hpoint]; rfl)
    rw [← hhandle] at hget
    cases state with
    | none =>
      refine .inr (.inr ⟨oldest, item, rfl, fun result => ?_⟩)
      rw [Prefetch.step, hget]
      rfl
    | some result =>
      refine .inr (.inl ?_)
      rw [Prefetch.advance, hpoint]
      dsimp only
      rw [hget]
      cases result <;> rfl
  | yielded item =>
    refine .inr (.inl ?_)
    rw [Prefetch.advance, hpoint]
    cases item <;> rfl
  | tail =>
    refine .inr (.inl ?_)
    rw [Prefetch.advance, hpoint]
    cases s.pending <;> rfl
  | ended | refused | raised => exact .inl trivial

/-- **`prefetch_ordered`**: in every state of every run, whatever the downloads end with and in what
order they do, the blocks come in the order of the items and the window keeps its bounds. -/
theorem prefetch_window (hworkers : 1 ≤ workers) {events : List (Event β ε)}
    (hrun : Machine.run (step size workers maxPrefetchBytes) (start items) events = some s) :
    Served size workers maxPrefetchBytes items events s := by
  have h : Good size workers maxPrefetchBytes items s := .of_run hworkers hrun
  have hresult : ∀ (i : Nat) (item : α) (result : Except ε β), s.futures[i]? = some (item, some result) →
      Event.finished i result ∈ events := by
    intro i item result hget
    rcases run_result hrun hget with hstart | hmem
    · cases hstart
    · exact hmem
  have hwindow : s.open.map Prod.fst = (items.take s.futures.length).drop s.yielded.length := by
    rw [h.window, List.map_drop, List.zipIdx_map_fst, h.submitted]
  refine {
    order := h.order
    own := fun i item data hget => ?_
    window := hwindow
    width := h.width
    weight := h.weight
    bytes := ?_
    fits := fun item hmem => ?_
    ended := fun hpoint => ?_
    refused := fun item hpoint => ⟨?_, h.refused item hpoint⟩
    raised := fun oldest item e hpoint => ?_
    goes := h.goes
    short := ?_ }
  · have hlt : i < s.yielded.length := (List.getElem?_eq_some_iff.mp hget).1
    have htake := congrArg (·[i]?) h.results
    simp only [List.getElem?_take, if_pos hlt, List.getElem?_map, hget, Option.map_some] at htake
    exact hresult i item _ htake
  · rw [h.bytes, Window.open, bytesOf_append]
    omega
  · rw [← h.submitted] at hmem
    obtain ⟨future, hf, rfl⟩ := List.mem_map.mp hmem
    exact h.sizes future hf
  · have htodo : s.todo = [] := h.draining (by rw [hpoint]; trivial)
    have hitems := h.items
    rw [hpoint, htodo, Point.current, List.append_nil, List.append_nil] at hitems
    rw [Window.open, hpoint, h.ended hpoint] at hwindow
    have hlength := congrArg List.length hwindow
    rw [List.length_drop, ← h.submitted, List.length_map, List.length_map] at hlength
    change 0 = s.futures.length - s.yielded.length at hlength
    rw [h.order, List.take_of_length_le]
    rw [hitems, List.length_map]
    omega
  · have hitems := h.items
    rw [hpoint] at hitems
    rw [hitems, List.append_assoc, List.getElem?_append_right (by simp), List.length_map, Nat.sub_self]
    rfl
  · obtain ⟨fetched, hfetched⟩ := h.raised oldest item e hpoint
    obtain ⟨hhandle, -, state, hget⟩ := @Good.handle _ _ _ _ _ _ _ _ oldest s.pending h (by rw [Window.open, hpoint]; rfl)
    rw [hhandle] at hfetched
    refine ⟨?_, hresult _ _ _ hfetched⟩
    have hsubmitted := congrArg (·[s.yielded.length]?) h.submitted
    have hlt : s.yielded.length < s.futures.length := (List.getElem?_eq_some_iff.mp hget).1
    simp only [List.getElem?_map, hget, Option.map_some, List.getElem?_take, if_pos hlt] at hsubmitted
    exact hsubmitted.symm
  · have hlength := run_length hrun
    have hstart : (start items : Window α β ε).rank = 6 * items.length + 2 := rfl
    omega

theorem prefetch_window_one : Served (ε := String) id 1 1 [1] [.advance, .advance, .advance, .advance, .finished 0 (.ok "a")]
    ⟨[], [(1, some (.ok "a"))], [], 0, [], .wait (1, 0) none⟩ :=
  prefetch_window (Nat.le_refl 1) rfl

/-- **The large item behind**: two items of one and of two bytes, and a budget of one byte. The first
download ends well, and its block is not yielded; and the bytes of a download that is waited for
are not counted. -/
theorem prefetch_drops :
    ¬ (∀ (size : Nat → Nat) (workers maxPrefetchBytes : Nat) (items : List Nat) (events : List (Event String String))
        (s : Window Nat String String), 1 ≤ workers →
        Machine.run (step size workers maxPrefetchBytes) (start items) events = some s → s.point.over →
        (∀ handle e, Event.finished handle (Except.error e) ∉ events) →
        s.yielded.map Prod.fst = items.takeWhile fun item => decide (size item ≤ maxPrefetchBytes)) ∧
      ¬ (∀ (size : Nat → Nat) (workers maxPrefetchBytes : Nat) (items : List Nat) (events : List (Event String String))
        (s : Window Nat String String), 1 ≤ workers →
        Machine.run (step size workers maxPrefetchBytes) (start items) events = some s → s.pendingBytes = bytesOf size s.open) := by
  constructor
  · intro h
    have hrun := h id 2 1 [1, 2] [.advance, .advance, .finished 0 (.ok "a"), .advance]
      ⟨[], [(1, some (.ok "a"))], [(1, 0)], 1, [], .refused 2⟩ (by decide) rfl trivial (by rintro handle e hmem; simp at hmem)
    cases hrun
  · intro h
    have hrun := h id 2 1 [1] [.advance, .advance, .advance, .advance]
      ⟨[], [(1, none)], [], 0, [], .wait (1, 0) none⟩ (by decide) rfl
    cases hrun

end Replicate.Prefetch
