import Yataverse.BlockIngest.Heads

/-!
# Requests handled one at a time

Each request runs to its end before the next one arrives, over a Kubo that does what it
is told.

- `World`: the files and the Kubo of a service; `World.holds`: who holds what.
- `after`, `afterAll`: the world behind one request, and behind several.
- `after_run`: handling a request alone is a run of the service.
- `after_put`, `after_delete`, `after_headPut`, `after_other`: what each request changes.
-/

namespace BlockIngest

open Js GraphHead EventLoop

/-! ## Worlds -/

/-- The files and the Kubo of a service. -/
abbrev World := Files × Kubo

namespace World

/-- Nothing is stored. -/
def fresh : World := (Files.empty, Kubo.empty)

/-- The hold is there: as an MFS entry, or in the signer's hold file. -/
def holds (w : World) (p : Hold) : Bool :=
  if unixfs p.cid then decide (p ∈ w.2.mfs) else w.1.held p.suffix p.cid

variable {f f' : Files} {k k' : Kubo} {p q : Hold}

theorem holds_mfs (hp : unixfs p.cid = true) (hm : k'.mfs = p :: k.mfs) :
    holds (f, k') q = true ↔ holds (f, k) q = true ∨ q = p := by
  unfold holds
  split
  · simp [hm, or_comm]
  · rename_i hq
    rw [or_iff_left]
    rintro rfl
    exact hq hp

theorem holds_file (hp : unixfs p.cid = false) (hm : k'.mfs = k.mfs) :
    holds (f.add p.suffix p.cid, k') q = true ↔ holds (f, k) q = true ∨ q = p := by
  unfold holds
  split
  · rename_i hq
    rw [hm, or_iff_left]
    rintro rfl
    cases hq.symm.trans hp
  · obtain ⟨σ, cid⟩ := p
    obtain ⟨σ', cid'⟩ := q
    rw [Files.held_add, Hold.mk.injEq, or_comm]

theorem holds_mfs_remove (hp : unixfs p.cid = true) (hm : k'.mfs = k.mfs.filter (· ≠ p)) :
    holds (f, k') q = true ↔ holds (f, k) q = true ∧ q ≠ p := by
  unfold holds
  split
  · simp [hm]
  · rename_i hq
    rw [and_iff_left]
    rintro rfl
    exact hq hp

theorem holds_file_remove (hp : unixfs p.cid = false) (hm : k'.mfs = k.mfs) :
    holds (f.remove p.suffix p.cid, k') q = true ↔ holds (f, k) q = true ∧ q ≠ p := by
  unfold holds
  split
  · rename_i hq
    rw [hm, and_iff_left]
    rintro rfl
    cases hq.symm.trans hp
  · obtain ⟨σ, cid⟩ := p
    obtain ⟨σ', cid'⟩ := q
    rw [Files.held_remove, ne_eq, Hold.mk.injEq, and_comm]

end World

section Requests

variable (nc : NodeCrypto) (opts : Opts)

/-- A request handled alone: its answer, and the world behind it. -/
def answer (w : World) (req : Int × Request) : Except Err Response × World :=
  (go nc opts req.1 req.2).alone (Kubo.exec nc) w.1 w.2

/-- The world behind a request. -/
def after (w : World) (req : Int × Request) : World := (answer nc opts w req).2

/-- The world behind several requests. -/
def afterAll (w : World) (reqs : List (Int × Request)) : World := reqs.foldl (after nc opts) w

variable {nc opts} {w : World} {req : Int × Request} {p : Hold}

@[simp] theorem afterAll_nil : afterAll nc opts w [] = w := rfl

theorem afterAll_append {reqs reqs' : List (Int × Request)} :
    afterAll nc opts w (reqs ++ reqs') = afterAll nc opts (afterAll nc opts w reqs) reqs' :=
  List.foldl_append

theorem afterAll_concat {reqs : List (Int × Request)} :
    afterAll nc opts w (reqs ++ [req]) = after nc opts (afterAll nc opts w reqs) req := by
  rw [afterAll_append]
  rfl

/-- Handling a request alone is a run of the service. -/
theorem after_run {ι : Type} [DecidableEq ι] {reqs : ι → Int × Request}
    {c : Cfg ι Files Kubo Cmd (fun _ => Proc) Err Response} {i : ι} (h : c.phase i = .unborn) :
    ∃ ls c', (kuboService nc opts reqs).run c (.arrive i :: ls) = some c' ∧
      c'.world = after nc opts c.world (reqs i) := by
  have hexec : ∀ fin e cmd, (kuboService nc opts reqs).exec i fin e cmd () =
      some (Kubo.exec nc e cmd) := fun _ _ _ => rfl
  obtain ⟨ls, c', hrun, hw, -⟩ := Loop.run_alone (M := kuboService nc opts reqs) (i := i) (x := ())
    hexec (go nc opts (reqs i).1 (reqs i).2) (Loop.arrival c i)
  refine ⟨ls, c', ?_, hw⟩
  have hs : (kuboService nc opts reqs).step c (.arrive i) =
      some (Loop.afterTurn (Loop.arrival c i) i (go nc opts (reqs i).1 (reqs i).2)) := by
    simp only [Loop.step, h]
    rfl
  rw [Loop.run_cons, hs, Option.bind_some, hrun]

/-! ## What each request changes -/

/-- What Kubo prints for a block it has stored. -/
theorem trim_cidOf (codec : Codec) (buf : Bytes) :
    trim (ofUtf8 (utf8 (cidOf nc codec buf ++ js "\n"))) = cidOf nc codec buf := by
  have hrange : ∀ u ∈ cidOf nc codec buf, 50 ≤ u.toNat ∧ u.toNat ≤ 122 := by
    intro u hu
    rcases List.mem_cons.mp hu with rfl | hu
    · decide
    · exact isB32_range (isB32_b32Encode _ u hu)
  have hascii : Ascii (cidOf nc codec buf ++ js "\n") := by
    intro u hu
    rcases List.mem_append.mp hu with hu | hu
    · have := (hrange u hu).2
      rw [UInt16.lt_iff_toNat_lt]
      exact lt_of_le_of_lt this (by decide)
    · obtain rfl := List.mem_singleton.mp hu
      decide
  rw [ofUtf8_utf8 hascii]
  exact trim_line fun u hu => not_isWhite_of_range (hrange u hu)

theorem held_alone : (held p).alone (Kubo.exec nc) w.1 w.2 = (.ok (w.holds p), w) := by
  unfold held World.holds
  split
  · simp only [ipfs, Task.call, Task.bind_eq, Task.bind_await, Task.bind_ret, Task.pure_eq, Task.alone,
      Kubo.exec]
    split <;> simp_all [exited, Proc.exited]
  · rfl

theorem put_alone (codec : Codec) (buf : Bytes) :
    (put codec buf).alone (Kubo.exec nc) w.1 w.2 = (.ok (cidOf nc codec buf), w.1,
      { w.2 with blocks := (cidOf nc codec buf, buf) :: w.2.blocks }) := by
  show (Except.ok (trim (ofUtf8 (utf8 (cidOf nc codec buf ++ js "\n")))), _) = _
  rw [trim_cidOf]
  rfl

/-- A hold that is not there yet is made. -/
theorem hold_alone (h : w.holds p = false) : ∃ w' : World,
    (hold p).alone (Kubo.exec nc) w.1 w.2 = (.ok (), w') ∧ w'.1.heads = w.1.heads ∧
      ∀ q, w'.holds q = true ↔ w.holds q = true ∨ q = p := by
  unfold hold
  split
  · rename_i hu
    have hm : p ∉ w.2.mfs := by simpa [World.holds, hu] using h
    refine ⟨(w.1, { w.2 with mfs := p :: w.2.mfs }), ?_, rfl, fun q => World.holds_mfs hu rfl⟩
    have hmkdir : w.2.exec nc (.filesMkdir p.suffix) = (exited 0 [] [], w.2) := rfl
    have hcp : w.2.exec nc (.filesCp p) = (exited 0 [] [], { w.2 with mfs := p :: w.2.mfs }) := by
      simp only [Kubo.exec, hm, if_false]
    simp only [mfsHold, ipfs, Task.call, Task.bind_eq, Task.bind_await, Task.bind_ret, Task.alone,
      hmkdir, hcp]
    rfl
  · rename_i hu
    exact ⟨(w.1.add p.suffix p.cid, { w.2 with pins := conj w.2.pins p.cid }), rfl, rfl,
      fun q => World.holds_file (by simpa using hu) rfl⟩

/-- A hold that is there is released. -/
theorem release_alone : ∃ (b : Bool) (w' : World),
    (release p).alone (Kubo.exec nc) w.1 w.2 = (.ok b, w') ∧ w'.1.heads = w.1.heads ∧
      ∀ q, w'.holds q = true ↔ w.holds q = true ∧ q ≠ p := by
  unfold release
  split
  · rename_i hu
    exact ⟨_, (w.1, { w.2 with mfs := w.2.mfs.filter (· ≠ p) }), rfl, rfl,
      fun q => World.holds_mfs_remove hu rfl⟩
  · rename_i hu
    have hu : unixfs p.cid = false := by simpa using hu
    cases hany : (w.1.remove p.suffix p.cid).heldByAnyone p.cid with
    | true =>
      refine ⟨true, (w.1.remove p.suffix p.cid, w.2), ?_, rfl, fun q => World.holds_file_remove hu rfl⟩
      simp only [Task.modify, Task.reads, Task.bind_eq, Task.bind_upd, Task.bind_ret, Task.bind_get,
        Task.alone, hany]
      rfl
    | false =>
      refine ⟨true, (w.1.remove p.suffix p.cid, { w.2 with pins := disj w.2.pins p.cid }), ?_, rfl,
        fun q => World.holds_file_remove hu rfl⟩
      simp only [Task.modify, Task.reads, Task.bind_eq, Task.bind_upd, Task.bind_ret, Task.bind_get,
        Task.alone, hany]
      rfl

/-- The handler of an error leaves the world as it is. -/
theorem alone_answered (t : Step Response) :
    ((t.handle fun e => .ret (answerError e) : Step Response).alone (Kubo.exec nc) w.1 w.2).2 =
      (t.alone (Kubo.exec nc) w.1 w.2).2 := by
  rcases h : t.alone (Kubo.exec nc) w.1 w.2 with ⟨r, s, e⟩
  cases r with
  | ok a => rw [Task.alone_handle_ok h]
  | error err => rw [Task.alone_handle_error h]; rfl

/-- **An accepted PUT** holds its block, if Kubo names the block by the CID of the request. -/
theorem after_put {codec : Codec} {buf : Bytes}
    (h : blockOp nc opts req.1 req.2 = some (p, .put codec buf)) :
    (after nc opts w req).1.heads = w.1.heads ∧
      ∀ q, (after nc opts w req).holds q = true ↔
        w.holds q = true ∨ (q = p ∧ cidOf nc codec buf = p.cid) := by
  rw [after, answer, (go_of_put h).1, alone_answered, putBlock, Task.bind_eq,
    Task.alone_bind_ok held_alone]
  cases hw : w.holds p with
  | true =>
    refine ⟨rfl, fun q => ⟨.inl, ?_⟩⟩
    rintro (hq | ⟨rfl, -⟩)
    · exact hq
    · exact hw
  | false =>
    simp only [Bool.false_eq_true, if_false]
    rw [Task.bind_eq, Task.alone_bind_ok (put_alone codec buf)]
    -- storing the block changes no hold
    set w₁ : World := (w.1, { w.2 with blocks := (cidOf nc codec buf, buf) :: w.2.blocks }) with hw₁
    have hsame : ∀ q, w₁.holds q = w.holds q := fun _ => rfl
    by_cases hcid : cidOf nc codec buf = p.cid
    · obtain ⟨w', hhold, hheads, hholds⟩ := hold_alone ((hsame p).trans hw)
      have hrest : ((do
          ensure (cidOf nc codec buf = p.cid)
            (.unmeasured (js "Kubo stored " ++ cidOf nc codec buf ++ js " for " ++ p.cid))
          hold p
          return stored p p.cid buf 201 : Step Response).alone (Kubo.exec nc) w₁.1 w₁.2).2 = w' := by
        simp only [ensure, hcid, decide_true, if_true, Task.bind_eq, Task.bind_ret]
        rw [Task.alone_bind_ok hhold]
        rfl
      rw [hrest]
      refine ⟨hheads, fun q => ?_⟩
      rw [hholds, hsame]
      simp [hcid]
    · have hrest : ((do
          ensure (cidOf nc codec buf = p.cid)
            (.unmeasured (js "Kubo stored " ++ cidOf nc codec buf ++ js " for " ++ p.cid))
          hold p
          return stored p p.cid buf 201 : Step Response).alone (Kubo.exec nc) w₁.1 w₁.2).2 = w₁ := by
        simp only [ensure, hcid, decide_false]
        rfl
      rw [hrest]
      exact ⟨rfl, fun q => by simp [hsame, hcid]⟩

/-- **An accepted DELETE** releases its hold. -/
theorem after_delete (h : blockOp nc opts req.1 req.2 = some (p, .delete)) :
    (after nc opts w req).1.heads = w.1.heads ∧
      ∀ q, (after nc opts w req).holds q = true ↔ w.holds q = true ∧ q ≠ p := by
  rw [after, answer, go_of_delete h, alone_answered, deleteBlock, Task.bind_eq,
    Task.alone_bind_ok held_alone]
  cases hw : w.holds p with
  | false =>
    refine ⟨rfl, fun q => ⟨fun hq => ⟨hq, ?_⟩, And.left⟩⟩
    rintro rfl
    cases hq.symm.trans hw
  | true =>
    obtain ⟨b, w', hrel, hheads, hholds⟩ := release_alone (w := w) (p := p)
    simp only [if_true]
    rw [Task.bind_eq, Task.alone_bind_ok hrel]
    exact ⟨hheads, hholds⟩

/-- **A PUT of a head** writes the head or changes nothing; it writes only what the signer holds. -/
theorem after_headPut {name : JsString} {seq : Int} (h : headPut req.2 = some (p, name, seq)) :
    after nc opts w req = w ∨ w.holds p = true ∧
      after nc opts w req = (w.1.putHead p.suffix name (headRecord p.cid seq req.1), w.2) := by
  rcases go_of_headPut h with ⟨resp, -, hgo⟩ | hgo
  · left
    rw [after, answer, hgo]
    rfl
  rw [after, answer, hgo, alone_answered]
  have hcompare : ((compareAndWrite p name seq req.1 (w.1.head p.suffix name) (w.holds p)).alone
      (Kubo.exec nc) w.1 w.2).2 = w ∨ w.holds p = true ∧
        ((compareAndWrite p name seq req.1 (w.1.head p.suffix name) (w.holds p)).alone
          (Kubo.exec nc) w.1 w.2).2 =
          (w.1.putHead p.suffix name (headRecord p.cid seq req.1), w.2) := by
    unfold compareAndWrite
    split
    · exact .inl rfl
    · rename_i hheld
      split
      · exact .inl rfl
      · exact .inr ⟨by simpa using hheld, rfl⟩
  unfold putHead
  split
  · rw [Task.bind_eq, Task.alone_bind_ok (b := w.1.head p.suffix name) rfl,
      Task.bind_eq, Task.alone_bind_ok held_alone]
    exact hcompare
  · rw [Task.bind_eq, Task.alone_bind_ok held_alone, Task.bind_eq,
      Task.alone_bind_ok (b := w.1.head p.suffix name) rfl]
    exact hcompare

/-- Any other request changes nothing. -/
theorem after_other (hop : blockOp nc opts req.1 req.2 = none) (hput : headPut req.2 = none) :
    after nc opts w req = w := by
  have hk : (go nc opts req.1 req.2).Keeps (fun c => c.reading = true) Eq :=
    go_keeps (fun _ h => h) (fun _ _ _ h => by simp [hop] at h) (fun _ h => by simp [hop] at h)
      fun _ _ _ h => by simp [hput] at h
  have hexec : ∀ (k : Kubo) (c : Cmd), c.reading = true → (k.exec nc c).2 = k := by
    intro k c hc
    cases c <;> first | rfl | (simp only [Kubo.exec]; split <;> rfl) | cases hc
  obtain ⟨h₁, h₂⟩ := hk.alone (fun _ => rfl) (fun _ _ _ => Eq.trans) hexec w.1 w.2
  exact Prod.ext h₁.symm h₂

end Requests

end BlockIngest
