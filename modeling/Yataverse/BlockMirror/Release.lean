import Yataverse.BlockMirror.Mirror

/-!
# What a mirror releases

"Releases follow the source, but only from a complete listing." The listing of a source
merges its hold file with what `files ls` printed, and is answered with 200 when
`files ls` has failed.

- `answer_holds`: the listing a source answers with.
- `asks_release_iff`: the releases that are among the runs of one signer's chain.
- `mirror_releases_iff`: a round releases nothing the source holds just when every
  listing is complete for what the mirror holds.
- `mirror_releases_held`: a `files ls` that fails turns into a release.
-/

namespace BlockMirror

open Js GraphHead EventLoop BlockIngest

/-! ## The listing of the source -/

theorem mem_foldl_conj {xs set : List JsString} {s : JsString} :
    s ∈ xs.foldl conj set ↔ s ∈ set ∨ s ∈ xs := by
  induction xs generalizing set with
  | nil => simp
  | cons x xs ih => rw [List.foldl_cons, ih, mem_conj, List.mem_cons]; tauto

theorem mem_listing {ls : Proc} {file : List JsString} {cid : JsString} :
    cid ∈ listing ls file ↔ cid ∈ file ∨
      ls.exited 0 = true ∧ cid ∈ splitLines (ofUtf8 ls.out) ∧ rawCidRe cid = true := by
  rw [listing, mem_sorted, mem_foldl_conj]
  cases h : ls.exited 0 <;> simp

theorem mem_plan_release {source «local» : List JsString} {cid : JsString} :
    cid ∈ (plan source «local»).release ↔ cid ∈ «local» ∧ cid ∉ source := by
  simp [plan, mem_foldl_conj]

section Answer

variable {nc : NodeCrypto} {opts : BlockIngest.Opts} {src : Source} {ls : JsString → Proc}
  {now : Int} {suffix : JsString}

theorem dropPrefix_append (p s : JsString) : dropPrefix p (p ++ s) = some s := by
  simp [dropPrefix]

/-- A signer suffix is a path segment. -/
theorem segment_of_suffix (h : signerSuffixRe suffix = true) : pathSegment suffix = some suffix := by
  unfold signerSuffixRe dropPrefix at h
  split_ifs at h with hp
  · obtain ⟨r, rfl⟩ := List.isPrefixOf_iff_prefix.mp hp
    rw [List.drop_left] at h
    simp only [Bool.and_eq_true, List.all_eq_true] at h
    refine if_pos ?_
    simp only [Bool.and_eq_true, decide_eq_true_eq, Bool.not_eq_true', List.contains_eq_mem,
      decide_eq_false_iff_not, List.mem_append]
    refine ⟨List.append_ne_nil_of_left_ne_nil (by decide) r, ?_⟩
    rintro (hs | hs)
    · exact absurd hs (by decide)
    · exact absurd (h.2 _ hs) (by decide)

/-- What a source answers when it is asked for its holds. -/
def listed (src : Source) (ls : JsString → Proc) (suffix : JsString) : Json :=
  .obj [(js "cids", .arr ((listing (ls suffix) (src.files.readSet suffix)).map .str)),
    (js "signer", .str (js "did:key:" ++ suffix))]

theorem holdsRoute_of_suffix (h : signerSuffixRe suffix = true) :
    holdsRoute (js "/v1/holds/" ++ suffix) = some suffix := by
  rw [holdsRoute, dropPrefix_append, Option.bind_some, segment_of_suffix h]

/-- A listing is answered with 200, also when `files ls` has failed. -/
theorem answer_holds (h : signerSuffixRe suffix = true) :
    src.answer nc opts ls now (js "/v1/holds/" ++ suffix) = .ok ⟨200, some (listed src ls suffix)⟩ := by
  simp only [Source.answer, go, handleHeads, holdsRoute_of_suffix h, if_pos, h]
  rfl

/-- Another suffix is refused. -/
theorem answer_refused (h : signerSuffixRe suffix = false) :
    ∃ r, src.answer nc opts ls now (js "/v1/holds/" ++ suffix) = .ok r ∧ r.status ≠ 200 := by
  cases hr : holdsRoute (js "/v1/holds/" ++ suffix) with
  | some s =>
    obtain rfl : s = suffix := by
      rw [holdsRoute, dropPrefix_append, Option.bind_some, pathSegment] at hr
      split_ifs at hr
      exact (Option.some.inj hr).symm
    simp only [Source.answer, go, handleHeads, hr, if_pos, h]
    exact ⟨_, rfl, by decide⟩
  | none =>
    have h₁ : headRoute (js "/v1/holds/" ++ suffix) = none := rfl
    have h₂ : headsRoute (js "/v1/holds/" ++ suffix) = none := rfl
    have h₃ : blockRoute (js "/v1/holds/" ++ suffix) = none := rfl
    have h₄ : js "/v1/holds/" ++ suffix ≠ js "/health" := by
      intro he
      have := congrArg (List.take 2) he
      rw [List.take_append_of_le_length (by decide)] at this
      exact absurd this (by decide)
    simp only [Source.answer, go, handleHeads, handle, hr, h₁, h₂, h₃, h₄]
    exact ⟨_, rfl, by decide⟩

end Answer

/-! ## The releases of a chain -/

/-- Only calls of other commands than a release are made. -/
def NoRelease (ans : (c : Cmd) → c.Answer → Prop) {α : Type} (t : Step α) : Prop :=
  ∀ p, ¬ t.Asks ans (.release p)

section Chain

variable {ans : (c : Cmd) → c.Answer → Prop} {α β : Type}

theorem NoRelease.bind {t : Step α} {f : α → Step β} (ht : NoRelease ans t)
    (hf : ∀ a, NoRelease ans (f a)) : NoRelease ans (t.bind f) := by
  intro p h
  rcases Task.asks_bind.mp h with h | ⟨a, -, h⟩
  · exact ht p h
  · exact hf a p h

theorem NoRelease.handle {t : Step α} {h : Err → Step α} (ht : NoRelease ans t)
    (hh : ∀ e, NoRelease ans (h e)) : NoRelease ans (t.handle h) := by
  intro p hp
  rcases Task.asks_handle.mp hp with hp | ⟨e, -, hp⟩
  · exact ht p hp
  · exact hh e p hp

theorem noRelease_ret (a : α) : NoRelease ans (.ret a) := fun _ h => h

theorem asks_settle {q : Cmd} {r : Except Err α} : ¬ (settle r).Asks ans q := by
  cases r <;> exact id

theorem asks_call {c q : Cmd} : (call c).Asks ans q ↔ q = c := by
  simp [call, asks_settle]

theorem yields_call {c : Cmd} {r : c.Answer} : (call c).Yields ans r ↔ ans c r := by
  have hs : ∀ x : c.Answer, (settle x).Yields ans r ↔ r = x := by
    intro x
    cases x <;> exact Iff.rfl
  simp [call, hs]

theorem asks_callAll_sub {q : Cmd} : ∀ {cs : List Cmd}, (callAll cs).Asks ans q → q ∈ cs
  | [], h => h.elim
  | c :: cs, h => by
    rcases h with rfl | ⟨r, -, h⟩
    · exact List.mem_cons_self ..
    rcases Task.asks_bind.mp h with h | ⟨-, -, h⟩
    · exact List.mem_cons_of_mem _ (asks_callAll_sub h)
    · rcases Task.asks_bind.mp h with h | ⟨-, -, h⟩
      · exact (asks_settle h).elim
      · exact h.elim

/-- Each of the calls is made when each can be answered. -/
theorem asks_callAll {q : Cmd} : ∀ {cs : List Cmd}, (∀ c ∈ cs, ∃ r, ans c r) → q ∈ cs →
    (callAll cs).Asks ans q
  | c :: cs, hans, h => by
    rcases List.mem_cons.mp h with rfl | h
    · exact .inl rfl
    · obtain ⟨r, hr⟩ := hans c (List.mem_cons_self ..)
      exact .inr ⟨r, hr, Task.asks_bind.mpr
        (.inl (asks_callAll (fun c hc => hans c (List.mem_cons_of_mem _ hc)) h))⟩

theorem noRelease_call {c : Cmd} (h : ∀ p, c ≠ .release p) : NoRelease ans (call c) :=
  fun p hp => h p (asks_call.mp hp).symm

theorem noRelease_callAll {cs : List Cmd} (h : ∀ p, .release p ∉ cs) : NoRelease ans (callAll cs) :=
  fun p hp => h p (asks_callAll_sub hp)

theorem noRelease_fetchJson (path : JsString) : NoRelease ans (fetchJson path) := by
  have hc : NoRelease ans (call (.fetch path)) := noRelease_call fun _ => by simp
  refine (hc.handle fun _ => hc).bind fun r p => ?_
  unfold valueOf
  split
  · split <;> exact id
  · exact id

theorem noRelease_copyAll (opts : Opts) (signer : JsString) :
    ∀ (cids : List JsString) (n : Nat), NoRelease ans (copyAll opts signer cids n)
  | [], _ => noRelease_ret _
  | cid :: more, n => by
    have hc : NoRelease ans (call (.holdRemote (holdPath signer cid) opts.fetchTimeout)) :=
      noRelease_call fun _ => by simp
    refine (noRelease_call fun _ => by simp).bind fun free => ?_
    split
    · exact noRelease_ret _
    · refine ((hc.handle fun _ => ?_).bind fun _ => noRelease_copyAll opts signer more _).handle
        fun _ => noRelease_copyAll opts signer more _
      refine (noRelease_callAll fun p => ?_).bind fun _ => hc
      simp

theorem noRelease_mirrorHeads (suffix : JsString) : NoRelease ans (mirrorHeads suffix) := by
  refine (noRelease_fetchJson _).bind fun remote => (noRelease_call fun _ => by simp).bind fun l => ?_
  refine (noRelease_callAll fun p => ?_).bind fun _ => noRelease_ret _
  simp

/-- Some run of a copy comes to its end, where disk and store may answer anything. -/
theorem yields_copyAll (opts : Opts) (signer : JsString) (hfree : ∀ r, ans .freeBytes r)
    (hhold : ∀ p t r, ans (.holdRemote p t) r) :
    ∀ (cids : List JsString) (n : Nat), ∃ m, (copyAll opts signer cids n).Yields ans (.ok m)
  | [], n => ⟨n, rfl⟩
  | cid :: more, n => by
    obtain ⟨m, hm⟩ := yields_copyAll opts signer hfree hhold more (n + 1)
    by_cases hreserve : 0 < opts.minFreeBytes
    · refine ⟨n, Task.yields_bind.mpr (.inl ⟨(0 : Nat), yields_call.mpr (hfree _), ?_⟩)⟩
      rw [if_pos hreserve]
      rfl
    · refine ⟨m, Task.yields_bind.mpr (.inl ⟨(0 : Nat), yields_call.mpr (hfree _), ?_⟩)⟩
      rw [if_neg hreserve]
      refine Task.yields_handle.mpr (.inl ⟨m, rfl, Task.yields_bind.mpr (.inl ⟨(), ?_, hm⟩)⟩)
      exact Task.yields_handle.mpr (.inl ⟨(), rfl, yields_call.mpr (hhold _ _ _)⟩)

end Chain

/-! ## The releases of a round -/

section Round

variable (nc : NodeCrypto) (bopts : BlockIngest.Opts) (src : Source) (ls : JsString → Proc)
  («local» : JsString → List JsString)

/-- How the outside of a mirror may answer: the source as its state and its `files ls` have it,
unless the request fails; the own store with its holds, unless it fails; anything else
in any way. -/
def Answers : (c : Cmd) → c.Answer → Prop
  | .fetch path, r => (∃ e, r = .error e) ∨ ∃ now, r = src.answer nc bopts ls now path
  | .holds suffix, r => (∃ e, r = .error e) ∨ r = .ok («local» suffix)
  | _, _ => True

variable {nc bopts src ls «local»} {opts : Opts} {signer : JsString}

theorem cidsOf_listed (suffix : JsString) :
    cidsOf (listed src ls suffix) = listing (ls suffix) (src.files.readSet suffix) := by
  have h : (listed src ls suffix).get (js "cids") =
      .arr ((listing (ls suffix) (src.files.readSet suffix)).map .str) := rfl
  rw [cidsOf, h]
  simp [List.filterMap_map, Function.comp_def, Json.str?]

/-- A listing that is fetched is that of an accepted suffix. -/
theorem yields_fetch {suffix : JsString} {v : Json} :
    (fetchJson (js "/v1/holds/" ++ suffix)).Yields (Answers nc bopts src ls «local») (.ok v) ↔
      signerSuffixRe suffix = true ∧ v = listed src ls suffix := by
  have hvalue : ∀ {r : Reply}, (∃ now, .ok r = src.answer nc bopts ls now (js "/v1/holds/" ++ suffix)) →
      (valueOf (js "/v1/holds/" ++ suffix) r).Yields (Answers nc bopts src ls «local») (.ok v) →
      signerSuffixRe suffix = true ∧ v = listed src ls suffix := by
    rintro r ⟨now, hr⟩ hv
    cases hs : signerSuffixRe suffix with
    | true =>
      rw [answer_holds hs] at hr
      obtain rfl := Except.ok.inj hr
      exact ⟨rfl, Except.ok.inj hv⟩
    | false =>
      obtain ⟨r', hr', hne⟩ := answer_refused hs
      obtain rfl := Except.ok.inj (hr.trans hr')
      rw [valueOf, if_neg hne] at hv
      cases hv
  have hfetch : ∀ {r : Reply}, (call (.fetch (js "/v1/holds/" ++ suffix))).Yields
      (Answers nc bopts src ls «local») (.ok r) →
      ∃ now, .ok r = src.answer nc bopts ls now (js "/v1/holds/" ++ suffix) := by
    intro r h
    rcases yields_call.mp h with ⟨e, he⟩ | h
    · cases he
    · exact h
  constructor
  · intro h
    rcases Task.yields_bind.mp h with ⟨r, hr, hv⟩ | ⟨e, he, -⟩
    · rcases Task.yields_handle.mp hr with ⟨r', hr', h'⟩ | ⟨e, -, h'⟩
      · obtain rfl := Except.ok.inj hr'
        exact hvalue (hfetch h') hv
      · exact hvalue (hfetch h') hv
    · cases he
  · rintro ⟨hs, rfl⟩
    refine Task.yields_bind.mpr (.inl ⟨⟨200, some (listed src ls suffix)⟩, ?_, rfl⟩)
    refine Task.yields_handle.mpr (.inl ⟨_, rfl, yields_call.mpr (.inr ⟨0, ?_⟩)⟩)
    exact (answer_holds hs).symm

/-- **The releases of a chain**: what the mirror holds and the listing does not have. -/
theorem asks_release_iff {p : Hold} :
    (mirrorSigner opts signer).Asks (Answers nc bopts src ls «local») (.release p) ↔
      signerSuffixRe (signer.drop 8) = true ∧ p.suffix = signer.drop 8 ∧
        p.cid ∈ «local» (signer.drop 8) ∧
        p.cid ∉ listing (ls (signer.drop 8)) (src.files.readSet (signer.drop 8)) := by
  constructor
  · intro h
    rcases Task.asks_bind.mp h with h | ⟨v, hv, h⟩
    · exact (noRelease_fetchJson _ _ h).elim
    obtain ⟨hs, rfl⟩ := yields_fetch.mp hv
    rcases Task.asks_bind.mp h with h | ⟨l, hl, h⟩
    · exact (noRelease_call (fun _ => by simp) _ h).elim
    obtain rfl : l = «local» (signer.drop 8) := by
      rcases yields_call.mp hl with ⟨e, he⟩ | hl
      · cases he
      · exact Except.ok.inj hl
    rcases Task.asks_bind.mp h with h | ⟨n, -, h⟩
    · exact (noRelease_copyAll _ _ _ _ _ h).elim
    rcases Task.asks_bind.mp h with h | ⟨-, -, h⟩
    · obtain ⟨cid, hcid, hp⟩ := List.mem_map.mp (asks_callAll_sub h)
      obtain rfl := Cmd.release.inj hp
      rw [cidsOf_listed] at hcid
      exact ⟨hs, rfl, mem_plan_release.mp hcid⟩
    · exact ((noRelease_mirrorHeads _).bind (fun _ => noRelease_ret _) _ h).elim
  · rintro ⟨hs, hp, hcid⟩
    refine Task.asks_bind.mpr (.inr ⟨_, yields_fetch.mpr ⟨hs, rfl⟩, ?_⟩)
    refine Task.asks_bind.mpr (.inr ⟨_, yields_call.mpr (.inr rfl), ?_⟩)
    have hfree : ∀ r, Answers nc bopts src ls «local» .freeBytes r := fun _ => trivial
    obtain ⟨n, hn⟩ := yields_copyAll opts signer hfree (fun _ _ _ => trivial)
      (plan (cidsOf (listed src ls (signer.drop 8))) («local» (signer.drop 8))).copy 0
    refine Task.asks_bind.mpr (.inr ⟨n, hn, Task.asks_bind.mpr (.inl ?_)⟩)
    refine asks_callAll ?_ ?_
    · intro c hc
      obtain ⟨cid, -, rfl⟩ := List.mem_map.mp hc
      exact ⟨.ok true, trivial⟩
    · refine List.mem_map.mpr ⟨p.cid, ?_, ?_⟩
      · rw [cidsOf_listed]
        exact mem_plan_release.mpr hcid
      · rw [holdPath, ← hp]

theorem asks_round {p : Hold} {t : Step Summary} (ht : t ∈ round opts) :
    t.Asks (Answers nc bopts src ls «local») (.release p) →
      ∃ signer ∈ opts.signers,
        (mirrorSigner opts signer).Asks (Answers nc bopts src ls «local») (.release p) := by
  intro h
  obtain ⟨signer, hs, rfl⟩ := List.mem_map.mp ht
  rcases Task.asks_handle.mp h with h | ⟨_, -, h⟩
  · exact ⟨signer, hs, h⟩
  · cases h

variable (nc bopts src ls «local» opts) in
/-- In no run of a round is a hold released that the source has. -/
def ReleasesNothingHeld : Prop :=
  ∀ t ∈ round opts, ∀ p, t.Asks (Answers nc bopts src ls «local») (.release p) → ¬ src.Holds p

variable (src ls «local») in
/-- The listing of a signer has what the mirror holds of the source's MFS entries: `files ls`
has succeeded, or the hold file has them as well. -/
def Complete (suffix : JsString) : Prop :=
  (ls suffix).exited 0 = true ∨
    ∀ cid, ⟨suffix, cid⟩ ∈ src.mfs → cid ∈ «local» suffix → cid ∈ src.files.readSet suffix

/-- **A round releases nothing the source holds just when the listings are complete**, of
each signer whose suffix the source lists at all. -/
theorem mirror_releases_iff (hls : ∀ suffix, src.Lists suffix (ls suffix)) :
    ReleasesNothingHeld nc bopts src ls «local» opts ↔
      ∀ signer ∈ opts.signers, signerSuffixRe (signer.drop 8) = true →
        Complete src ls «local» (signer.drop 8) := by
  constructor
  · intro h signer hsigner hs
    refine or_iff_not_imp_left.mpr fun hfail cid hmfs hlocal => ?_
    by_contra hfile
    refine h _ (List.mem_map_of_mem hsigner) ⟨signer.drop 8, cid⟩
      (Task.asks_handle.mpr (.inl (asks_release_iff.mpr ⟨hs, rfl, hlocal, ?_⟩))) (.inl hmfs)
    rw [mem_listing]
    rintro (hc | hc)
    · exact hfile hc
    · exact hfail hc.1
  · intro h t ht p hask hheld
    obtain ⟨signer, hsigner, hask⟩ := asks_round ht hask
    obtain ⟨hs, hp, hlocal, hlisted⟩ := asks_release_iff.mp hask
    rw [mem_listing] at hlisted
    obtain ⟨suffix, cid⟩ := p
    obtain rfl : suffix = signer.drop 8 := hp
    rcases hheld with hmfs | hfile
    · rcases h signer hsigner hs with hok | hfile
      · exact hlisted (.inr ⟨hok, (hls _ hok cid (src.mfs_cid _ hmfs)).mpr hmfs, src.mfs_cid _ hmfs⟩)
      · exact hlisted (.inl (hfile cid hmfs hlocal))
    · exact hlisted (.inl hfile)

end Round

/-! ## A source whose `files ls` fails -/

namespace Sample

open BlockIngest.Sample

/-- A source where Alice holds one block, in MFS. -/
def source : Source where
  files := Files.empty
  mfs := [⟨alice.drop 8, cidRaw⟩]
  mfs_cid := by
    intro p hp
    obtain rfl := List.mem_singleton.mp hp
    decide

/-- The `files ls` of a Kubo that does what it is told. -/
def lists (suffix : JsString) : Proc :=
  if suffix = alice.drop 8 then exited 0 (cidRaw ++ js "\n") [] else exited 0 [] []

/-- The `files ls` of a Kubo that does not. -/
def fails (_ : JsString) : Proc := exited 1 [] (js "Error: context deadline exceeded")

/-- The mirror holds the same block. -/
def mirrored (_ : JsString) : List JsString := [cidRaw]

def mirrorOpts : Opts := ⟨[alice], 0, 120, []⟩

theorem lists_source (suffix : JsString) : source.Lists suffix (lists suffix) := by
  intro _ cid hcid
  have hne : cid ≠ [] := by
    rintro rfl
    cases hcid
  unfold lists
  split
  · rename_i h
    subst h
    have : splitLines (ofUtf8 (exited 0 (cidRaw ++ js "\n") []).out) = [cidRaw] := by
      decide
    simp [this, source]
  · rename_i h
    have : splitLines (ofUtf8 (exited 0 [] []).out) = [[]] := by decide
    simp [this, source, h, hne]

end Sample

open Sample BlockIngest.Sample in
/-- Where `files ls` succeeds, the block is kept. -/
theorem mirror_releases_iff_sample :
    ReleasesNothingHeld blockCrypto opts source lists mirrored mirrorOpts ↔
      ∀ signer ∈ mirrorOpts.signers, signerSuffixRe (signer.drop 8) = true →
        Complete source lists mirrored (signer.drop 8) :=
  mirror_releases_iff lists_source

open Sample BlockIngest.Sample in
/-- **A `files ls` that fails at the source releases the mirror's copy.** The listing is
answered with 200, without the block the source holds in MFS. -/
theorem mirror_releases_held :
    (∀ suffix, source.Lists suffix (fails suffix)) ∧
      ¬ ReleasesNothingHeld blockCrypto opts source fails mirrored mirrorOpts := by
  refine ⟨fun suffix h => ?_, fun h => ?_⟩
  · cases h
  · refine h _ (List.mem_map_of_mem (List.mem_singleton_self alice)) ⟨alice.drop 8, cidRaw⟩
      (Task.asks_handle.mpr (.inl (asks_release_iff.mpr ⟨?_, rfl, ?_, ?_⟩))) (.inl ?_)
    · decide
    · exact List.mem_singleton_self _
    · rw [mem_listing]
      rintro (hc | hc)
      · cases hc
      · cases hc.1
    · exact List.mem_singleton_self _

end BlockMirror
