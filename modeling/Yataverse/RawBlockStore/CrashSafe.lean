import Yataverse.RawBlockStore.Store
import Mathlib.Data.List.Infix

/-!
# The raw block store is crash-safe

A block is published in two renames, the bytes and then the metadata. Whatever the calls of
`put` and wherever they are killed, the files at the published paths are whole and are never
written again.

- `Whole`: what holds of the files after every file operation.
- `Extends`: a file at a published path stays as it is.
- `safe_put`: `put` keeps both from operation to operation.
- **`crash_safe`**: what is read, kept, written again and listed after any calls.
-/

namespace RawBlockStore

open Js GraphHead EventLoop Fallible Lake

variable {nc : NodeCrypto} {impl : Impl} {s s' s₀ : Store} {cid cid' uuid uuid₁ uuid₂ : JsString}
  {data d : Bytes} {p q r : Path} {c c' : Content} {given given' : List (JsString × Bytes)}

/-! ## Paths -/

theorem dataPath_last (nc : NodeCrypto) (cid : JsString) : (dataPath nc cid).name.getLast? = some (unit 'k') := by
  rw [dataPath, List.getLast?_append]
  rfl

theorem metaPath_last (nc : NodeCrypto) (cid : JsString) : (metaPath nc cid).name.getLast? = some (unit 'n') := by
  rw [metaPath, List.getLast?_append]
  rfl

theorem tempPath_last : (tempPath p uuid).name.getLast? = some (unit 'p') := by
  rw [tempPath, List.getLast?_append]
  rfl

theorem dataPath_injective (h : dataPath nc cid = dataPath nc cid') : cid = cid' :=
  List.append_cancel_right (congrArg Path.name h)

theorem metaPath_injective (h : metaPath nc cid = metaPath nc cid') : cid = cid' :=
  List.append_cancel_right (congrArg Path.name h)

@[simp] theorem dataPath_ne_metaPath : dataPath nc cid ≠ metaPath nc cid' := by
  intro h
  have hl := dataPath_last nc cid
  rw [h, metaPath_last] at hl
  revert hl
  decide

@[simp] theorem dataPath_ne_tempPath : dataPath nc cid ≠ tempPath p uuid := by
  intro h
  have hl := dataPath_last nc cid
  rw [h, tempPath_last] at hl
  revert hl
  decide

@[simp] theorem metaPath_ne_tempPath : metaPath nc cid ≠ tempPath p uuid := by
  intro h
  have hl := metaPath_last nc cid
  rw [h, tempPath_last] at hl
  revert hl
  decide

/-- The temporary files of the two files of a block differ. -/
theorem tempPath_meta_ne : tempPath (metaPath nc cid) uuid₂ ≠ tempPath (dataPath nc cid) uuid₁ := by
  intro h
  have hn := congrArg Path.name h
  simp only [tempPath, metaPath, dataPath, List.append_assoc, List.append_cancel_left_eq] at hn
  have h₂ := congrArg (fun l : JsString => l[1]?) hn
  rw [List.getElem?_append_left (by decide), List.getElem?_append_left (by decide)] at h₂
  revert h₂
  decide

theorem json_last {name : JsString} (h : js ".json" <:+ name) : name.getLast? = some (unit 'n') := by
  obtain ⟨t, rfl⟩ := h
  rw [List.getLast?_append]
  rfl

/-- A temporary file is no metadata file. -/
theorem not_json_tempPath : ¬ js ".json" <:+ (tempPath p uuid).name := by
  intro h
  have hl := json_last h
  rw [tempPath_last] at hl
  revert hl
  decide

theorem not_json_dataPath : ¬ js ".json" <:+ (dataPath nc cid).name := by
  intro h
  have hl := json_last h
  rw [dataPath_last] at hl
  revert hl
  decide

/-! ## Files -/

theorem write_lookup : (write p c s).files.lookup q = if q = p then some c else s.files.lookup q := by
  unfold write
  split
  · rename_i h
    rw [h, AList.lookup_insert]
  · rename_i h
    rw [AList.lookup_insert_ne h]

theorem unlink_lookup : (unlink p s).files.lookup q = if q = p then none else s.files.lookup q := by
  unfold unlink
  split
  · rename_i h
    rw [h, AList.lookup_erase]
  · rename_i h
    rw [AList.lookup_erase_ne h]

theorem rename_eq (h : s.files.lookup p = some c) :
    rename p q s = { s with files := (s.files.erase p).insert q c, renamed := q :: s.renamed } := by
  rw [rename, h]

theorem rename_lookup (h : s.files.lookup p = some c) : (rename p q s).files.lookup r =
    if r = q then some c else if r = p then none else s.files.lookup r := by
  rw [rename_eq h]
  dsimp only
  split
  · rename_i hq
    rw [hq, AList.lookup_insert]
  · rename_i hq
    rw [AList.lookup_insert_ne hq]
    split
    · rename_i hp
      rw [hp, AList.lookup_erase]
    · rename_i hp
      rw [AList.lookup_erase_ne hp]

/-! ## The invariant -/

/-- `put` accepts the block. -/
def Admissible (nc : NodeCrypto) (impl : Impl) (cid : JsString) (data : Bytes) : Prop :=
  admissible? nc impl cid data = .ok ()

/-- The published files. `given` are the blocks that calls of `put` have been given. -/
structure Whole (nc : NodeCrypto) (impl : Impl) (given : List (JsString × Bytes)) (s : Store) : Prop where
  block : ∀ cid c, s.files.lookup (dataPath nc cid) = some c →
    ∃ d, c = .block d ∧ (cid, d) ∈ given ∧ Admissible nc impl cid d
  metadata : ∀ cid c, s.files.lookup (metaPath nc cid) = some c →
    ∃ d, c = .metadata (metaOf nc cid d) ∧ s.files.lookup (dataPath nc cid) = some (.block d)
  named : ∀ p c, s.files.lookup p = some c → js ".json" <:+ p.name → ∃ cid, p = metaPath nc cid
  record : ∀ cid, metaPath nc cid ∈ s.renamed ↔ s.has (metaPath nc cid) = true
  dirs : ∀ p c, s.files.lookup p = some c → s.root = true ∧ p.shard ∈ s.shards

/-- The files at the published paths stay as they are. -/
def Extends (nc : NodeCrypto) (s s' : Store) : Prop :=
  ∀ cid c, (s.files.lookup (dataPath nc cid) = some c → s'.files.lookup (dataPath nc cid) = some c) ∧
    (s.files.lookup (metaPath nc cid) = some c → s'.files.lookup (metaPath nc cid) = some c)

/-- A block is in the store, with its metadata. -/
def Held (nc : NodeCrypto) (cid : JsString) (d : Bytes) (s : Store) : Prop :=
  s.files.lookup (dataPath nc cid) = some (.block d) ∧
    s.files.lookup (metaPath nc cid) = some (.metadata (metaOf nc cid d))

theorem Extends.refl : Extends nc s s := fun _ _ => ⟨id, id⟩

theorem Extends.trans {s₁ s₂ s₃ : Store} (h : Extends nc s₁ s₂) (h' : Extends nc s₂ s₃) : Extends nc s₁ s₃ :=
  fun cid c => ⟨fun hc => (h' cid c).1 ((h cid c).1 hc), fun hc => (h' cid c).2 ((h cid c).2 hc)⟩

theorem Held.mono (h : Held nc cid d s) (he : Extends nc s s') : Held nc cid d s' :=
  ⟨(he cid _).1 h.1, (he cid _).2 h.2⟩

theorem Whole.start : Whole nc impl given Store.start where
  block cid c h := by cases h
  metadata cid c h := by cases h
  named p c h := by cases h
  record cid := ⟨fun h => (by cases h), fun h => (by cases h)⟩
  dirs p c h := by cases h

theorem Whole.mono (hg : ∀ g ∈ given, g ∈ given') (h : Whole nc impl given s) : Whole nc impl given' s where
  block cid c hc := by
    obtain ⟨d, hd, hg', ha⟩ := h.block cid c hc
    exact ⟨d, hd, hg _ hg', ha⟩
  metadata := h.metadata
  named := h.named
  record := h.record
  dirs := h.dirs

/-- Directories are made. -/
theorem Whole.dirs_made (h : Whole nc impl given s) (root : Bool) (shards : List JsString)
    (hr : s.root = true → root = true) (hs : ∀ d ∈ s.shards, d ∈ shards) :
    Whole nc impl given { s with root := root, shards := shards } where
  block := h.block
  metadata := h.metadata
  named := h.named
  record := h.record
  dirs p c hp := ⟨hr (h.dirs p c hp).1, hs _ (h.dirs p c hp).2⟩

/-- Only a temporary file changes. -/
theorem Whole.temp (h : Whole nc impl given s) {files : AList fun _ : Path => Content}
    (hf : ∀ q, q ≠ tempPath p uuid → files.lookup q = s.files.lookup q)
    (hd : s.root = true ∧ p.shard ∈ s.shards) : Whole nc impl given { s with files := files } where
  block cid c hc := h.block cid c (by rwa [← hf _ dataPath_ne_tempPath])
  metadata cid c hc := by
    rw [hf _ metaPath_ne_tempPath] at hc
    obtain ⟨d, hd, hb⟩ := h.metadata cid c hc
    exact ⟨d, hd, (hf _ dataPath_ne_tempPath).trans hb⟩
  named q c hq hj := by
    by_cases hqt : q = tempPath p uuid
    · rw [hqt] at hj
      exact absurd hj not_json_tempPath
    · exact h.named q c (by rwa [← hf q hqt]) hj
  record cid := by
    rw [h.record cid, Store.has, Store.has, hf _ metaPath_ne_tempPath]
  dirs q c hq := by
    by_cases hqt : q = tempPath p uuid
    · rw [hqt]
      exact hd
    · exact h.dirs q c (by rwa [← hf q hqt])

theorem Extends.temp {files : AList fun _ : Path => Content}
    (hf : ∀ q, q ≠ tempPath p uuid → files.lookup q = s.files.lookup q) :
    Extends nc s { s with files := files } :=
  fun _ _ => ⟨fun h => (hf _ dataPath_ne_tempPath).trans h, fun h => (hf _ metaPath_ne_tempPath).trans h⟩

/-- What may be published at a path: the bytes of a block, or the metadata behind them. -/
inductive Publishable (nc : NodeCrypto) (impl : Impl) (given : List (JsString × Bytes)) (s : Store) :
    Path → Content → Prop where
  | block {cid : JsString} {d : Bytes} (hg : (cid, d) ∈ given) (ha : Admissible nc impl cid d)
      (hnew : s.files.lookup (dataPath nc cid) = none) : Publishable nc impl given s (dataPath nc cid) (.block d)
  | metadata {cid : JsString} {d : Bytes} (hb : s.files.lookup (dataPath nc cid) = some (.block d))
      (hnew : s.files.lookup (metaPath nc cid) = none) :
      Publishable nc impl given s (metaPath nc cid) (.metadata (metaOf nc cid d))

theorem Publishable.new (h : Publishable nc impl given s p c) : s.files.lookup p = none := by
  cases h <;> assumption

/-- Publishing leaves the other files alone. -/
theorem Publishable.congr (h : Publishable nc impl given s p c)
    (hf : ∀ q, q ≠ tempPath p uuid → s'.files.lookup q = s.files.lookup q) :
    Publishable nc impl given s' p c := by
  cases h with
  | block hg ha hnew => exact .block hg ha ((hf _ dataPath_ne_tempPath).trans hnew)
  | metadata hb hnew =>
    exact .metadata ((hf _ dataPath_ne_tempPath).trans hb) ((hf _ metaPath_ne_tempPath).trans hnew)

/-- A file is published. -/
theorem Whole.rename (h : Whole nc impl given s) (hp : Publishable nc impl given s p c)
    (ht : s.files.lookup (tempPath p uuid) = some c) : Whole nc impl given (rename (tempPath p uuid) p s) := by
  have hl := fun r => rename_lookup (q := p) (r := r) ht
  have hdir := h.dirs _ _ ht
  have hroot : (RawBlockStore.rename (tempPath p uuid) p s).root = s.root := by rw [rename_eq ht]
  have hshards : (RawBlockStore.rename (tempPath p uuid) p s).shards = s.shards := by rw [rename_eq ht]
  have hrenamed : (RawBlockStore.rename (tempPath p uuid) p s).renamed = p :: s.renamed := by rw [rename_eq ht]
  constructor
  · intro cid c' hc
    rw [hl] at hc
    split at hc
    · rename_i hcid
      obtain rfl := Option.some.inj hc
      cases hp with
      | block hg ha hnew =>
        obtain rfl := dataPath_injective hcid
        exact ⟨_, rfl, hg, ha⟩
      | metadata hb hnew => exact absurd hcid dataPath_ne_metaPath
    · rw [if_neg dataPath_ne_tempPath] at hc
      exact h.block cid c' hc
  · intro cid c' hc
    rw [hl] at hc
    split at hc
    · rename_i hcid
      obtain rfl := Option.some.inj hc
      cases hp with
      | block hg ha hnew => exact absurd hcid.symm dataPath_ne_metaPath
      | metadata hb hnew =>
        obtain rfl := metaPath_injective hcid
        refine ⟨_, rfl, ?_⟩
        rw [hl, if_neg dataPath_ne_metaPath, if_neg dataPath_ne_tempPath, hb]
    · rw [if_neg metaPath_ne_tempPath] at hc
      obtain ⟨d, hd, hb⟩ := h.metadata cid c' hc
      refine ⟨d, hd, ?_⟩
      rw [hl, if_neg, if_neg dataPath_ne_tempPath, hb]
      -- the bytes that are there are not published again
      rintro hcid
      rw [hcid, hp.new] at hb
      cases hb
  · intro q c' hq hj
    rw [hl] at hq
    split at hq
    · rename_i hqp
      subst hqp
      cases hp with
      | block hg ha hnew => exact absurd hj not_json_dataPath
      | metadata hb hnew => exact ⟨_, rfl⟩
    · split at hq
      · cases hq
      · exact h.named q c' hq hj
  · intro cid
    rw [hrenamed, List.mem_cons, h.record cid, Store.has, Store.has, hl]
    by_cases hcid : metaPath nc cid = p
    · rw [if_pos hcid]
      exact ⟨fun _ => rfl, fun _ => .inl hcid⟩
    · rw [if_neg hcid, if_neg metaPath_ne_tempPath]
      exact ⟨fun hor => hor.resolve_left hcid, .inr⟩
  · intro q c' hq
    rw [hroot, hshards]
    rw [hl] at hq
    split at hq
    · rename_i hqp
      rw [hqp]
      exact hdir
    · split at hq
      · cases hq
      · exact h.dirs q c' hq

theorem Extends.rename (hp : Publishable nc impl given s p c)
    (ht : s.files.lookup (tempPath p uuid) = some c) : Extends nc s (rename (tempPath p uuid) p s) := by
  have hnew := hp.new
  intro cid c'
  constructor
  · intro hc
    rw [rename_lookup ht, if_neg, if_neg dataPath_ne_tempPath, hc]
    rintro rfl
    rw [hnew] at hc
    cases hc
  · intro hc
    rw [rename_lookup ht, if_neg, if_neg metaPath_ne_tempPath, hc]
    rintro rfl
    rw [hnew] at hc
    cases hc

/-! ## Publishing a file -/

/-- What holds after every file operation of a call that finds the store `s₀`. -/
def Kept (nc : NodeCrypto) (impl : Impl) (given : List (JsString × Bytes)) (s₀ s : Store) : Prop :=
  Whole nc impl given s ∧ Extends nc s₀ s

theorem Kept.write (h : Kept nc impl given s₀ s) (hd : s.root = true ∧ p.shard ∈ s.shards) :
    Kept nc impl given s₀ (write (tempPath p uuid) c s) := by
  have hf : ∀ q, q ≠ tempPath p uuid → (s.files.insert (tempPath p uuid) c).lookup q = s.files.lookup q :=
    fun q hq => AList.lookup_insert_ne hq
  exact ⟨h.1.temp hf hd, h.2.trans (.temp hf)⟩

theorem Kept.unlink (h : Kept nc impl given s₀ s) (hd : s.root = true ∧ p.shard ∈ s.shards) :
    Kept nc impl given s₀ (unlink (tempPath p uuid) s) := by
  have hf : ∀ q, q ≠ tempPath p uuid → (s.files.erase (tempPath p uuid)).lookup q = s.files.lookup q :=
    fun q hq => AList.lookup_erase_ne hq
  exact ⟨h.1.temp hf hd, h.2.trans (.temp hf)⟩

/-- What publishing a file leaves. -/
structure Published (nc : NodeCrypto) (impl : Impl) (given : List (JsString × Bytes)) (s₀ s : Store)
    (p : Path) (c : Content) (uuid : JsString) (s' : Store) : Prop where
  kept : Kept nc impl given s₀ s'
  here : s'.files.lookup p = some c
  others : ∀ q, q ≠ p → q ≠ tempPath p uuid → s'.files.lookup q = s.files.lookup q
  dirs : s'.root = s.root ∧ s'.shards = s.shards

theorem safe_publish (h : Kept nc impl given s₀ s) (hd : s.root = true ∧ p.shard ∈ s.shards)
    (hp : Publishable nc impl given s p c) (hpt : p ≠ tempPath p uuid) :
    (publish p c uuid).Safe (Kept nc impl given s₀)
      (fun r s' => r = .ok () ∧ Published nc impl given s₀ s p c uuid s') s := by
  -- the four stores on the way
  have h₁ : Kept nc impl given s₀ (write (tempPath p uuid) .empty s) := h.write hd
  have h₂ : Kept nc impl given s₀ (write (tempPath p uuid) c (write (tempPath p uuid) .empty s)) := h₁.write hd
  have ht : (write (tempPath p uuid) c (write (tempPath p uuid) .empty s)).files.lookup (tempPath p uuid) =
      some c := by rw [write_lookup, if_pos rfl]
  have hp₂ : Publishable nc impl given (write (tempPath p uuid) c (write (tempPath p uuid) .empty s)) p c :=
    hp.congr fun q hq => by rw [write_lookup, if_neg hq, write_lookup, if_neg hq]
  have h₃ := h₂.1.rename hp₂ ht
  have he₃ := h₂.2.trans (.rename hp₂ ht)
  have hd₃ : (rename (tempPath p uuid) p (write (tempPath p uuid) c (write (tempPath p uuid) .empty s))).root =
      true ∧ p.shard ∈ (rename (tempPath p uuid) p
        (write (tempPath p uuid) c (write (tempPath p uuid) .empty s))).shards := by
    rw [rename_eq ht]
    exact hd
  have h₄ : Kept nc impl given s₀ (unlink (tempPath p uuid) _) := Kept.unlink ⟨h₃, he₃⟩ hd₃
  refine ⟨h, h₁, h₂, ⟨h₃, he₃⟩, h₄, rfl, h₄, ?_, ?_, ?_⟩
  · rw [unlink_lookup, if_neg hpt, rename_lookup ht, if_pos rfl]
  · intro q hq hqt
    rw [unlink_lookup, if_neg hqt, rename_lookup ht, if_neg hq, if_neg hqt, write_lookup, if_neg hqt,
      write_lookup, if_neg hqt]
  · rw [rename_eq ht]
    exact ⟨rfl, rfl⟩

theorem safe_writeSynced (h : Kept nc impl given s₀ s) (hd : s.root = true ∧ p.shard ∈ s.shards)
    (hp : Publishable nc impl given s p c) (hpt : p ≠ tempPath p uuid) :
    (writeSynced p c uuid).Safe (Kept nc impl given s₀)
      (fun r s' => (r = .ok () → Published nc impl given s₀ s p c uuid s') ∧
        (s.has (tempPath p uuid) = false → r = .ok ())) s := by
  show (if s.has (tempPath p uuid) then _ else _ : Prog Unit).Safe _ _ s
  cases ht : s.has (tempPath p uuid) with
  | true =>
    rw [if_pos rfl]
    refine ⟨h, h.unlink hd, ?_⟩
    constructor <;>
    · intro hr
      cases hr
  | false =>
    rw [if_neg (by simp)]
    exact (safe_publish h hd hp hpt).imp (fun _ hE => hE) fun r s' hQ => ⟨fun _ => hQ.2, fun _ => hQ.1⟩

/-! ## Reading -/

theorem admissible_iff : Admissible nc impl cid d ↔
    (d ≠ [] ∧ d.length ≤ maxBlock) ∧ digestOf impl cid = .ok (nc.sha256 d) := by
  unfold Admissible admissible? verifyCid
  simp only [bind_eq_ok, require_eq_ok]
  constructor
  · rintro ⟨-, hsize, digest, hd, rfl⟩
    exact ⟨hsize, hd⟩
  · rintro ⟨hsize, hd⟩
    exact ⟨(), hsize, _, hd, rfl⟩

/-- A digest has 32 bytes. -/
theorem digestOf_length {digest : Bytes} (h : digestOf impl cid = .ok digest) : digest.length = 32 := by
  unfold digestOf at h
  simp only [bind_eq_ok, require_eq_ok] at h
  obtain ⟨_, -, _, -, ⟨_, rest⟩, -, _, hr, hp⟩ := h
  obtain rfl := Except.ok.inj hp
  exact hr.2.2

theorem Impl.readBytes_of_le {n : Nat} (h : d.length ≤ n) : impl.readBytes n d = d := by
  cases impl with
  | python => exact List.take_of_length_le (by omega)
  | kotoba => rfl

theorem Impl.readBytes_of_length {n : Nat} (h : (impl.readBytes n d).length = d.length) :
    impl.readBytes n d = d := by
  cases impl with
  | python =>
    have hlen : (d.take (n + 1)).length = d.length := h
    rw [List.length_take] at hlen
    exact List.take_of_length_le (by omega)
  | kotoba => rfl

/-- A block that is held is read. -/
theorem Held.read {n : Nat} (h : Held nc cid d s) (ha : Admissible nc impl cid d) (hn : d.length ≤ n) :
    read nc impl cid n s = .ok (some d) := by
  obtain ⟨⟨hne, hmax⟩, hdigest⟩ := admissible_iff.mp ha
  have hre : sha256Re (hexdigest (nc.sha256 d)) = true := sha256Re_hexdigest (digestOf_length hdigest)
  have hpos : 1 ≤ d.length := List.length_pos_iff.mpr hne
  unfold RawBlockStore.read
  rw [hdigest, h.1, h.2]
  simp [metaOf, Impl.readBytes_of_le hn, verifyCid, hdigest, require, hre, hpos, hn, bind, Except.bind, pure,
    Except.pure]

/-- What is read is a block that `put` has been given, and hashes to the CID. -/
theorem Whole.read {n : Nat} (h : Whole nc impl given s) (hr : read nc impl cid n s = .ok (some d)) :
    digestOf impl cid = .ok (nc.sha256 d) ∧ (cid, d) ∈ given := by
  unfold RawBlockStore.read at hr
  obtain ⟨digest, hdigest, hr⟩ := bind_eq_ok.mp hr
  cases hdata : s.files.lookup (dataPath nc cid) with
  | none =>
    rw [hdata] at hr
    cases hmeta : s.files.lookup (metaPath nc cid) <;>
    · rw [hmeta] at hr
      cases hr
  | some c =>
    obtain ⟨d', rfl, hgiven, ha⟩ := h.block cid c hdata
    rw [hdata] at hr
    cases hmeta : s.files.lookup (metaPath nc cid) with
    | none =>
      rw [hmeta] at hr
      cases hr
    | some m =>
      obtain ⟨d'', rfl, hd''⟩ := h.metadata cid m hmeta
      rw [hmeta] at hr
      rw [hdata] at hd''
      obtain rfl := Content.block.inj (Option.some.inj hd'')
      simp only [bind_eq_ok, require_eq_ok] at hr
      obtain ⟨-, -, -, hlen, -, -, hd⟩ := hr
      obtain rfl := Option.some.inj (Except.ok.inj hd)
      rw [Impl.readBytes_of_length hlen.1]
      exact ⟨(admissible_iff.mp ha).2, hgiven⟩

/-! ## `put` -/

/-- The temporary files of a call are new. -/
def Fresh (nc : NodeCrypto) (cid uuid₁ uuid₂ : JsString) (s : Store) : Prop :=
  s.has (tempPath (dataPath nc cid) uuid₁) = false ∧ s.has (tempPath (metaPath nc cid) uuid₂) = false

/-- No other block that was given for the CID has the digest of `data`. -/
def NoClash (nc : NodeCrypto) (given : List (JsString × Bytes)) (cid : JsString) (data : Bytes) : Prop :=
  ∀ d, (cid, d) ∈ given → nc.sha256 d = nc.sha256 data → d = data

/-- How a call ends: what it returns from is held, and it returns if nothing clashes. -/
def Ends (nc : NodeCrypto) (given : List (JsString × Bytes)) (cid : JsString) (data : Bytes)
    (uuid₁ uuid₂ : JsString) (s₀ : Store) (r : Except String Unit) (s : Store) : Prop :=
  (r = .ok () → Held nc cid data s) ∧
    (Fresh nc cid uuid₁ uuid₂ s₀ → NoClash nc given cid data → r = .ok ())

theorem Store.has_eq_false : s.has p = false ↔ s.files.lookup p = none := Option.isSome_eq_false_iff.trans Option.isNone_iff_eq_none

theorem safe_metadata (h : Kept nc impl given s₀ s) (hd : s.root = true ∧ shardOf nc cid ∈ s.shards)
    (hb : s.files.lookup (dataPath nc cid) = some (.block data))
    (hm : s.files.lookup (metaPath nc cid) = none) :
    (writeSynced (metaPath nc cid) (.metadata (metaOf nc cid data)) uuid₂).Safe (Kept nc impl given s₀)
      (fun r s' => (r = .ok () → Held nc cid data s') ∧
        (s.has (tempPath (metaPath nc cid) uuid₂) = false → r = .ok ())) s := by
  refine (safe_writeSynced h hd (.metadata hb hm) metaPath_ne_tempPath).imp (fun _ hE => hE) ?_
  intro r s' hQ
  refine ⟨fun hr => ?_, hQ.2⟩
  have hpub := hQ.1 hr
  exact ⟨(hpub.others _ dataPath_ne_metaPath dataPath_ne_tempPath).trans hb, hpub.here⟩

theorem safe_publishBoth (h : Whole nc impl given s) (hg : (cid, data) ∈ given)
    (ha : Admissible nc impl cid data) (hm : s.files.lookup (metaPath nc cid) = none)
    (hb : s.has (dataPath nc cid) = true → s.files.lookup (dataPath nc cid) = some (.block data)) :
    (publishBoth nc cid data uuid₁ uuid₂).Safe (Kept nc impl given s)
      (Ends nc given cid data uuid₁ uuid₂ s) s := by
  have hk : Kept nc impl given s s := ⟨h, .refl⟩
  have hk₁ : Kept nc impl given s (mkRoot s) := ⟨h.dirs_made true s.shards (fun _ => rfl) (fun _ => id), hk.2⟩
  -- both directories
  have hshards : ∀ d ∈ s.shards, d ∈ (mkShard (shardOf nc cid) s).shards := by
    intro d hd
    show d ∈ (if _ then _ else _ : List JsString)
    split
    · exact hd
    · exact .tail _ hd
  have hk₂ : Kept nc impl given s (mkShard (shardOf nc cid) (mkRoot s)) :=
    ⟨h.dirs_made true (mkShard (shardOf nc cid) s).shards (fun _ => rfl) hshards, hk.2⟩
  have hd₂ : (mkShard (shardOf nc cid) (mkRoot s)).root = true ∧
      shardOf nc cid ∈ (mkShard (shardOf nc cid) (mkRoot s)).shards := by
    refine ⟨rfl, ?_⟩
    show shardOf nc cid ∈ (if s.shards.contains _ then _ else _ : List JsString)
    split
    · rename_i hc
      exact List.contains_iff_mem.mp hc
    · exact .head _
  refine ⟨hk, hk₁, ?_⟩
  show (if (mkShard (shardOf nc cid) (mkRoot s)).has (dataPath nc cid) then _ else _ : Prog Unit).Safe _ _ _
  cases hdata : (mkShard (shardOf nc cid) (mkRoot s)).has (dataPath nc cid) with
  | true =>
    rw [if_pos rfl]
    exact (safe_metadata hk₂ hd₂ (hb hdata) hm).imp (fun _ hE => hE)
      fun r s' hQ => ⟨hQ.1, fun hf _ => hQ.2 hf.2⟩
  | false =>
    rw [if_neg (by simp)]
    have hpub : Publishable nc impl given (mkShard (shardOf nc cid) (mkRoot s)) (dataPath nc cid) (.block data) :=
      .block hg ha (Store.has_eq_false.mp hdata)
    have hwrite : (writeSynced (dataPath nc cid) (.block data) uuid₁).Safe _ _ _ :=
      safe_writeSynced hk₂ hd₂ hpub dataPath_ne_tempPath
    refine hwrite.bind ?_ ?_
    · intro e s' hP
      exact ⟨fun hr => (by cases hr), fun hf _ => absurd (hP.2 hf.1) (by simp)⟩
    · intro _ s' _ hP
      obtain ⟨hk', hhere, hothers, hroot, hsh⟩ := hP.1 rfl
      have hd' : s'.root = true ∧ shardOf nc cid ∈ s'.shards := by
        rw [hroot, hsh]
        exact hd₂
      have hm' : s'.files.lookup (metaPath nc cid) = none :=
        (hothers _ dataPath_ne_metaPath.symm metaPath_ne_tempPath).trans hm
      refine (safe_metadata hk' hd' hhere hm').imp (fun _ hE => hE) ?_
      rintro r s'' ⟨hheld, hok⟩
      refine ⟨hheld, fun hf _ => hok ?_⟩
      -- the first temporary file is not the second
      rw [Store.has, hothers _ dataPath_ne_tempPath.symm tempPath_meta_ne]
      exact hf.2

theorem safe_store (h : Whole nc impl given s) (hg : (cid, data) ∈ given) (ha : Admissible nc impl cid data) :
    (store nc impl cid data uuid₁ uuid₂).Safe (Kept nc impl given s) (Ends nc given cid data uuid₁ uuid₂ s) s := by
  have hk : Kept nc impl given s s := ⟨h, .refl⟩
  obtain ⟨⟨-, hmax⟩, hdigest⟩ := admissible_iff.mp ha
  -- what is there for the CID does not clash
  have hsame : ∀ d, s.files.lookup (dataPath nc cid) = some (.block d) → NoClash nc given cid data → d = data := by
    intro d hd hclash
    obtain ⟨d', hd', hgiven, ha'⟩ := h.block cid _ hd
    obtain rfl := Content.block.inj hd'
    refine hclash d hgiven ?_
    have := (admissible_iff.mp ha').2
    rw [hdigest] at this
    exact (Except.ok.inj this).symm
  show (if s.has (metaPath nc cid) then _ else _ : Prog Unit).Safe _ _ s
  cases hmeta : s.files.lookup (metaPath nc cid) with
  | some m =>
    rw [if_pos (by rw [Store.has, hmeta]; rfl)]
    obtain ⟨d, rfl, hd⟩ := h.metadata cid m hmeta
    obtain ⟨d', hd', -, ha'⟩ := h.block cid _ hd
    obtain rfl := Content.block.inj hd'
    have hheld : Held nc cid d s := ⟨hd, hmeta⟩
    rw [hheld.read ha' (admissible_iff.mp ha').1.2]
    show (if some d = some data then _ else _ : Prog Unit).Safe _ _ s
    split
    · rename_i hdd
      obtain rfl := Option.some.inj hdd
      exact ⟨hk, fun _ => hheld, fun _ _ => rfl⟩
    · rename_i hdd
      exact ⟨hk, fun hr => (by cases hr), fun _ hclash => absurd (congrArg some (hsame d hd hclash)) hdd⟩
  | none =>
    rw [if_neg (by rw [Store.has, hmeta]; simp)]
    split
    · rename_i hother
      refine ⟨hk, fun hr => (by cases hr), fun _ hclash => ?_⟩
      obtain ⟨c, hc⟩ := Option.isSome_iff_exists.mp hother.1
      obtain ⟨d, rfl, -, -⟩ := h.block cid c hc
      rw [hsame d hc hclash] at hc
      exact absurd hc hother.2
    · rename_i hother
      exact safe_publishBoth h hg ha hmeta fun hb => not_not.mp fun hne => hother ⟨hb, hne⟩

/-- **A call of `put`** keeps the files whole after each of its operations, and holds the
block if it returns. -/
theorem safe_put (h : Whole nc impl given s) (hg : (cid, data) ∈ given) :
    (put nc impl cid data uuid₁ uuid₂).Safe (Kept nc impl given s)
      (fun r s' => (r = .ok () → Admissible nc impl cid data) ∧
        (Admissible nc impl cid data → Ends nc given cid data uuid₁ uuid₂ s r s')) s := by
  unfold put
  cases ha : admissible? nc impl cid data with
  | error e =>
    refine ⟨⟨h, .refl⟩, fun hr => (by cases hr), fun hadm => ?_⟩
    rw [Admissible, ha] at hadm
    cases hadm
  | ok u =>
    have hadm : Admissible nc impl cid data := ha
    exact (safe_store h hg hadm).imp (fun _ hE => hE) fun r s' hQ => ⟨fun _ => hadm, fun _ => hQ⟩

/-! ## Listing -/

theorem cidRe_of_digestOf {digest : Bytes} (h : digestOf impl cid = .ok digest) : cidRe cid = true := by
  unfold digestOf multihash at h
  obtain ⟨encoded, he, -⟩ := bind_eq_ok.mp h
  split at he
  · rename_i hv
    rw [cidRe, hv]
    rfl
  · split at he
    · rename_i hv
      rw [cidRe, hv, Bool.or_true]
    · cases he

/-- `.tmp` is nowhere in the name of a metadata file. -/
theorem not_tmp_metaPath (h : cidRe cid = true) : (cid ++ js ".json").tails.any (js ".tmp").isPrefixOf = false := by
  rw [List.any_eq_false]
  intro t ht hp
  obtain ⟨k, hk⟩ := (List.mem_tails _ _).mp ht
  have hpre : js ".tmp" <+: t := List.isPrefixOf_iff_prefix.mp hp
  obtain ⟨rest, rfl⟩ := hpre
  have hdot := dot_not_mem h
  -- the dot of `.tmp` is the one before `json`
  have hcount : (k ++ (js ".tmp" ++ rest)).count (unit '.') = (cid ++ js ".json").count (unit '.') := by rw [hk]
  rw [List.count_append, List.count_append, List.count_append, List.count_eq_zero.mpr hdot] at hcount
  have h₁ : (js ".tmp").count (unit '.') = 1 := by decide
  have h₂ : (js ".json").count (unit '.') = 1 := by decide
  have hk₀ : unit '.' ∉ k := List.count_eq_zero.mp (by omega)
  have hlen : k.length = cid.length := by
    have := congrArg (List.idxOf (unit '.')) hk
    have htmp : js ".tmp" ++ rest = unit '.' :: (js "tmp" ++ rest) := rfl
    have hjson : js ".json" = unit '.' :: js "json" := rfl
    rw [List.idxOf_append_of_notMem hk₀, List.idxOf_append_of_notMem hdot, htmp, hjson,
      List.idxOf_cons_self, List.idxOf_cons_self] at this
    exact this
  have htail := (List.append_inj hk hlen).2
  have h₃ := congrArg (fun l : JsString => l[1]?) htail
  rw [List.getElem?_append_left (by decide)] at h₃
  revert h₃
  decide

theorem listed_metaPath (h : cidRe cid = true) : impl.listed (metaPath nc cid).name = true := by
  have hs : (js ".json").isSuffixOf (cid ++ js ".json") = true :=
    List.isSuffixOf_iff_suffix.mpr (List.suffix_append ..)
  cases impl with
  | python => exact hs
  | kotoba =>
    show ((js ".json").isSuffixOf (cid ++ js ".json") && !(cid ++ js ".json").tails.any _) = true
    rw [hs, not_tmp_metaPath h]
    rfl

theorem json_of_listed {name : JsString} (h : impl.listed name = true) : js ".json" <:+ name := by
  cases impl with
  | python => exact List.isSuffixOf_iff_suffix.mp h
  | kotoba => exact List.isSuffixOf_iff_suffix.mp (Bool.and_eq_true_iff.mp h).1

theorem stem_metaPath (nc : NodeCrypto) (cid : JsString) : (metaPath nc cid).name.take ((metaPath nc cid).name.length - 5) = cid := by
  show (cid ++ js ".json").take ((cid ++ js ".json").length - 5) = cid
  have hlen : (cid ++ js ".json").length - 5 = cid.length := by
    rw [List.length_append]
    exact Nat.add_sub_cancel ..
  rw [hlen, List.take_left]

/-- **The listing** names the CIDs whose metadata has been published. -/
theorem Whole.cids (h : Whole nc impl given s) :
    ∃ l, cids nc impl s = .ok l ∧ ∀ cid, cid ∈ l ↔ metaPath nc cid ∈ s.renamed := by
  have hmem : ∀ p, p ∈ s.files.keys ↔ ∃ c, s.files.lookup p = some c := fun p =>
    AList.mem_keys.trans (AList.lookup_isSome.symm.trans Option.isSome_iff_exists)
  -- a metadata file that is there is one of a CID
  have hok : ∀ cid c, s.files.lookup (metaPath nc cid) = some c →
      (∃ digest, digestOf impl cid = .ok digest) := by
    intro cid c hc
    obtain ⟨d, -, hd⟩ := h.metadata cid c hc
    obtain ⟨d', -, -, ha⟩ := h.block cid _ hd
    exact ⟨_, (admissible_iff.mp ha).2⟩
  unfold RawBlockStore.cids
  cases hroot : s.root with
  | false =>
    refine ⟨[], rfl, fun cid => ⟨fun hc => (by cases hc), fun hc => ?_⟩⟩
    obtain ⟨c, hc⟩ := Option.isSome_iff_exists.mp ((h.record cid).mp hc)
    have := (h.dirs _ c hc).1
    rw [hroot] at this
    cases this
  | true =>
    rw [if_pos rfl]
    refine ⟨_, mapM_eq_ok.mpr (List.forall₂_map_right_iff (f := fun p : Path => p.name.take (p.name.length - 5)).mpr
      (List.forall₂_same.mpr ?_)), ?_⟩
    · intro p hp
      obtain ⟨hkey, hlisted⟩ := List.mem_filter.mp hp
      obtain ⟨c, hc⟩ := (hmem p).mp hkey
      obtain ⟨cid, rfl⟩ := h.named p c hc (json_of_listed (Bool.and_eq_true_iff.mp hlisted).2)
      obtain ⟨digest, hdigest⟩ := hok cid c hc
      have hstem := stem_metaPath nc cid
      unfold cidOfMeta
      rw [hstem]
      dsimp only
      rw [hdigest]
      simp [require, bind, Except.bind, pure, Except.pure]
    · intro cid
      rw [h.record cid, List.mem_map]
      constructor
      · rintro ⟨p, hp, hstem⟩
        obtain ⟨hkey, hlisted⟩ := List.mem_filter.mp hp
        obtain ⟨c, hc⟩ := (hmem p).mp hkey
        obtain ⟨cid', rfl⟩ := h.named p c hc (json_of_listed (Bool.and_eq_true_iff.mp hlisted).2)
        rw [stem_metaPath] at hstem
        rw [← hstem, Store.has, hc]
        rfl
      · intro hhas
        obtain ⟨c, hc⟩ := Option.isSome_iff_exists.mp hhas
        obtain ⟨digest, hdigest⟩ := hok cid c hc
        refine ⟨metaPath nc cid, List.mem_filter.mpr ⟨(hmem _).mpr ⟨c, hc⟩, ?_⟩, stem_metaPath nc cid⟩
        rw [Bool.and_eq_true_iff]
        exact ⟨List.contains_iff_mem.mpr (h.dirs _ c hc).2, listed_metaPath (cidRe_of_digestOf hdigest)⟩

/-! ## Calls -/

/-- The blocks that calls are given. -/
def givenBy (calls : List Call) : List (JsString × Bytes) := calls.map fun c => (c.cid, c.data)

theorem Call.run_spec {c : Call} (h : Whole nc impl given s) (hg : (c.cid, c.data) ∈ given) :
    Kept nc impl given s (c.run nc impl s).1 ∧ ∀ r, (c.run nc impl s).2 = some r →
      (r = .ok () → Admissible nc impl c.cid c.data) ∧ (Admissible nc impl c.cid c.data →
        Ends nc given c.cid c.data c.uuid₁ c.uuid₂ s r (c.run nc impl s).1) := by
  have hsafe : (put nc impl c.cid c.data c.uuid₁ c.uuid₂).Safe _ _ _ := safe_put h hg
  unfold Call.run
  cases c.kill with
  | some n => exact hsafe.upTo
  | none =>
    refine ⟨hsafe.finish.1, fun r hr => ?_⟩
    obtain rfl := Option.some.inj hr
    exact hsafe.finish.2

/-- A call that has been killed was past its checks. -/
theorem Call.admissible_of_killed {c : Call} (h : (c.run nc impl s).2 = none) :
    Admissible nc impl c.cid c.data := by
  unfold Call.run at h
  cases hk : c.kill with
  | none =>
    rw [hk] at h
    cases h
  | some n =>
    rw [hk] at h
    cases ha : admissible? nc impl c.cid c.data with
    | ok u => exact ha
    | error e =>
      unfold put at h
      rw [ha] at h
      cases n <;> cases h

theorem runs_append {calls calls' : List Call} :
    runs nc impl (calls ++ calls') s = runs nc impl calls' (runs nc impl calls s) := List.foldl_append ..

/-- Calls keep the files whole. -/
theorem kept_runs {calls : List Call} (h : Whole nc impl given s) (hg : ∀ c ∈ calls, (c.cid, c.data) ∈ given) :
    Kept nc impl given s (runs nc impl calls s) := by
  induction calls generalizing s with
  | nil => exact ⟨h, .refl⟩
  | cons c calls ih =>
    have hc := (Call.run_spec (c := c) h (hg c (.head calls))).1
    have hrest := ih hc.1 fun c' hc' => hg c' (.tail c hc')
    exact ⟨hrest.1, hc.2.trans hrest.2⟩

theorem whole_runs (calls : List Call) : Whole nc impl (givenBy calls) (runs nc impl calls .start) :=
  (kept_runs .start fun _ hc => List.mem_map.mpr ⟨_, hc, rfl⟩).1

/-- What holds of the store behind `calls`. -/
structure CrashSafe (nc : NodeCrypto) (impl : Impl) (calls : List Call) : Prop where
  /-- What is read hashes to the CID and was given to a `put` of it. -/
  read : ∀ cid n d, read nc impl cid n (runs nc impl calls .start) = .ok (some d) →
    digestOf impl cid = .ok (nc.sha256 d) ∧ ∃ c ∈ calls, c.cid = cid ∧ c.data = d
  /-- What a `put` has returned from is read ever after. -/
  kept : ∀ pre c post, calls = pre ++ c :: post →
    (c.run nc impl (runs nc impl pre .start)).2 = some (.ok ()) →
    ∀ n, c.data.length ≤ n → RawBlockStore.read nc impl c.cid n (runs nc impl calls .start) = .ok (some c.data)
  /-- A `put` that was killed succeeds when it is made again. -/
  again : ∀ pre c post, calls = pre ++ c :: post → (c.run nc impl (runs nc impl pre .start)).2 = none →
    ∀ uuid₁ uuid₂, Fresh nc c.cid uuid₁ uuid₂ (runs nc impl calls .start) →
    ((Call.mk c.cid c.data uuid₁ uuid₂ none).run nc impl (runs nc impl calls .start)).2 = some (.ok ()) ∧
    ∀ n, c.data.length ≤ n → RawBlockStore.read nc impl c.cid n
      ((Call.mk c.cid c.data uuid₁ uuid₂ none).run nc impl (runs nc impl calls .start)).1 = .ok (some c.data)
  /-- The CIDs listed are those whose metadata has been published. -/
  listed : ∃ l, cids nc impl (runs nc impl calls .start) = .ok l ∧
    ∀ cid, cid ∈ l ↔ metaPath nc cid ∈ (runs nc impl calls .start).renamed

/-- **The raw block store is crash-safe**, in both implementations: after any calls of `put`,
each completed or killed after any of its file operations, if no two of their blocks for
one CID have one digest. -/
theorem crash_safe (nc : NodeCrypto) (impl : Impl) (calls : List Call)
    (hclash : ∀ c ∈ calls, ∀ c' ∈ calls, c.cid = c'.cid → nc.sha256 c.data = nc.sha256 c'.data → c.data = c'.data) :
    CrashSafe nc impl calls where
  read cid n d hr := by
    obtain ⟨hdigest, hgiven⟩ := (whole_runs calls).read hr
    obtain ⟨c, hc, hcd⟩ := List.mem_map.mp hgiven
    obtain ⟨hcid, hd⟩ := Prod.mk.inj hcd
    exact ⟨hdigest, c, hc, hcid, hd⟩
  kept pre c post hcalls hret n hn := by
    have hmem : (c.cid, c.data) ∈ givenBy calls := List.mem_map.mpr ⟨c, by simp [hcalls], rfl⟩
    have hsub : ∀ c' ∈ pre ++ c :: post, (c'.cid, c'.data) ∈ givenBy calls := fun c' hc' =>
      List.mem_map.mpr ⟨c', hcalls ▸ hc', rfl⟩
    -- the store the call finds, and the ones behind it
    have hpre : Whole nc impl (givenBy calls) (runs nc impl pre .start) :=
      (kept_runs .start fun c' hc' => hsub c' (List.mem_append_left _ hc')).1
    obtain ⟨hk, hend⟩ := Call.run_spec hpre hmem
    obtain ⟨hadm, hends⟩ := hend _ hret
    have ha := hadm rfl
    have hlater : ∀ c' ∈ post, (c'.cid, c'.data) ∈ givenBy calls := fun c' hc' =>
      hsub c' (List.mem_append_right _ (.tail c hc'))
    have hpost := kept_runs hk.1 hlater
    have hruns : runs nc impl calls .start = runs nc impl post (c.run nc impl (runs nc impl pre .start)).1 := by
      rw [hcalls, runs_append]
      rfl
    rw [hruns]
    exact (((hends ha).1 rfl).mono hpost.2).read ha hn
  again pre c post hcalls hkilled uuid₁ uuid₂ hfresh := by
    have hc : c ∈ calls := by simp [hcalls]
    have hmem : (c.cid, c.data) ∈ givenBy calls := List.mem_map.mpr ⟨c, hc, rfl⟩
    have ha : Admissible nc impl c.cid c.data := Call.admissible_of_killed hkilled
    have hno : NoClash nc (givenBy calls) c.cid c.data := by
      intro d hd hsha
      obtain ⟨c', hc', hcd⟩ := List.mem_map.mp hd
      obtain ⟨hcid, rfl⟩ := Prod.mk.inj hcd
      exact hclash c' hc' c hc hcid hsha
    obtain ⟨-, hend⟩ := Call.run_spec (c := ⟨c.cid, c.data, uuid₁, uuid₂, none⟩) (whole_runs calls) hmem
    obtain ⟨-, hends⟩ := hend _ rfl
    have hret := (hends ha).2 hfresh hno
    have hheld := (hends ha).1 hret
    exact ⟨congrArg some hret, fun n hn => hheld.read ha hn⟩
  listed := (whole_runs calls).cids

/-! ## A call that is killed and made again -/

namespace Sample

def block : Bytes := [0x61]

/-- The SHA-256 of `block`. -/
def digest : Bytes :=
  [202, 151, 129, 18, 202, 27, 189, 202, 250, 194, 49, 179, 154, 35, 220, 77, 167, 134, 239, 248, 20, 124, 78,
    114, 185, 128, 119, 133, 175, 238, 72, 187]

/-- The raw CID of `block`. -/
def blockCid : JsString := js "bafkreigks6arfsq3xxfpvqrrwonchxcnu6do76auprhhfomao6c273sixm"

/-- The SHA-256 of the text `blockCid`. -/
def cidDigest : Bytes :=
  [139, 3, 245, 55, 135, 181, 112, 206, 100, 215, 85, 31, 186, 153, 59, 140, 19, 157, 121, 70, 146, 57, 15,
    175, 197, 0, 103, 220, 175, 123, 86, 42]

/-- SHA-256 of the two texts that are hashed here. -/
def crypto : NodeCrypto := ⟨fun bs => if bs = block then digest else cidDigest, fun _ _ _ => false⟩

/-- Killed between the temporary file and its rename, and made again. -/
def calls : List Call :=
  [⟨blockCid, block, js "0", js "1", some 4⟩, ⟨blockCid, block, js "2", js "3", none⟩]

end Sample

theorem crash_safe_sample : CrashSafe Sample.crypto .python Sample.calls := by
  refine crash_safe Sample.crypto .python Sample.calls ?_
  simp [Sample.calls]

end RawBlockStore
