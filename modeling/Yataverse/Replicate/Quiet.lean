import Yataverse.Replicate.Kubo

/-!
# What Kubo confirms

What the operations of `Kubo` and `KuboRPC` establish, whatever other processes do meanwhile.
None of them touches a file of the state directory, and the store only grows.

- `Quiet`: the files stay, the store grows.
- `Ends`: how a computation ends, unless a check or a command fails.
- `Safe.seq`: the rule for one computation after the other.
- `Store.Durable`: a row is pinned, or held in the raw store, with its size.
- `Store.Flipped`: a CID is stored in a way in which it was not.
- `Kubo.Sound`, `Unseen`: what is known of the store from the CIDs in `pins`, and from the others.
- **`safe_preflight`**, **`safe_blockSize`**, **`safe_putVerified`**.
-/

namespace Replicate.Batch

open Js GraphHead Lake EventLoop EventLoop.Task

variable {Text α β : Type}

/-! ## Growth -/

section Growth

variable {s s' s'' : Store} {cid : JsString} {data : Bytes}

theorem Store.Grows.refl (s : Store) : s.Grows s := ⟨fun _ h => h, fun _ h => h, fun _ h => h, fun _ _ h => h⟩

theorem Store.Grows.trans (h : s.Grows s') (h' : s'.Grows s'') : s.Grows s'' where
  recursive cid hs := h'.recursive cid (h.recursive cid hs)
  explicit cid hs := h'.explicit cid (h.explicit cid hs)
  pinned cid hs := h'.pinned cid (h.pinned cid hs)
  raw cid data hs := h'.raw cid data (h.raw cid data hs)

theorem Store.pinned_of_explicit (h : s.explicit cid = true) : s.pinned cid = true := by
  rw [Store.pinned, h]
  rfl

/-- What has become less was less before. -/
theorem Store.Grows.not_explicit (h : s.Grows s') (hs : s'.explicit cid = false) : s.explicit cid = false := by
  by_contra hne
  rw [h.explicit cid (Bool.eq_true_of_not_eq_false hne)] at hs
  cases hs

theorem Store.Grows.not_pinned (h : s.Grows s') (hs : s'.pinned cid = false) : s.pinned cid = false := by
  by_contra hne
  rw [h.pinned cid (Bool.eq_true_of_not_eq_false hne)] at hs
  cases hs

theorem Store.Grows.raw_none (h : s.Grows s') (hs : s'.raw cid = none) : s.raw cid = none := by
  cases hraw : s.raw cid with
  | none => rfl
  | some data =>
    rw [h.raw cid data hraw] at hs
    cases hs

theorem Store.Grows.of_pins {f : PinKind → JsString → Bool} (h : ∀ kind cid, s.pins kind cid = true → f kind cid = true) :
    s.Grows { s with pins := f } where
  recursive cid hs := h _ cid hs
  explicit cid hs := by
    simp only [Store.explicit, Bool.or_eq_true] at hs ⊢
    exact hs.imp (h _ cid) (h _ cid)
  pinned cid hs := by
    simp only [Store.pinned, Store.explicit, Bool.or_eq_true] at hs ⊢
    exact hs.imp (fun hs => hs.imp (h _ cid) (h _ cid)) (h _ cid)
  raw _ _ hs := hs

theorem Store.grows_pin (s : Store) (cid : JsString) : s.Grows (s.pin cid) :=
  .of_pins fun kind c hs => by rw [hs, Bool.or_true]

theorem Store.explicit_pin (s : Store) (cid : JsString) : (s.pin cid).explicit cid = true := by
  have hpin : (s.pin cid).pins .direct cid = true := by
    rw [Store.pin, Bool.or_eq_true]
    exact .inl (decide_eq_true ⟨rfl, rfl⟩)
  rw [Store.explicit, hpin]
  rfl

theorem Store.grows_putRaw (s : Store) (cid : JsString) (data : Bytes) : s.Grows (s.putRaw cid data) where
  recursive _ hs := hs
  explicit _ hs := hs
  pinned _ hs := hs
  raw c old hs := by
    dsimp only [Store.putRaw]
    by_cases hc : c = cid
    · rw [if_pos hc, hs]
      rfl
    · rw [if_neg hc, hs]

end Growth

/-! ## Quiet computations -/

/-- The files stay as they are, and the store grows. -/
structure Quiet (d d' : Disk Text) : Prop where
  files : d'.files = d.files
  receipts : d'.receipts = d.receipts
  grows : d.store.Grows d'.store

/-- The end of a computation: a result with `Q`, or a refusal, which is that of a failing check
unless `B` holds. -/
def Ends (B : Prop) (Q : α → Disk Text → Prop) : Except Refusal α → Disk Text → Prop
  | .ok a, d => Q a d
  | .error e, _ => e.failing = true ∨ B

section Rules

variable {B : Prop} {t : Proc Text α} {d d' d'' : Disk Text} {P Q : α → Disk Text → Prop}

theorem Quiet.refl (d : Disk Text) : Quiet d d := ⟨rfl, rfl, .refl _⟩

theorem Quiet.trans (h : Quiet d d') (h' : Quiet d' d'') : Quiet d d'' :=
  ⟨h'.files.trans h.files, h'.receipts.trans h.receipts, h.grows.trans h'.grows⟩

theorem Quiet.change {f : Store → Store} (h : d.store.Grows (f d.store)) : Quiet d (d.change f) := ⟨rfl, rfl, h⟩

theorem Ends.mono (hPQ : ∀ a d, P a d → Q a d) {r : Except Refusal α} (h : Ends B P r d) : Ends B Q r d := by
  cases r with
  | ok a => exact hPQ a d h
  | error e => exact h

/-- **One computation after the other.** -/
theorem Safe.seq {W : Disk Text → Disk Text → Prop} (htrans : ∀ d₁ d₂ d₃, W d₁ d₂ → W d₂ d₃ → W d₁ d₃)
    {f : α → Proc Text β} {Q : β → Disk Text → Prop} (h : t.Safe (W d) (Ends B P) d)
    (hf : ∀ a d', W d d' → P a d' → (f a).Safe (W d') (Ends B Q) d') : (t.bind f).Safe (W d) (Ends B Q) d :=
  Safe.chain htrans h (fun _ _ _ he => he) hf

theorem Safe.quiet_seq {f : α → Proc Text β} {Q : β → Disk Text → Prop} (h : t.Safe (Quiet d) (Ends B P) d)
    (hf : ∀ a d', Quiet d d' → P a d' → (f a).Safe (Quiet d') (Ends B Q) d') :
    (t.bind f).Safe (Quiet d) (Ends B Q) d :=
  Safe.seq (W := Quiet) (fun _ _ _ => Quiet.trans) h hf

theorem safe_ret {a : α} (h : Q a d) : (ret a : Proc Text α).Safe (Quiet d) (Ends B Q) d := ⟨.refl d, h⟩

theorem safe_throw {e : Refusal} (h : e.failing = true) : (Task.throw e : Proc Text α).Safe (Quiet d) (Ends B Q) d :=
  ⟨.refl d, .inl h⟩

theorem safe_others : (others : Proc Text Unit).Safe (Quiet d) (Ends B fun _ _ => True) d :=
  ⟨.refl d, fun o => ⟨.refl d, .change (o.grows d.store), trivial⟩⟩

theorem safe_request {q : Query} {e : Refusal} (he : e.failing = true) :
    (request q e : Proc Text Unit).Safe (Quiet d) (Ends B fun _ _ => True) d :=
  Safe.quiet_seq safe_others fun _ _ _ _ => ⟨.refl _, fun (ok : Bool) => by
    cases ok with
    | false => exact safe_throw he
    | true => exact safe_ret trivial⟩

theorem safe_holds {q : Query} : (holds q : Proc Text Bool).Safe (Quiet d) (Ends B fun _ _ => True) d :=
  Safe.quiet_seq safe_others fun _ _ _ _ => ⟨.refl _, fun _ => ⟨.refl _, trivial⟩⟩

theorem safe_stored {f : Store → α} :
    (stored f : Proc Text α).Safe (Quiet d) (Ends B fun a d' => a = f d'.store) d := ⟨.refl d, rfl⟩

theorem safe_check {c : Prop} [Decidable c] {e : Refusal} {Q : Unit → Disk Text → Prop} (he : e.failing = true)
    (hc : c → Q () d) : (check c e : Proc Text Unit).Safe (Quiet d) (Ends B Q) d := by
  rw [check]
  split
  · rename_i h
    exact safe_ret (hc h)
  · exact safe_throw he

end Rules

theorem Client.failing_failed (client : Client) : client.failed.failing = true := by
  cases client <;> rfl

theorem PinError.failing_refusal (error : PinError) (client : Client) (cid : JsString) :
    (error.refusal client cid).failing = true := by
  cases error with
  | kubo protobuf => exact client.failing_failed
  | receipt => rfl

/-! ## What is known of the store -/

/-- A row is pinned, or held in the raw store, with its size. -/
def Store.Durable (blocks : Blocks) (s : Store) (row : Row) : Prop :=
  s.pinned row.cid = true ∧ (blocks.content row.cid).length = row.size ∨
    ∃ data, s.raw row.cid = some data ∧ data.length = row.size

/-- A CID is stored in a way in which it was not. -/
def Store.Flipped (s s' : Store) (cid : JsString) : Prop :=
  s.explicit cid = false ∧ s'.explicit cid = true ∨ s.pinned cid = false ∧ s'.pinned cid = true ∨
    s.raw cid = none ∧ (s'.raw cid).isSome = true

/-- `pins` and `raw_cids` are right. -/
def Kubo.Sound (kubo : Kubo) (s : Store) : Prop :=
  ∀ cid, kubo.pins cid = true → kubo.rawCids cid = true ∨ s.pinned cid = true

/-- `pins` grows, and stays right. -/
structure Kubo.Learns (kubo kubo' : Kubo) (s : Store) : Prop where
  sound : kubo'.Sound s
  keeps : ∀ cid, kubo.pins cid = true → kubo'.pins cid = true

/-- A CID that a call does not find in its `pins`: it was not pinned explicitly at the start `s₀`
of the call. For the command line, if it was pinned it has become an explicit pin by now. -/
structure Unseen (client : Client) (rawStore : Bool) (s₀ s : Store) (cid : JsString) : Prop where
  explicit : s₀.explicit cid = false
  pinned : client = .cli → s₀.pinned cid = false ∨ s.explicit cid = true
  raw : rawStore = true → s₀.raw cid = none

section Known

variable {B : Prop} {blocks : Blocks} {client : Client} {rawStore : Bool} {kubo : Kubo} {s₀ s s' : Store}
  {cid : JsString} {data : Bytes} {row : Row} {d : Disk Text}

theorem Store.Durable.grows (h : s.Durable blocks row) (hg : s.Grows s') : s'.Durable blocks row := by
  rcases h with ⟨hpin, hsize⟩ | ⟨data, hraw, hsize⟩
  · exact .inl ⟨hg.pinned _ hpin, hsize⟩
  · exact .inr ⟨data, hg.raw _ _ hraw, hsize⟩

theorem Store.Flipped.grows (h : s₀.Flipped s cid) (hg : s.Grows s') : s₀.Flipped s' cid := by
  rcases h with ⟨hno, h⟩ | ⟨hno, h⟩ | ⟨hno, h⟩
  · exact .inl ⟨hno, hg.explicit _ h⟩
  · exact .inr (.inl ⟨hno, hg.pinned _ h⟩)
  · obtain ⟨data, hdata⟩ := Option.isSome_iff_exists.mp h
    exact .inr (.inr ⟨hno, by rw [hg.raw _ _ hdata]; rfl⟩)

theorem Kubo.Sound.grows (h : kubo.Sound s) (hg : s.Grows s') : kubo.Sound s' :=
  fun cid hpin => (h cid hpin).imp_right (hg.pinned cid)

theorem Kubo.Learns.not_pin {kubo' : Kubo} (h : kubo.Learns kubo' s) (hcid : kubo'.pins cid = false) :
    kubo.pins cid = false := by
  by_contra hne
  rw [h.keeps cid (Bool.eq_true_of_not_eq_false hne)] at hcid
  cases hcid

theorem Unseen.grows (h : Unseen client rawStore s₀ s cid) (hg : s.Grows s') : Unseen client rawStore s₀ s' cid :=
  ⟨h.explicit, fun hc => (h.pinned hc).imp_right (hg.explicit cid), h.raw⟩

theorem Kubo.Sound.pin (h : kubo.Sound s) (hpin : s.pinned cid = true) : kubo.Learns (kubo.pin cid) s := by
  refine ⟨fun c hc => ?_, fun c hc => Bool.or_eq_true_iff.mpr (.inr hc)⟩
  rcases Bool.or_eq_true_iff.mp hc with hc | hc
  · obtain rfl := of_decide_eq_true hc
    exact .inr hpin
  · exact h c hc

theorem Kubo.Sound.pinRaw (h : kubo.Sound s) : kubo.Learns (kubo.pinRaw cid) s := by
  refine ⟨fun c hc => ?_, fun c hc => Bool.or_eq_true_iff.mpr (.inr hc)⟩
  rcases Bool.or_eq_true_iff.mp hc with hc | hc
  · exact .inl (Bool.or_eq_true_iff.mpr (.inl hc))
  · exact (h c hc).imp_left fun hraw => Bool.or_eq_true_iff.mpr (.inr hraw)

theorem Store.pinned_of_kindOf (h : (s.kindOf cid).isSome = true) : s.pinned cid = true := by
  unfold Store.kindOf at h
  rw [Store.pinned, Store.explicit]
  split at h
  · rename_i hd
    rw [hd]
    rfl
  · split at h
    · rename_i hr
      rw [hr, Bool.or_true]
      rfl
    · split at h
      · rename_i hi
        rw [hi, Bool.or_true]
      · cases h

/-! ## Preflight -/

theorem safe_listPins {kind : PinKind} :
    (listPins kind).Safe (Quiet d) (Ends B fun pins d' => pins = d'.store.pins kind) d :=
  Safe.quiet_seq (safe_request (Client.failing_failed .cli)) fun _ _ _ _ => safe_stored (f := fun s => s.pins kind)

theorem safe_listIndirect : (listIndirect client).Safe (Quiet d) (Ends B fun pins d' =>
    (∀ cid, pins cid = true → d'.store.pins .indirect cid = true) ∧
      (client = .cli → pins = d'.store.pins .indirect)) d := by
  cases client with
  | cli =>
    refine safe_listPins.imp (fun _ h => h) fun r d' h => h.mono ?_
    rintro pins d' rfl
    exact ⟨fun _ h => h, fun _ => rfl⟩
  | rpc => exact safe_ret ⟨fun _ h => (by cases h), fun h => (by cases h)⟩

theorem safe_listRaw : (listRaw rawStore).Safe (Quiet d) (Ends B fun raw d' =>
    rawStore = true → ∀ cid, raw cid = (d'.store.raw cid).isSome) d := by
  cases rawStore with
  | true =>
    refine Safe.quiet_seq (safe_request rfl) fun _ _ _ _ => safe_stored.imp (fun _ h => h) fun r d' h => h.mono ?_
    rintro raw d' rfl _ cid
    rfl
  | false => exact safe_ret fun h => (by cases h)

theorem safe_repoStat : (repoStat : Proc Text (Nat × Nat)).Safe (Quiet d) (Ends B fun _ _ => True) d := by
  refine Safe.quiet_seq safe_others fun _ d' _ _ => ⟨.refl _, fun stat => ?_⟩
  cases stat with
  | failed => exact safe_throw (by rfl)
  | unreadable => exact safe_throw (by rfl)
  | noDirectory => exact safe_throw (by rfl)
  | fields repoSize storageMax => exact safe_ret trivial

theorem safe_samePath : (samePath client : Proc Text Unit).Safe (Quiet d) (Ends B fun _ _ => True) d := by
  cases client with
  | cli => exact safe_ret trivial
  | rpc => exact safe_request rfl

/-- **The pins of a call** are right, and what is not among them was not pinned at its start. -/
theorem safe_preflight : (preflight client rawStore).Safe (Quiet d) (Ends B fun kubo d' =>
    kubo.Sound d'.store ∧ ∀ cid, kubo.pins cid = false → Unseen client rawStore d.store d'.store cid) d := by
  refine Safe.quiet_seq safe_listPins fun direct d₁ h₁ hdirect => ?_
  refine Safe.quiet_seq safe_listPins fun recursive d₂ h₂ hrecursive => ?_
  refine Safe.quiet_seq safe_listIndirect fun indirect d₃ h₃ hindirect => ?_
  refine Safe.quiet_seq safe_listRaw fun raw d₄ h₄ hraw => ?_
  refine Safe.quiet_seq safe_repoStat fun stat d₅ h₅ _ => ?_
  refine Safe.quiet_seq (safe_check (Q := fun _ _ => True) rfl fun _ => trivial) fun _ d₆ h₆ _ => ?_
  refine Safe.quiet_seq safe_samePath fun _ d₇ h₇ _ => ?_
  have h₃₇ := h₄.grows.trans (h₅.grows.trans (h₆.grows.trans h₇.grows))
  have h₁₇ := h₂.grows.trans (h₃.grows.trans h₃₇)
  subst hdirect hrecursive
  refine safe_ret ⟨fun cid hpin => ?_, fun cid hpin => ?_⟩
  · simp only [Bool.or_eq_true] at hpin
    rcases hpin with ((hpin | hpin) | hpin) | hpin
    · refine .inr (h₁₇.pinned cid (Store.pinned_of_explicit ?_))
      rw [Store.explicit, hpin]
      rfl
    · refine .inr ((h₃.grows.trans h₃₇).pinned cid (Store.pinned_of_explicit ?_))
      rw [Store.explicit, hpin, Bool.or_true]
    · refine .inr (h₃₇.pinned cid ?_)
      rw [Store.pinned, hindirect.1 cid hpin, Bool.or_true]
    · exact .inl hpin
  · simp only [Bool.or_eq_false_iff] at hpin
    obtain ⟨⟨⟨hdirect, hrecursive⟩, hnot⟩, hnoraw⟩ := hpin
    -- what is no recursive pin when they are listed was none when the direct pins were
    have hexplicit : d₁.store.explicit cid = false := by
      rw [Store.explicit, hdirect, Bool.false_or]
      by_contra hne
      rw [h₂.grows.recursive cid (Bool.eq_true_of_not_eq_false hne)] at hrecursive
      cases hrecursive
    refine ⟨h₁.grows.not_explicit hexplicit, fun hcli => ?_, fun hstore => ?_⟩
    · by_cases hlate : d₃.store.explicit cid = true
      · exact .inr (h₃₇.explicit cid hlate)
      · rw [hindirect.2 hcli] at hnot
        refine .inl ((h₁.grows.trans (h₂.grows.trans h₃.grows)).not_pinned ?_)
        rw [Store.pinned, hnot, Bool.eq_false_of_not_eq_true hlate]
        rfl
    · rw [hraw hstore, Option.isSome_eq_false_iff, Option.isNone_iff_eq_none] at hnoraw
      exact (h₁.grows.trans (h₂.grows.trans (h₃.grows.trans h₄.grows))).raw_none hnoraw

/-! ## Single blocks -/

/-- What `durable_pin_type` confirms. -/
def Client.Confirms (client : Client) (s : Store) (cid : JsString) : Prop :=
  match client with
  | .cli => s.pinned cid = true
  | .rpc => s.explicit cid = true

theorem Client.Confirms.pinned (h : client.Confirms s cid) : s.pinned cid = true := by
  cases client with
  | cli => exact h
  | rpc => exact Store.pinned_of_explicit h

theorem safe_explicitPin {kind : PinKind} : (explicitPin kind cid).Safe (Quiet d)
    (Ends B fun found d' => found = true → d'.store.pins kind cid = true) d := by
  refine Safe.quiet_seq safe_holds fun ok d₁ _ _ => safe_stored.imp (fun _ h => h) fun r d' h => h.mono ?_
  rintro found d' rfl hfound
  exact (Bool.and_eq_true_iff.mp hfound).2

theorem safe_durablePinType : (durablePinType client cid).Safe (Quiet d)
    (Ends B fun kind d' => kind.isSome = true → client.Confirms d'.store cid) d := by
  cases client with
  | cli =>
    refine Safe.quiet_seq safe_holds fun ok d₁ _ _ => safe_stored.imp (fun _ h => h) fun r d' h => h.mono ?_
    rintro kind d' rfl hkind
    split at hkind
    · exact Store.pinned_of_kindOf hkind
    · cases hkind
  | rpc =>
    refine Safe.quiet_seq safe_explicitPin fun direct d₁ _ hdirect => ?_
    split
    · rename_i hd
      refine safe_ret fun _ => ?_
      change d₁.store.explicit cid = true
      rw [Store.explicit, hdirect hd]
      rfl
    · refine Safe.quiet_seq safe_explicitPin fun recursive d₂ _ hrecursive => safe_ret fun hkind => ?_
      split at hkind
      · rename_i hr
        change d₂.store.explicit cid = true
        rw [Store.explicit, hrecursive hr, Bool.or_true]
      · cases hkind

/-- **The size of a block** that is in `pins`. -/
theorem safe_blockSize (hsound : kubo.Sound d.store) (hpin : kubo.pins cid = true) :
    (blockSize blocks client kubo cid).Safe (Quiet d) (Ends B fun size d' => d'.store.Durable blocks ⟨cid, size⟩) d := by
  rw [blockSize]
  split
  · refine Safe.quiet_seq (safe_request rfl) fun _ d₁ _ _ => ?_
    refine Safe.quiet_seq safe_stored fun found d₂ _ hfound => ?_
    cases found with
    | none => exact safe_throw (by rfl)
    | some data => exact safe_ret (.inr ⟨data, hfound.symm, rfl⟩)
  · rename_i hraw
    refine Safe.quiet_seq (safe_request client.failing_failed) fun _ d₁ h₁ _ => safe_ret (.inl ⟨?_, rfl⟩)
    exact h₁.grows.pinned cid ((hsound cid hpin).resolve_left hraw)

theorem safe_cidFormat : (cidFormat client cid : Proc Text Unit).Safe (Quiet d) (Ends B fun _ _ => True) d := by
  refine Safe.quiet_seq safe_others fun _ d₁ _ _ => ⟨.refl _, fun formatted => ?_⟩
  cases formatted with
  | failed => exact safe_throw client.failing_failed
  | malformed => exact safe_throw (by rfl)
  | unsupported version => exact safe_throw (by rfl)
  | supported => exact safe_ret trivial

theorem safe_rederive : (rederive blocks client cid data : Proc Text Unit).Safe (Quiet d)
    (Ends B fun _ _ => blocks.content cid = data) d := by
  refine Safe.quiet_seq safe_cidFormat fun _ d₁ _ _ => ?_
  refine Safe.quiet_seq (safe_request client.failing_failed) fun _ d₂ _ _ => ?_
  refine Safe.quiet_seq (safe_check (Q := fun _ _ => True) rfl fun _ => trivial) fun _ d₃ _ _ => ?_
  exact Safe.quiet_seq (safe_request client.failing_failed) fun _ d₄ _ _ => safe_check rfl fun h => h

theorem safe_pinAdd : (pinAdd cid : Proc Text (Option PinError)).Safe (Quiet d)
    (Ends B fun failure d' => failure = none → d'.store.explicit cid = true) d := by
  refine Safe.quiet_seq safe_others fun _ d₁ _ _ => ⟨.refl _, fun reply => ?_⟩
  rcases reply with _ | ⟨made, error⟩
  · exact ⟨.refl _, .change (Store.grows_pin _ cid), fun _ => Store.explicit_pin _ cid⟩
  · cases made
    · exact safe_ret fun h => (by cases h)
    · exact ⟨.refl _, .change (Store.grows_pin _ cid), fun h => (by cases h)⟩

theorem safe_rawPut : (rawPut cid data : Proc Text Unit).Safe (Quiet d)
    (Ends B fun _ d' => d'.store.raw cid = some data) d := by
  refine Safe.quiet_seq safe_others fun _ d₁ _ _ => ⟨.refl _, fun outcome => ?_⟩
  have hquiet : Quiet d₁ (d₁.change (Store.putRaw cid data)) := .change (Store.grows_putRaw _ cid data)
  cases outcome with
  | refused message => exact safe_throw (by rfl)
  | lost => exact ⟨.refl _, hquiet, .inl rfl⟩
  | done =>
    refine ⟨.refl _, ?_⟩
    refine Safe.imp (fun d' h => hquiet.trans h) (fun _ _ h => h) (Safe.quiet_seq safe_stored fun found d₂ _ hfound => ?_)
    exact safe_check rfl fun h => hfound.symm.trans h

/-- What a block is stored as when `put_verified` returns. -/
structure Stored (blocks : Blocks) (client : Client) (rawStore : Bool) (s : Store) (cid : JsString) (data : Bytes) :
    Prop where
  content : blocks.content cid = data
  kept : client.Confirms s cid ∨ client = .rpc ∧ rawStore = true ∧ s.raw cid = some data

theorem Stored.durable (h : Stored blocks client rawStore s cid data) : s.Durable blocks ⟨cid, data.length⟩ := by
  rcases h.kept with hpin | ⟨-, -, hraw⟩
  · exact .inl ⟨hpin.pinned, congrArg List.length h.content⟩
  · exact .inr ⟨data, hraw, rfl⟩

/-- A block that is stored anew. -/
theorem Stored.flipped (h : Stored blocks client rawStore s' cid data) (hu : Unseen client rawStore s₀ s cid)
    (hg : s.Grows s') : s₀.Flipped s' cid := by
  rcases h.kept with hpin | ⟨-, hstore, hraw⟩
  · cases client with
    | cli =>
      rcases hu.pinned rfl with hno | hlate
      · exact .inr (.inl ⟨hno, hpin⟩)
      · exact .inl ⟨hu.explicit, hg.explicit cid hlate⟩
    | rpc => exact .inl ⟨hu.explicit, hpin⟩
  · exact .inr (.inr ⟨hu.raw hstore, by rw [hraw]; rfl⟩)

theorem safe_confirmPin (hsound : kubo.Sound d.store) : (confirmPin kubo cid).Safe (Quiet d)
    (Ends B fun kubo' d' => kubo.Learns kubo' d'.store ∧ d'.store.explicit cid = true) d := by
  refine Safe.quiet_seq safe_durablePinType fun kind d₁ h₁ hkind => ?_
  refine Safe.quiet_seq (safe_check (Q := fun _ d' => d'.store.explicit cid = true) rfl hkind) fun _ d₂ h₂ hpin => ?_
  exact safe_ret ⟨((hsound.grows h₁.grows).grows h₂.grows).pin (Store.pinned_of_explicit hpin), hpin⟩

theorem safe_putVerifiedCli (hsound : kubo.Sound d.store) : (putVerifiedCli blocks kubo cid data).Safe (Quiet d)
    (Ends B fun kubo' d' => kubo.Learns kubo' d'.store ∧ Stored blocks .cli rawStore d'.store cid data) d := by
  refine Safe.quiet_seq safe_rederive fun _ d₁ h₁ hcontent => ?_
  refine Safe.quiet_seq safe_pinAdd fun failure d₂ h₂ hpin => ?_
  have hsound₂ := (hsound.grows h₁.grows).grows h₂.grows
  cases failure with
  | none =>
    have hpinned := Store.pinned_of_explicit (hpin rfl)
    exact safe_ret ⟨hsound₂.pin hpinned, hcontent, .inl hpinned⟩
  | some error =>
    refine Safe.quiet_seq safe_durablePinType fun kind d₃ h₃ hkind => ?_
    refine Safe.quiet_seq (safe_check (Q := fun _ d' => d'.store.pinned cid = true)
      (error.failing_refusal .cli cid) hkind) fun _ d₄ h₄ hpinned => ?_
    exact safe_ret ⟨((hsound₂.grows h₃.grows).grows h₄.grows).pin hpinned, hcontent, .inl hpinned⟩

theorem safe_putVerifiedRpc (hsound : kubo.Sound d.store) : (putVerifiedRpc blocks rawStore kubo cid data).Safe (Quiet d)
    (Ends B fun kubo' d' => kubo.Learns kubo' d'.store ∧ Stored blocks .rpc rawStore d'.store cid data) d := by
  have hconfirm : ∀ {d : Disk Text}, kubo.Sound d.store → blocks.content cid = data →
      (confirmPin kubo cid).Safe (Quiet d) (Ends B fun kubo' d' =>
        kubo.Learns kubo' d'.store ∧ Stored blocks .rpc rawStore d'.store cid data) d := by
    intro d hsound hcontent
    refine (safe_confirmPin hsound).imp (fun _ h => h) fun r d' h => h.mono ?_
    exact fun kubo' d' h => ⟨h.1, hcontent, .inl h.2⟩
  refine Safe.quiet_seq safe_rederive fun _ d₁ h₁ hcontent => ?_
  refine Safe.quiet_seq safe_pinAdd fun failure d₂ h₂ _ => ?_
  have hsound₂ := (hsound.grows h₁.grows).grows h₂.grows
  cases failure with
  | none => exact hconfirm hsound₂ hcontent
  | some error =>
    refine Safe.quiet_seq safe_durablePinType fun kind d₃ h₃ _ => ?_
    have hsound₃ := hsound₂.grows h₃.grows
    split
    · exact hconfirm hsound₃ hcontent
    · split
      · rename_i hraw
        refine Safe.quiet_seq safe_rawPut fun _ d₄ h₄ hput => ?_
        exact safe_ret ⟨(hsound₃.grows h₄.grows).pinRaw, hcontent, .inr ⟨rfl, hraw.1, hput⟩⟩
      · exact safe_throw (error.failing_refusal .rpc cid)

/-- **A block that is put** is stored with its bytes. -/
theorem safe_putVerified (hsound : kubo.Sound d.store) :
    (putVerified blocks client rawStore kubo cid data).Safe (Quiet d)
      (Ends B fun kubo' d' => kubo.Learns kubo' d'.store ∧ Stored blocks client rawStore d'.store cid data) d := by
  cases client with
  | cli => exact safe_putVerifiedCli hsound
  | rpc => exact safe_putVerifiedRpc hsound

end Known

end Replicate.Batch
