import Yataverse.ImportCar.Import

/-!
# When an import can be retried

The temporary file of the receipt has a fixed name and is opened exclusively. A call that
stops between the opening and the renaming leaves it behind, and no later call gets past it.

- `Ready`: the checks of a call pass, with an intact CAR and a Kubo that answers correctly.
- `Interrupted`: a call stops with its temporary file open.
- **`retried_iff`**: when a later call completes and leaves its receipt.
-/

namespace ImportCar

open Js GraphHead Lake EventLoop EventLoop.Task Fallible

section Import

variable {sha256 : Bytes → Bytes} {args : Args} {host : Host} {ok : Op → Bool}
  {s : Files} {text : JsString} {part : Nat}

/-! ## The receipt -/

/-- A call stops between the opening of its temporary file and the renaming. -/
def Interrupted (sha256 : Bytes → Bytes) (host : Host) (args : Args) (fate : Fate) : Prop :=
  (∃ result, checked sha256 host args = .ok result) ∧ fate.ok .mkdir = true ∧ fate.ok .openTemp = true ∧
    ¬(fate.ok .write = true ∧ fate.ok .fsync = true ∧ fate.ok .replace = true)

theorem eval_openTemp : openTemp.eval ok s =
    if ok .openTemp = true ∧ s.temp = none then ({ s with temp := some [] }, .ok ()) else (s, .error .os) := by
  rw [openTemp, bind_eq, eval_bind, perform, eval_attempt]
  by_cases h : ok .openTemp = true
  · by_cases hn : s.temp = none <;> simp [h, hn, Task.reads, Task.modify]
  · simp [h]

/-- The operations of a receipt, one after the other: where the call stops, and what it leaves. -/
theorem eval_writeReceipt : (writeReceipt text part).eval ok s =
    if ok .mkdir = true ∧ ok .openTemp = true ∧ s.temp = none then
      if ok .write = true then
        if ok .fsync = true ∧ ok .replace = true then (⟨some text, none⟩, .ok ())
        else ({ s with temp := some text }, .error .os)
      else ({ s with temp := some (text.take part) }, .error .os)
    else (s, .error .os) := by
  rw [writeReceipt, bind_eq, eval_bind, perform, eval_attempt]
  by_cases hm : ok .mkdir = true
  · rw [if_pos hm]
    dsimp only
    rw [bind_eq, eval_bind, eval_openTemp]
    by_cases ho : ok .openTemp = true ∧ s.temp = none
    · rw [if_pos ho, if_pos ⟨hm, ho⟩]
      dsimp only
      rw [bind_eq, eval_bind, write, eval_await]
      by_cases hw : ok .write = true
      · rw [if_pos hw, if_pos hw]
        dsimp only [eval_upd, eval_ret]
        rw [bind_eq, eval_bind, perform, eval_attempt]
        by_cases hf : ok .fsync = true
        · by_cases hr : ok .replace = true <;>
            simp [hf, hr, replace, perform, eval_bind, Task.modify]
        · simp [hf]
      · rw [if_neg hw, if_neg hw]
        rfl
    · rw [if_neg ho, if_neg fun h => ho h.2]
  · rw [if_neg hm, if_neg fun h => hm h.1]

theorem eval_importBatch : (importBatch sha256 host args part).eval ok s =
    match checked sha256 host args with
    | .error e => (s, .error e)
    | .ok result =>
      if args.receipt = true then
        (((writeReceipt (dumps result) part).eval ok s).1,
          ((writeReceipt (dumps result) part).eval ok s).2.map fun _ => result)
      else (s, .ok result) := by
  rw [importBatch]
  cases checked sha256 host args with
  | error e => rfl
  | ok result =>
    dsimp only
    cases args.receipt with
    | false => rfl
    | true =>
      rw [if_pos rfl, if_pos rfl, bind_eq, eval_bind]
      cases ((writeReceipt (dumps result) part).eval ok s).2 <;> rfl

/-- The temporary file is there after a call that was to write a receipt: it was there before, or
the call has been interrupted. -/
theorem temp_run {fate : Fate} (hreceipt : args.receipt = true) :
    (run sha256 host args fate s).1.temp ≠ none ↔ s.temp ≠ none ∨ Interrupted sha256 host args fate := by
  rw [run, eval_importBatch, Interrupted]
  cases checked sha256 host args with
  | error e => simp
  | ok result =>
    dsimp only
    rw [if_pos hreceipt, eval_writeReceipt]
    by_cases hn : s.temp = none
    · by_cases hopen : fate.ok .mkdir = true ∧ fate.ok .openTemp = true
      · by_cases hw : fate.ok .write = true
        · by_cases hf : fate.ok .fsync = true ∧ fate.ok .replace = true <;> simp [hn, hopen, hw, hf]
        · simp [hn, hopen, hw]
      · rw [if_neg fun h => hopen ⟨h.1, h.2.1⟩]
        simp only [hn, ne_eq, not_true, false_or, false_iff]
        rintro ⟨-, hm, ho, -⟩
        exact hopen ⟨hm, ho⟩
    · rw [if_neg fun h => hn h.2.2]
      simp [hn]

/-! ## A call whose checks pass -/

/-- Kubo answers correctly: it imports the CAR, and it gives the root of the record that it is
given, the pin of that root and the record again. -/
structure Answers (host : Host) (args : Args) (car : Bytes) (rows : List Row) : Prop where
  daemon : verifyRepo host = .ok ()
  imports : ∃ out, host.kubo (.dagImport car) = some out
  pins : ∃ out pins got, host.kubo (.dagPut (rootRecord args rows)) = some out ∧ cidRe (strip out) = true ∧
    host.kubo (.pinLs (strip out)) = some pins ∧ strip pins = strip out ++ js " recursive" ∧
    host.kubo (.dagGet (strip out)) = some got ∧ Json.parse got = some (rootRecord args rows)

/-- The checks of a call pass: the CAR is the one the arguments name, the rows are in the
inventory, there is space, and Kubo answers correctly. -/
structure Ready (sha256 : Bytes → Bytes) (host : Host) (args : Args) (car : Bytes) (rows : List Row) : Prop where
  digests : sha256Re args.sha256 = true ∧ sha256Re args.carSha256 = true
  range : 1 ≤ args.maxBlocks ∧ args.maxBlocks ≤ 1000 ∧ 0 ≤ args.startRow ∧ 1 ≤ args.count ∧ 0 ≤ args.minFreeBytes
  binary : host.binary = true
  repository : ∃ path, host.repository = some path
  intact : host.car = some car ∧ 1 ≤ car.length ∧ hexdigest (sha256 car) = args.carSha256
  reserve : args.minFreeBytes ≤ (host.free : Int) - 2 * car.length
  selected : ∃ snapshot inventory last, host.inventory = some snapshot ∧
    Inventory.ofSnapshot snapshot args.sha256 args.count.toNat = .ok inventory ∧
    inventory.rows args.startRow.toNat args.maxBlocks.toNat = .ok (rows, last)
  cids : rows ≠ [] ∧ ∀ row ∈ rows, cidRe row.cid = true
  kubo : Answers host args car rows

variable {car : Bytes} {rows : List Row}

theorem pinned_answers (h : Answers host args car rows) : ∃ root, pinned host args car rows = .ok root := by
  obtain ⟨imported, himport⟩ := h.imports
  obtain ⟨out, pins, got, hput, hcid, hls, hpins, hget, hgot⟩ := h.pins
  refine ⟨strip out, ?_⟩
  simp only [pinned, Host.run, himport, hput, bind_eq_ok]
  exact ⟨_, rfl, _, rfl, (), require_eq_ok.mpr hcid, pins, by rw [hls], (), require_eq_ok.mpr hpins, got,
    by rw [hget], (), by rw [verifiedRoot, hgot]; exact require_eq_ok.mpr rfl, rfl⟩

theorem checked_ready (h : Ready sha256 host args car rows) : ∃ result, checked sha256 host args = .ok result := by
  obtain ⟨path, hpath⟩ := h.repository
  obtain ⟨hcar, hlen, hdigest⟩ := h.intact
  obtain ⟨snapshot, inventory, last, hsnapshot, hopen, hrows⟩ := h.selected
  obtain ⟨root, hroot⟩ := pinned_answers h.kubo
  refine ⟨resultOf args rows root path, ?_⟩
  simp only [checked, hsnapshot, bind_eq_ok]
  exact ⟨(), require_eq_ok.mpr h.digests, (), require_eq_ok.mpr h.range, (), require_eq_ok.mpr h.binary, path,
    by rw [hpath]; rfl, car, by rw [hcar]; rfl, inventory, by rw [hopen]; rfl, (rows, last), by rw [hrows]; rfl, (),
    require_eq_ok.mpr h.cids, (), require_eq_ok.mpr ⟨hlen, hdigest⟩, (), require_eq_ok.mpr h.reserve, (),
    h.kubo.daemon, root, hroot, rfl⟩

/-- **A retry**: after a call, however it has ended, a later call with the same arguments whose
checks pass completes and leaves its receipt, exactly when no receipt is asked for, or there was
no temporary file before the first call and it has not been interrupted. -/
theorem retried_iff (sha256 : Bytes → Bytes) (args : Args) (first : Host) (fate : Fate)
    (s : Files) (host : Host) (car : Bytes) (rows : List Row) (hready : Ready sha256 host args car rows) :
    (∃ result,
      (run sha256 host args .fine (run sha256 first args fate s).1).2 = .ok result ∧
      (args.receipt = true →
        (run sha256 host args .fine (run sha256 first args fate s).1).1.receipt = some (dumps result))) ↔
    args.receipt = false ∨ s.temp = none ∧ ¬Interrupted sha256 first args fate := by
  obtain ⟨result, hresult⟩ := checked_ready hready
  generalize hleft : (run sha256 first args fate s).1 = left
  rw [run, eval_importBatch, hresult]
  dsimp only
  cases hreceipt : args.receipt with
  | false =>
    rw [if_neg Bool.false_ne_true]
    exact ⟨fun _ => .inl rfl, fun _ => ⟨result, rfl, fun h => by cases h⟩⟩
  | true =>
    have htemp := @temp_run sha256 args first s fate hreceipt
    rw [hleft] at htemp
    rw [if_pos rfl, eval_writeReceipt]
    by_cases hn : left.temp = none
    · have hwrite : Fate.fine.ok .write = true := rfl
      have hrest : Fate.fine.ok .fsync = true ∧ Fate.fine.ok .replace = true := ⟨rfl, rfl⟩
      rw [if_pos ⟨rfl, rfl, hn⟩, if_pos hwrite, if_pos hrest]
      refine ⟨fun _ => .inr ?_, fun _ => ⟨result, rfl, fun _ => rfl⟩⟩
      rw [hn] at htemp
      simpa [not_or] using htemp
    · rw [if_neg fun h => hn h.2.2]
      refine ⟨?_, ?_⟩
      · rintro ⟨_, h, -⟩
        cases h
      · rintro (h | ⟨hs, hi⟩)
        · cases h
        · rcases htemp.mp hn with h | h
          · exact absurd hs h
          · exact absurd h hi

end Import

namespace Sample

/-- The SHA2-256 digest of the letter `a`. -/
def digest : Bytes :=
  [0xca, 0x97, 0x81, 0x12, 0xca, 0x1b, 0xbd, 0xca, 0xfa, 0xc2, 0x31, 0xb3, 0x9a, 0x23, 0xdc, 0x4d,
    0xa7, 0x86, 0xef, 0xf8, 0x14, 0x7c, 0x4e, 0x72, 0xb9, 0x80, 0x77, 0x85, 0xaf, 0xee, 0x48, 0xbb]

def sha256 (_ : Bytes) : Bytes := digest

def car : Bytes := [0x61]

def row : Row := ⟨js "QmYwAPJzv5CZsnA625s3Xf2nemtYgPpHdWEz79ojWKPBdG", 1⟩

def pin : JsString := List.replicate 64 (unit 'a')

def root : JsString := js "bafyreigaknpexyvxt76zgkitavbwx6ejgfheup5oybpm77f3pxzrvwpfdi"

def args : Args := ⟨pin, 1, 0, 1, hexdigest digest, 0, true⟩

def record : JsString := js "\x7b\"schema\":1,\"inventory-sha256\":\"" ++ pin ++
  js "\",\"start-row\":0,\"end-row\":1,\"links\":[\x7b\"/\":\"" ++ row.cid ++ js "\"\x7d]\x7d"

def kubo : Kubo → Option JsString
  | .id => some (js "peer\n")
  | .dagImport _ => some []
  | .dagPut _ => some (root ++ js "\n")
  | .pinLs asked => some (asked ++ js " recursive\n")
  | .dagGet _ => some record

def host : Host where
  binary := true
  repository := some (js "/repo")
  car := some car
  inventory := some ⟨pin, [some row]⟩
  free := 2
  config := some (js "\x7b\"Identity\":\x7b\"PeerID\":\"peer\"\x7d\x7d")
  api := some (js "/ip4/127.0.0.1/tcp/5001")
  kubo := kubo

/-- What Kubo prints is the root, its pin and its record. -/
theorem printed : strip (root ++ js "\n") = root ∧ cidRe root = true ∧
    strip (root ++ js " recursive\n") = root ++ js " recursive" ∧ Json.parse record = some (rootRecord args [row]) := by
  decide +kernel

theorem answers : Answers host args car [row] where
  daemon := by decide +kernel
  imports := ⟨[], rfl⟩
  pins := by
    obtain ⟨hstrip, hroot, hpinned, hrecord⟩ := printed
    refine ⟨root ++ js "\n", root ++ js " recursive\n", record, rfl, ?_, ?_, ?_, rfl, hrecord⟩ <;> rw [hstrip]
    · exact hroot
    · rfl
    · exact hpinned

theorem opened : ∃ inventory last, Inventory.ofSnapshot ⟨pin, [some row]⟩ pin 1 = .ok inventory ∧
    inventory.rows 0 1 = .ok ([row], last) :=
  have hopen : Inventory.ofSnapshot ⟨pin, [some row]⟩ pin 1 = .ok ⟨pin, [row], List.nodup_singleton _⟩ := by decide +kernel
  ⟨_, 1, hopen, rfl⟩

theorem ready : Ready sha256 host args car [row] where
  digests := by decide
  range := by decide
  binary := rfl
  repository := ⟨_, rfl⟩
  intact := ⟨rfl, by decide, rfl⟩
  reserve := by decide
  selected := by
    obtain ⟨inventory, last, hopen, hrows⟩ := opened
    exact ⟨_, inventory, last, rfl, hopen, hrows⟩
  cids := by decide
  kubo := answers

/-- A call that is killed while it writes its receipt. -/
def killed : Fate := ⟨(· != .write), 3⟩

end Sample

/-- The CAR is absent at first. -/
theorem retried_iff_absent :
    (∃ result, (run Sample.sha256 Sample.host Sample.args .fine
        (run Sample.sha256 { Sample.host with car := none } Sample.args .fine ⟨none, none⟩).1).2 =
          .ok result ∧
      (Sample.args.receipt = true → (run Sample.sha256 Sample.host Sample.args .fine
        (run Sample.sha256 { Sample.host with car := none } Sample.args .fine
          ⟨none, none⟩).1).1.receipt = some (dumps result))) ↔
    Sample.args.receipt = false ∨ (⟨none, none⟩ : Files).temp = none ∧
      ¬Interrupted Sample.sha256 { Sample.host with car := none } Sample.args .fine :=
  retried_iff Sample.sha256 Sample.args _ .fine ⟨none, none⟩ Sample.host Sample.car [Sample.row]
    Sample.ready

/-- **A kill between the opening and the renaming**: the temporary file stays, and the next call
does not open it. -/
theorem not_retried : ¬ ∀ (sha256 : Bytes → Bytes) (args : Args) (first : Host)
    (fate : Fate) (s : Files) (e : Error) (host : Host) (car : Bytes) (rows : List Row),
    (run sha256 first args fate s).2 = .error e → Ready sha256 host args car rows →
      ∃ result,
        (run sha256 host args .fine (run sha256 first args fate s).1).2 = .ok result ∧
        (args.receipt = true → (run sha256 host args .fine
          (run sha256 first args fate s).1).1.receipt = some (dumps result)) := by
  intro h
  obtain ⟨result, hresult⟩ := checked_ready Sample.ready
  have hrun : run Sample.sha256 Sample.host Sample.args Sample.killed ⟨none, none⟩ =
      (⟨none, some ((dumps result).take 3)⟩, .error .os) := by
    rw [run, eval_importBatch, hresult]
    dsimp only
    rw [eval_writeReceipt]
    rfl
  obtain ⟨result', hok, -⟩ := h Sample.sha256 Sample.args Sample.host Sample.killed ⟨none, none⟩ .os
    Sample.host Sample.car [Sample.row] (by rw [hrun]) Sample.ready
  rw [hrun, run, eval_importBatch, hresult] at hok
  dsimp only at hok
  rw [eval_writeReceipt] at hok
  cases hok

end ImportCar
