import Yataverse.GraphHead.VerifyHead

/-!
# The decision of a compare-and-set

The pure part of `yataverse_writer.cljk`.

- `decide`: what to do with a head, given the head the caller expects and the document
  that inga is believed to hold.
- `validExpected`: what a caller may send as the expected head.
- `decide_commit`, `decide_submit`: what each decision says about the document.
-/

namespace Writer

open Js GraphHead

/-- `head-key`. -/
def headKey (h : Json) : Json :=
  if h.truthy then
    .obj [(js "sequence", h.get (js "sequence")), (js "value", h.get (js "value"))]
  else .null

/-- The head is current already, or the next document has this sequence number. -/
inductive Action where
  | commit
  | submit (seq : Number)
deriving DecidableEq

/-- `expected` names the head: its sequence, and its value when one is given. -/
def Names (expected head : Json) : Prop :=
  expected.get (js "sequence") = head.get (js "sequence") ∧
    (expected.contains (js "value") = true →
      expected.get (js "value") = head.get (js "value"))

instance (expected head : Json) : Decidable (Names expected head) :=
  inferInstanceAs (Decidable (_ ∧ (_ → _)))

/-- `decide`, with `null` for a missing document. -/
def decide (expected head currentDoc : Json) : Except Err Action :=
  let cur := currentDoc.get (js "head")
  if cur.truthy ∧ headKey cur = headKey head then .ok .commit
  else if ¬ ((expected = .null ∧ cur = .null) ∨
      (expected.truthy ∧ cur.truthy ∧ Names expected cur)) then
    .error (.conflict (headKey cur))
  else if cur.truthy ∧
      (head.get (js "sequence")).lt (.num (cur.get (js "sequence")).inc) then
    .error (.refused (js "head sequence " ++ strOf (head.get (js "sequence")) ++
      js " does not advance past " ++ strOf (cur.get (js "sequence"))))
  else if currentDoc = .null then .ok (.submit (.int 0))
  else .ok (.submit (currentDoc.get (js "seq")).inc)

/-- `valid-expected?`. -/
def validExpected (e : Json) : Bool :=
  e = .null ||
    (e.isObj && e.contains (js "sequence") &&
      e.keys.all (fun k => k = js "sequence" || k = js "value") &&
      (e.get (js "sequence")).int?.isSome)

/-! ## What a decision says -/

section Spec

variable {expected head doc h h' : Json} {seq : Number}

/-- A head with the key of another one has its sequence and value. -/
theorem headKey_eq (ht : h.truthy = true) (he : headKey h = headKey h') :
    h.get (js "sequence") = h'.get (js "sequence") ∧
      h.get (js "value") = h'.get (js "value") := by
  rw [headKey, if_pos ht, headKey] at he
  split at he
  · simpa using he
  · cases he

theorem decide_commit : decide expected head doc = .ok .commit ↔
    (doc.get (js "head")).truthy = true ∧ headKey (doc.get (js "head")) = headKey head := by
  simp only [Writer.decide]
  split_ifs <;> simp_all

/-- A submission follows a document whose head the caller named and the new head
advances, or it opens the log. -/
theorem decide_submit (h : decide expected head doc = .ok (.submit seq)) :
    (expected = .null ∧ doc.get (js "head") = .null ∧ doc = .null ∧ seq = .int 0) ∨
    (expected = .null ∧ doc.get (js "head") = .null ∧ doc ≠ .null) ∨
    (expected.truthy = true ∧ (doc.get (js "head")).truthy = true ∧
      Names expected (doc.get (js "head")) ∧
      (head.get (js "sequence")).lt (.num ((doc.get (js "head")).get (js "sequence")).inc) = false ∧
      seq = (doc.get (js "seq")).inc) := by
  simp only [Writer.decide] at h
  split_ifs at h with h₁ h₂ h₃ h₄
  · cases h
  · cases h
    rcases h₂ with h₂ | ⟨-, h₂, -⟩
    · exact .inl ⟨h₂.1, h₂.2, h₄, rfl⟩
    · rw [h₄] at h₂
      cases h₂
  · cases h
    rcases h₂ with h₂ | ⟨he, hc, hn⟩
    · exact .inr (.inl ⟨h₂.1, h₂.2, h₄⟩)
    · refine .inr (.inr ⟨he, hc, hn, ?_, rfl⟩)
      simpa [hc] using h₃

/-- An advance between natural sequence numbers below `2 ^ 53` is a growth. -/
theorem lt_of_not_lt_inc {m n : Nat} (hm : m < 2 ^ 53)
    (h : (Json.num (.int n)).lt (.num (Json.num (.int m)).inc) = false) : m < n := by
  have hinc : (Json.num (.int m)).inc = .int (m + 1) := by
    show Number.ofInt (m + 1) = _
    exact Number.ofInt_exact (by omega)
  rw [hinc] at h
  have h : Decidable.decide ((n : Int) < m + 1) = false := h
  simp only [decide_eq_false_iff_not] at h
  omega

end Spec

end Writer
