import Yataverse.LakeHead.Bundle
import Yataverse.Splitting.Joined

/-!
# What a writer signs

A record is signed as a text with a line for the chain and one for every field. The values stand in it as they are.

- `signedLines`: the lines of `writer-signing-text`.
- `writerSigningText_eq`: the text is these lines.
- **`writerSigningText_binds`**: a text without a newline in a value is that of no other chain, and of no other
  values.
-/

namespace ProofBundle

open Js Splitting

variable {prStr : Json → JsString}

variable (prStr) in
/-- The line of a field. -/
def fieldLine (r : Json) (f : JsString) : JsString := f ++ js "=" ++ textOf prStr (r.get f)

variable (prStr) in
/-- The lines that are signed. -/
def signedLines (chainId r : Json) : List JsString :=
  js "inga/ref-record/v2" :: (js "chain=" ++ textOf prStr chainId) :: writerSignedFields.map (fieldLine prStr r)

/-- Every line ends with a newline, and there is nothing else. -/
theorem writerSigningText_eq (chainId r : Json) :
    writerSigningText prStr chainId r = joined 10 (signedLines prStr chainId r) := by
  have hversion : js "inga/ref-record/v2\n" = js "inga/ref-record/v2" ++ [10] := by decide
  have hfields : (writerSignedFields.flatMap fun f => f ++ js "=" ++ textOf prStr (r.get f) ++ js "\n") =
      joined 10 (writerSignedFields.map (fieldLine prStr r)) := by
    rw [joined, List.flatMap_map]
    rfl
  rw [writerSigningText, hfields, signedLines, joined_cons, joined_cons, hversion]
  simp only [List.append_assoc, List.singleton_append, List.cons_append]
  rfl

/-- No name of a field has a newline. -/
theorem newline_notMem_fields : ∀ f ∈ writerSignedFields, 10 ∉ f := by decide

theorem newline_notMem_fieldLine {r : Json} {f : JsString} (hf : f ∈ writerSignedFields)
    (hr : 10 ∉ textOf prStr (r.get f)) : 10 ∉ fieldLine prStr r f := by
  have heq : 10 ∉ js "=" := by decide
  simp only [fieldLine, List.mem_append, not_or]
  exact ⟨⟨newline_notMem_fields f hf, heq⟩, hr⟩

/-- Lines without a newline in their values. -/
theorem newline_notMem_signedLines {chainId : JsString} {r : Json} (hchain : 10 ∉ chainId)
    (hr : ∀ f ∈ writerSignedFields, 10 ∉ textOf prStr (r.get f)) : ∀ line ∈ signedLines prStr (.str chainId) r, 10 ∉ line := by
  intro line hline
  rcases List.mem_cons.mp hline with rfl | hline
  · decide
  rcases List.mem_cons.mp hline with rfl | hline
  · have hname : 10 ∉ js "chain=" := by decide
    exact fun h => (List.mem_append.mp h).elim hname hchain
  · obtain ⟨f, hf, rfl⟩ := List.mem_map.mp hline
    exact newline_notMem_fieldLine hf (hr f hf)

/-- **A signature binds its record**: whatever the other record has for values, if its text is that of a record
without a newline in a value, then the chains are the same, and every field has the same text. -/
theorem writerSigningText_binds (prStr : Json → JsString) {chainId chainId' : JsString} {r r' : Json}
    (hchain : 10 ∉ chainId) (hr : ∀ f ∈ writerSignedFields, 10 ∉ textOf prStr (r.get f))
    (h : writerSigningText prStr (.str chainId) r = writerSigningText prStr (.str chainId') r') :
    chainId = chainId' ∧ ∀ f ∈ writerSignedFields, textOf prStr (r.get f) = textOf prStr (r'.get f) := by
  rw [writerSigningText_eq, writerSigningText_eq] at h
  have hlen : (signedLines prStr (.str chainId) r).length = (signedLines prStr (.str chainId') r').length := rfl
  have hlines := eq_of_joined (newline_notMem_signedLines hchain hr) hlen h
  obtain ⟨hc, hfields⟩ := List.cons.inj (List.cons.inj hlines).2
  refine ⟨List.append_cancel_left hc, fun f hf => ?_⟩
  exact List.append_cancel_left (List.map_inj_left.mp hfields f hf)

namespace Sample

/-- A record, and one whose sequence number is a text. -/
def record (seq : Json) : Json :=
  .obj [(js "cid", .str (js "b")), (js "ref", .str (js "yataverse/lake")), (js "seq", seq)]

end Sample

theorem writerSigningText_binds_sample : js "c" = js "c" ∧ ∀ f ∈ writerSignedFields,
    textOf (fun _ => []) ((Sample.record (.num (.int 3))).get f) = textOf (fun _ => []) ((Sample.record (.str (js "3"))).get f) :=
  writerSigningText_binds (fun _ => []) (by decide) (by decide +kernel) (by decide +kernel)

end ProofBundle
