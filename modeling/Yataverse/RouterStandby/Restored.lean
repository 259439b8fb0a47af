import Yataverse.RouterStandby.Check

/-!
# The old mapping after a failed replacement

The old mapping is deleted first, and the router is asked whether it is gone. Only what comes behind that is rolled
back.

- `Removed`: the listing behind the deletion shows no mapping.
- `replaceMapping_fails`: what a replacement that fails has sent.
- **`setMapping_puts_back_iff`**: a call that fails behind the deletion puts the old mapping back exactly where the
  old one was seen to be gone.
-/

namespace RouterStandby

open Fallible

variable {router : Router} {target current e : String} {sent sent' : List Command} {α β : Type}

/-- The listing behind the deletion can be read and has no mapping. -/
def Removed (router : Router) (sent : List Command) : Prop :=
  ∃ listing, router (sent ++ [.delete, .list]) = .ok listing ∧ routerMapping listing = .ok none

/-! ## What is sent -/

/-- One program after the other. -/
theorem sending_bind (m : Sending α) (f : α → Sending β) (sent : List Command) :
    (m >>= f) sent = match m sent with
      | (.ok a, sent) => f a sent
      | (.error e, sent) => (.error e, sent) := by
  simp only [bind, ExceptT.bind, ExceptT.mk, StateT.bind, ExceptT.bindCont]
  rcases m sent with ⟨_ | a, sent⟩ <;> rfl

theorem currentMapping_eq (router : Router) (sent : List Command) :
    currentMapping router sent = (router (sent ++ [.list]) >>= routerMapping, sent ++ [.list]) := by
  rw [currentMapping, sending_bind, command]
  cases router (sent ++ [.list]) <;> rfl

/-- A mapping that cannot be added has been sent. -/
theorem addMapping_fails (h : addMapping router target sent = (.error e, sent')) :
    ∃ after, sent' = sent ++ .add target :: after := by
  rw [addMapping, sending_bind, command] at h
  cases hadd : router (sent ++ [.add target]) with
  | error _ =>
    rw [hadd] at h
    exact ⟨[], (Prod.mk.inj h).2.symm⟩
  | ok _ =>
    rw [hadd] at h
    dsimp only at h
    rw [sending_bind, currentMapping_eq, List.append_assoc] at h
    refine ⟨[.list], ?_⟩
    cases hlist : router (sent ++ ([.add target] ++ [.list])) >>= routerMapping with
    | error _ =>
      rw [hlist] at h
      exact (Prod.mk.inj h).2.symm
    | ok mapping =>
      rw [hlist] at h
      dsimp only at h
      split_ifs at h
      · exact (Prod.mk.inj h).2.symm
      · cases (Prod.mk.inj h).1

/-- A replacement that fails puts the old mapping back at its end. -/
theorem replaceMapping_fails (hne : current ≠ target)
    (h : replaceMapping router target (some current) sent = (.error e, sent')) :
    ∃ after, sent' = sent ++ after ++ [.add current] := by
  have hfilter : (some current).toList.filter (fun m => m ≠ target) = [current] :=
    List.filter_eq_self.mpr fun m hm => decide_eq_true (List.mem_singleton.mp hm ▸ hne)
  have hcatch : replaceMapping router target (some current) sent =
      match addMapping router target sent with
      | (.ok u, sent₁) => (.ok u, sent₁)
      | (.error e, sent₁) => (.error e, sent₁ ++ [.add current]) := by
    unfold replaceMapping putBack
    rw [hfilter]
    simp only [tryCatch, tryCatchThe, MonadExceptOf.tryCatch, ExceptT.tryCatch, ExceptT.mk, bind, StateT.bind]
    rcases addMapping router target sent with ⟨_ | u, sent₁⟩ <;> rfl
  rcases hadd : addMapping router target sent with ⟨e' | u, sent₁⟩
  · obtain ⟨after, rfl⟩ := addMapping_fails hadd
    rw [hcatch, hadd] at h
    exact ⟨.add target :: after, (Prod.mk.inj h).2.symm⟩
  · rw [hcatch, hadd] at h
    cases (Prod.mk.inj h).1

/-! ## Behind the deletion -/

/-- A call that deletes the old mapping. -/
theorem setMapping_eq (hne : current ≠ target) {out : Listing} (hdeleted : router (sent ++ [.delete]) = .ok out) :
    setMapping router target (some current) sent =
      match router (sent ++ [.delete, .list]) >>= routerMapping with
      | .ok none => replaceMapping router target (some current) (sent ++ [.delete, .list])
      | .ok (some _) => (.error "router refused to remove old HTTPS mapping", sent ++ [.delete, .list])
      | .error e => (.error e, sent ++ [.delete, .list]) := by
  have hsent : sent ++ [.delete] ++ [.list] = sent ++ [.delete, .list] := List.append_assoc ..
  have hcond : (some current).isSome ∧ some current ≠ some target := ⟨rfl, fun h => hne (Option.some.inj h)⟩
  rw [setMapping, if_pos hcond, sending_bind, command, hdeleted]
  dsimp only
  rw [sending_bind, currentMapping_eq, hsent]
  generalize router (sent ++ [.delete, .list]) >>= routerMapping = mapping
  rcases mapping with _ | _ | _ <;> rfl

/-- **The old mapping is put back** by a call that fails behind the deletion, exactly if the router showed that the
old mapping was gone. -/
theorem setMapping_puts_back_iff (router : Router) (target current : String) (sent sent' : List Command) (e : String)
    (hne : current ≠ target) (hdeleted : ∃ out, router (sent ++ [.delete]) = .ok out)
    (h : setMapping router target (some current) sent = (.error e, sent')) :
    (∃ after, sent' = sent ++ .delete :: after ∧ .add current ∈ after) ↔ Removed router sent := by
  obtain ⟨out, hdeleted⟩ := hdeleted
  rw [setMapping_eq hne hdeleted] at h
  have hlisted : sent' = sent ++ [.delete, .list] → ¬ ∃ after, sent' = sent ++ .delete :: after ∧ .add current ∈ after := by
    rintro rfl ⟨after, heq, hmem⟩
    obtain rfl := (List.cons.inj (List.append_cancel_left heq)).2
    cases List.mem_singleton.mp hmem
  constructor
  · intro hback
    cases hlist : router (sent ++ [.delete, .list]) with
    | error _ =>
      rw [hlist] at h
      exact absurd hback (hlisted (Prod.mk.inj h).2.symm)
    | ok listing =>
      rw [hlist] at h
      change (match routerMapping listing with | .ok none => _ | .ok (some _) => _ | .error e => _) = _ at h
      rcases hmapping : routerMapping listing with _ | _ | m
      · rw [hmapping] at h
        exact absurd hback (hlisted (Prod.mk.inj h).2.symm)
      · exact ⟨listing, hlist, hmapping⟩
      · rw [hmapping] at h
        exact absurd hback (hlisted (Prod.mk.inj h).2.symm)
  · rintro ⟨listing, hlist, hmapping⟩
    have hgone : router (sent ++ [.delete, .list]) >>= routerMapping = .ok none := by
      rw [hlist]
      exact hmapping
    rw [hgone] at h
    obtain ⟨after, rfl⟩ := replaceMapping_fails hne h
    refine ⟨.list :: after ++ [.add current], ?_, List.mem_append_right _ (List.mem_singleton_self _)⟩
    simp only [List.append_assoc, List.cons_append, List.nil_append]

namespace Sample

/-- The listing behind the deletion fails. -/
def deaf : Router
  | [.delete] => .ok ⟨none, []⟩
  | _ => .error "command failed: upnpc"

/-- The new mapping is refused. -/
def stubborn : Router
  | [.delete] => .ok ⟨none, []⟩
  | [.delete, .list] => .ok ⟨some publicIp, []⟩
  | _ => .error "command failed: upnpc"

end Sample

theorem setMapping_puts_back_stubborn :
    (∃ after, [.delete, .list, .add gadIp, .add xavierIp] = [] ++ Command.delete :: after ∧ .add xavierIp ∈ after) ↔
      Removed Sample.stubborn [] :=
  setMapping_puts_back_iff Sample.stubborn gadIp xavierIp [] [.delete, .list, .add gadIp, .add xavierIp]
    "command failed: upnpc" (by decide) ⟨_, rfl⟩ rfl

/-- The old mapping is gone, and the call ends. -/
theorem not_put_back : setMapping Sample.deaf gadIp (some xavierIp) [] =
    (.error "command failed: upnpc", [.delete, .list]) := rfl

end RouterStandby
