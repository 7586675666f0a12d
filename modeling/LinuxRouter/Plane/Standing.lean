import LinuxRouter.Plane.Answers

/-!
# Plane — the addresses the router stands for

Whether `arp_handle_frame` replies to a frame, for any tables and configuration.

* `Plane.standsFor`: the addresses that the router stands for, towards the segment of an interface.
* `arpHandleFrame_silent`: what is not a request sends nothing.
* `stands_for_iff`: the reply is for such an address exactly unless the request is for 0.0.0.0 while an
  interface has no address (`Plane.takesUnset`), or the proxy answers for the requester's own segment
  (`Plane.answersBack`).

The test of the code for an own address is a comparison with the address of every interface, in the
order of the table, and the proxy's is a route lookup.  Both are compared with what a reader would
ask for, and the two ways in which they differ are inputs of their own: an address 0 stands for no
address, and a route may lead back out of the interface that the request came in on.
-/

namespace LinuxRouter

open Program (Prog Runs wp wp_iff wp_bind wp_mono logged wp_logged_cmd wp_logged_silent)

section Standing

variable {s : Plane} {b : Block} {k : CInt} {tpa : Ip}

/-- The proxy stands for `tpa`, by a direct route out of the interface `o`. -/
def Plane.proxyFor (s : Plane) (tpa : Ip) (o : CInt) : Prop :=
  s.arpProxy = true ∧ ∃ rt, routeLookup s.clz0 s.routes tpa = some rt ∧ rt.gw = 0 ∧ rt.ifindex = o

/-- The router stands for `tpa`, towards the segment of the interface `k`: an interface has the address,
or the proxy stands for it by another interface. -/
def Plane.standsFor (s : Plane) (k : CInt) (tpa : Ip) : Prop :=
  (tpa ≠ 0 ∧ ∃ it ∈ s.ifaces, it.ip = tpa) ∨ ∃ o, o ≠ k ∧ s.proxyFor tpa o

/-- 0.0.0.0 is asked for, which an interface without an address has, and for which the proxy does not
stand by another interface. -/
def Plane.takesUnset (s : Plane) (k : CInt) (tpa : Ip) : Prop :=
  tpa = 0 ∧ (∃ it ∈ s.ifaces, it.ip = 0) ∧ ∀ o, s.proxyFor tpa o → o = k

/-- What is asked for is no address of the router's own, and the proxy's direct route for it leads back
to the interface the request came in on. -/
def Plane.answersBack (s : Plane) (k : CInt) (tpa : Ip) : Prop :=
  (∀ it ∈ s.ifaces, it.ip ≠ tpa) ∧ s.proxyFor tpa k ∧ ∃ it ∈ s.ifaces, it.ifindex = k

/-- The frame in the block is a request that `arp_handle_frame` reads as one. -/
def Plane.requested (s : Plane) (b : Block) : Prop :=
  arpFrameOk (s.mem b).data (s.mem b).len = true ∧ getBe16 (s.mem b).data 20 = arpOperReq

/-! ### What is not a request -/

theorem drop_silent (c : Counter) (b : Block) : (drop c b).Every fun _ c => c.sends = [] :=
  ⟨rfl, fun _ => ⟨rfl, fun _ => ⟨rfl, fun _ => trivial⟩⟩⟩

/-- **What is not a request sends nothing.** -/
theorem arpHandleFrame_silent (h : ¬ s.requested b) :
    wp (logged exec Cmd.sends) (fun _ x => x.2 = []) (arpHandleFrame b k) (s, []) := by
  have hfree : ∀ s', wp (logged exec Cmd.sends) (fun _ x => x.2 = []) (Prog.perform (.mpFree b))
      (s', []) := fun _ => wp_logged_cmd rfl fun _ => rfl
  simp only [arpHandleFrame, Prog.perform, Prog.cmd_bind, Prog.ret_bind]
  refine wp_logged_cmd rfl fun _ => ?_
  by_cases hok : arpFrameOk (s.mem b).data (s.mem b).len = true
  · have hop : getBe16 (s.mem b).data 20 ≠ arpOperReq := fun e => h ⟨hok, e⟩
    simp only [exec, hok, Bool.not_true, Bool.false_eq_true, if_false]
    refine wp_logged_cmd rfl fun _ => ?_
    simp only [exec, hop, ne_eq, not_false_eq_true, if_true]
    split
    · exact wp_logged_cmd rfl fun _ => hfree _
    · exact hfree _
  · have hok : arpFrameOk (s.mem b).data (s.mem b).len = false := by simpa using hok
    simp only [exec, hok, Bool.not_false, if_true]
    refine wp_mono (wp_logged_silent (drop_silent .malformed b) (Q := fun _ _ => True) ?_)
      fun _ _ h => h.1
    exact wp_iff.mpr fun _ _ _ => trivial

/-! ### Who answers -/

/-- An interface answers exactly if one has the address, or the proxy stands for it by one that there
is. -/
theorem answers_iff_standing : s.answers tpa = true ↔
    (∃ it ∈ s.ifaces, it.ip = tpa) ∨ ∃ o, s.proxyFor tpa o ∧ ∃ it ∈ s.ifaces, it.ifindex = o := by
  unfold Plane.answers Plane.proxyFor
  rw [Bool.or_eq_true, Bool.and_eq_true, Option.any_eq_true, ifaceWithIp, List.find?_isSome]
  simp only [Bool.and_eq_true, beq_iff_eq, ifaceByIndex, List.find?_isSome]
  refine or_congr_right ⟨?_, ?_⟩
  · rintro ⟨hp, rt, hrt, hgw, hit⟩
    exact ⟨rt.ifindex, ⟨hp, rt, hrt, hgw, rfl⟩, hit⟩
  · rintro ⟨_, ⟨hp, rt, hrt, hgw, rfl⟩, hit⟩
    exact ⟨hp, rt, hrt, hgw, hit⟩

/-- The direct route is one. -/
theorem proxyFor_unique {o o' : CInt} (h : s.proxyFor tpa o) (h' : s.proxyFor tpa o') : o = o' := by
  obtain ⟨-, rt, hrt, -, rfl⟩ := h
  obtain ⟨-, rt', hrt', -, rfl⟩ := h'
  rw [Option.some.inj (hrt.symm.trans hrt')]

/-- What is answered is stood for, but for the two kinds. -/
theorem standsFor_of_answers (ha : s.answers tpa = true) (h₁ : ¬ s.takesUnset k tpa)
    (h₂ : ¬ s.answersBack k tpa) : s.standsFor k tpa := by
  by_cases hown : ∃ it ∈ s.ifaces, it.ip = tpa
  · by_cases hz : tpa = 0
    · subst hz
      by_contra hno
      refine h₁ ⟨rfl, hown, fun o ho => ?_⟩
      by_contra hne
      exact hno (.inr ⟨o, hne, ho⟩)
    · exact .inl ⟨hz, hown⟩
  · obtain ⟨o, ho, hit⟩ := (answers_iff_standing.mp ha).resolve_left hown
    by_cases hk : o = k
    · subst hk
      refine absurd ⟨fun it hi e => hown ⟨it, hi, e⟩, ho, hit⟩ h₂
    · exact .inr ⟨o, hk, ho⟩

/-- **The router answers only for addresses it stands for**, exactly unless the request is of one of
the two kinds: for 0.0.0.0, which an interface without an address has, or for an address that the proxy
would reach through the very interface on which it was asked. -/
theorem stands_for_iff (s : Plane) (b : Block) (k : CInt) :
    (∀ s' os, Runs (logged exec Cmd.sends) (arpHandleFrame b k) (s, []) () (s', os) → os ≠ [] →
        s.requested b ∧ s.standsFor k (getBe32 (s.mem b).data 38)) ↔
      (s.requested b → ¬ s.takesUnset k (getBe32 (s.mem b).data 38) ∧
        ¬ s.answersBack k (getBe32 (s.mem b).data 38)) := by
  generalize ht : getBe32 (s.mem b).data 38 = tpa
  constructor
  · rintro h ⟨hok, hop⟩
    -- with an answer there is a run that sends it
    have hstands : s.answers tpa = true → s.standsFor k tpa := by
      intro ha
      rw [← s.isSome_answerer, ← ht] at ha
      obtain ⟨it, hit⟩ := Option.isSome_iff_exists.mp ha
      obtain ⟨s', os, hr⟩ := exists_reply (i := k) hok hop hit
      exact (h s' _ hr (List.cons_ne_nil _ _)).2
    constructor
    · rintro ⟨rfl, hown, hback⟩
      rcases hstands (answers_iff_standing.mpr (.inl hown)) with ⟨hne, -⟩ | ⟨o, hne, ho⟩
      · exact hne rfl
      · exact hne (hback o ho)
    · rintro ⟨hno, hk, hit⟩
      rcases hstands (answers_iff_standing.mpr (.inr ⟨k, hk, hit⟩)) with ⟨-, it, hi, e⟩ | ⟨o, hne, ho⟩
      · exact hno it hi e
      · exact hne (proxyFor_unique ho hk)
  · intro h s' os hr hos
    by_cases hq : s.requested b
    -- conversely, what is sent is the answer of an interface that was found
    · obtain ⟨h₁, h₂⟩ := h hq
      refine ⟨hq, standsFor_of_answers ?_ h₁ h₂⟩
      have he := wp_iff.mp (arpHandleFrame_replies (i := k) hq.1 hq.2) () _ hr
      unfold Plane.replies at he
      rw [← s.isSome_answerer, ← ht]
      cases ha : s.answerer (getBe32 (s.mem b).data 38) with
      | none =>
          rw [ha] at he
          exact absurd he hos
      | some it => rfl
    · exact absurd (wp_iff.mp (arpHandleFrame_silent hq) () _ hr) hos

end Standing

/-- A router on 10.0.0.1/24 with the proxy on, and the route of its own segment. -/
def Plane.segment : Plane :=
  { Plane.lan with
    ifaces := [.lan]
    routes := [{ dest := 0x0a000000, mask := 0xffffff00, gw := 0, ifindex := 1, isStatic := false }]
    arpProxy := true
    mem := fun _ => { next := none, len := 42, outIfidx := 0, nexthop := 0,
                      data := (lanArp 1).take 38 ++ [10, 0, 0, 7] } }

/-- **The router answers for a host on the requester's own segment**: 10.0.0.2 asks for 10.0.0.7. -/
theorem answers_own_segment :
    ¬ ∀ (s : Plane) b k s' os,
      Runs (logged exec Cmd.sends) (arpHandleFrame b k) (s, []) () (s', os) → os ≠ [] →
        s.requested b ∧ s.standsFor k (getBe32 (s.mem b).data 38) := by
  intro h
  have hit : Plane.segment.answerer 0x0a000007 = some .lan := rfl
  obtain ⟨s', os, hr⟩ := exists_reply (s := .segment) (b := lanBlock) (i := 1) (by decide) (by decide)
    hit
  rcases (h _ _ _ _ _ hr (List.cons_ne_nil _ _)).2 with ⟨-, it, hi, e⟩ | ⟨o, hne, -, rt, hrt, -, rfl⟩
  · obtain rfl := List.mem_singleton.mp hi
    revert e
    decide
  · obtain rfl := Option.some.inj hrt
    exact hne rfl

end LinuxRouter
