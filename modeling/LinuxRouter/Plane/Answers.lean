import LinuxRouter.Model.Bytes
import LinuxRouter.Plane.Learning

/-!
# Plane — what an ARP answer says

The frame that `arp_handle_frame` sends in reply to a request, for any tables and configuration.

* `Answers`: the reply says what was asked.
* `arpHandleFrame_reply`: the first frame sent is `arp_respond`'s rewrite of the request, on the
  interface it came in on; without an answering interface nothing is sent.
* `answers_as_asked_iff`: the sender address is the one asked for exactly if no answer is given for
  another host.  A proxy answer names the router's own address; `proxy_misnames` is one.

The reply is the request itself, with a few fields written over, so that what it says can be read
off the bytes of the block at the moment it is sent.  The program reads the interfaces before it
answers and looks for one with the address that was asked for; the reply carries the address of the
interface found, which is the asked one unless the proxy has stepped in.
-/

namespace LinuxRouter

open Program (Prog Runs wp wp_iff wp_bind wp_mono logged wp_logged_cmd wp_logged_silent)

/-- The frames that a command sends, with their interface. -/
def Cmd.sends : ∀ ⦃β : Type⦄, Cmd β → List (List Byte × CInt)
  | _, .pktSend f i => [(f, i)]
  | _, _ => []

/-- The frame `g`, sent by the interface `o`, answers the request `f` that came in on `i`. -/
structure Answers (ifs : Ifaces) (f : List Byte) (i : CInt) (g : List Byte) (o : CInt) : Prop where
  oper : getBe16 g 20 = arpOperRep
  /-- the sender address is the one asked for -/
  sender : getBe32 g 28 = getBe32 f 38
  /-- the sender's MAC and the Ethernet source are the MAC of an interface -/
  source : ∃ it ∈ ifs, macAt g 22 = it.mac ∧ macAt g 6 = it.mac
  /-- it goes to the requester's MAC -/
  target : macAt g 32 = macAt f 22 ∧ macAt g 0 = macAt f 22
  targetIp : getBe32 g 38 = getBe32 f 28
  port : o = i

/-! ### The reply -/

/-- The sender's MAC that `arp_respond` saves. -/
theorem toList_macAt {f : List Byte} {i : ℕ} (h : i + 6 ≤ f.length) :
    (macAt f i).toList = (f.drop i).take 6 := by
  refine List.ext_getElem (by simp; omega) fun j hj hj' => ?_
  have hij : i + j < f.length := by
    simp at hj'
    omega
  simp [macAt, byteAt, List.getD_eq_getElem?_getD, List.getElem?_eq_getElem hij]

/-- Every field of the reply, which is built in place over the request. -/
theorem arpReplyFrame_fields {f : List Byte} (it : Iface) (h : 42 ≤ f.length) :
    let g := arpReplyFrame it f
    getBe16 g 20 = arpOperRep ∧ getBe32 g 28 = it.ip ∧ macAt g 22 = it.mac ∧ macAt g 6 = it.mac ∧
      macAt g 32 = macAt f 22 ∧ macAt g 0 = macAt f 22 ∧ getBe32 g 38 = getBe32 f 28 := by
  simp only [arpReplyFrame, ← toList_macAt (show 22 + 6 ≤ f.length by omega)]
  -- the writes in their order: what each puts into its field, and that it leaves the others
  generalize macAt f 22 = sha, getBe32 f 28 = spa
  have v₁ := macAt_blit_self (p := f) (i := 0) (by omega) sha
  have p₁ := patched_mac (p := f) (i := 0) (by omega) sha
  generalize blit f 0 sha.toList = f₁ at *
  have l₁ := p₁.length
  have v₂ := macAt_blit_self (p := f₁) (i := 6) (by omega) it.mac
  have p₂ := patched_mac (p := f₁) (i := 6) (by omega) it.mac
  generalize blit f₁ 6 it.mac.toList = f₂ at *
  have l₂ := p₂.length
  have v₃ := getBe16_putBe16 (p := f₂) (i := 20) (by omega) arpOperRep
  have p₃ := patched_putBe16 (p := f₂) (i := 20) (by omega) arpOperRep
  generalize putBe16 f₂ 20 arpOperRep = f₃ at *
  have l₃ := p₃.length
  have v₄ := macAt_blit_self (p := f₃) (i := 22) (by omega) it.mac
  have p₄ := patched_mac (p := f₃) (i := 22) (by omega) it.mac
  generalize blit f₃ 22 it.mac.toList = f₄ at *
  have l₄ := p₄.length
  have v₅ := getBe32_putBe32 (p := f₄) (i := 28) (by omega) it.ip
  have p₅ := patched_putBe32 (p := f₄) (i := 28) (by omega) it.ip
  generalize putBe32 f₄ 28 it.ip = f₅ at *
  have l₅ := p₅.length
  have v₆ := macAt_blit_self (p := f₅) (i := 32) (by omega) sha
  have p₆ := patched_mac (p := f₅) (i := 32) (by omega) sha
  generalize blit f₅ 32 sha.toList = f₆ at *
  have l₆ := p₆.length
  have v₇ := getBe32_putBe32 (p := f₆) (i := 38) (by omega) spa
  have p₇ := patched_putBe32 (p := f₆) (i := 38) (by omega) spa
  generalize putBe32 f₆ 38 spa = g at *
  refine ⟨?_, ?_, ?_, ?_, ?_, ?_, v₇⟩
  · rw [p₇.getBe16, p₆.getBe16, p₅.getBe16, p₄.getBe16, v₃] <;> omega
  · rw [p₇.getBe32, p₆.getBe32, v₅] <;> omega
  · rw [p₇.macAt, p₆.macAt, p₅.macAt, v₄] <;> omega
  · rw [p₇.macAt, p₆.macAt, p₅.macAt, p₄.macAt, p₃.macAt, v₂] <;> omega
  · rw [p₇.macAt, v₆]
    omega
  · rw [p₇.macAt, p₆.macAt, p₅.macAt, p₄.macAt, p₃.macAt, p₂.macAt, v₁] <;> omega

/-! ### The frame sent -/

section Sent

variable {s : Plane} {b : Block} {i : CInt} {spa tpa : Ip} {os : List (List Byte × CInt)}

/-- The look for an own address sends nothing. -/
theorem arpOurs_silent (tpa : Ip) : (arpOurs tpa).Every fun _ c => c.sends = [] :=
  arpOurs_every rfl rfl (fun _ => rfl) tpa

/-- What is sent first in reply to a request: `arp_respond`'s rewrite of the request, on the
interface it came in on. -/
def Plane.replies (s : Plane) (b : Block) (i : CInt) (tpa : Ip) (os : List (List Byte × CInt)) :
    Prop :=
  match s.answerer tpa with
  | none => os = []
  | some it => [((arpReplyFrame it (s.mem b).data).take (s.mem b).len, i)] <+: os

/-- **The answer**, up to what is sent. -/
theorem arpAnswer_replies (s : Plane) (b : Block) (i : CInt) (spa tpa : Ip) :
    wp (logged exec Cmd.sends) (fun _ x => s.replies b i tpa x.2) (arpAnswer b i spa tpa) (s, []) := by
  refine wp_bind.mpr (wp_mono (wp_logged_silent (arpOurs_silent tpa) (arpOurs_spec s tpa)) ?_)
  rintro r ⟨s', os⟩ ⟨ho, hs, hr⟩
  obtain rfl : os = [] := ho
  obtain rfl : s' = s := hs
  rw [hr]
  unfold Plane.replies
  cases s'.answerer tpa with
  | none => exact wp_logged_cmd rfl fun _ => rfl
  | some it =>
      -- `arp_respond` loads the frame, writes it and sends it
      refine wp_logged_cmd rfl fun _ => wp_logged_cmd rfl fun _ => fun _ => ?_
      exact Program.wp_logged_prefix _ _ _

/-- **What `arp_handle_frame` sends in reply to a request.** -/
theorem arpHandleFrame_replies (hok : arpFrameOk (s.mem b).data (s.mem b).len = true)
    (hop : getBe16 (s.mem b).data 20 = arpOperReq) :
    wp (logged exec Cmd.sends) (fun _ x => s.replies b i (getBe32 (s.mem b).data 38) x.2)
      (arpHandleFrame b i) (s, []) := by
  simp only [arpHandleFrame, Prog.perform, Prog.cmd_bind, Prog.ret_bind]
  refine wp_logged_cmd rfl fun _ => ?_
  simp only [exec, hok, Bool.not_true, Bool.false_eq_true, if_false]
  refine wp_logged_cmd rfl fun _ => ?_
  simp only [exec, hop, ne_eq, not_true, if_false]
  split
  · refine wp_logged_cmd rfl fun e => ?_
    exact arpAnswer_replies { s with arp := (arpInsert e.clock _ _ s.arp).getD s.arp } b i _ _
  · exact arpAnswer_replies s b i _ _

/-- With an answering interface there is a run that sends the reply. -/
theorem exists_reply {it : Iface} (hok : arpFrameOk (s.mem b).data (s.mem b).len = true)
    (hop : getBe16 (s.mem b).data 20 = arpOperReq)
    (hit : s.answerer (getBe32 (s.mem b).data 38) = some it) :
    ∃ s' os, Runs (logged exec Cmd.sends) (arpHandleFrame b i) (s, []) ()
      (s', ((arpReplyFrame it (s.mem b).data).take (s.mem b).len, i) :: os) := by
  have hr := @Program.replay_runs _ _ _ _ (logged exec Cmd.sends) Env.packet
    (arpHandleFrame b i) (s, [])
  generalize Program.replay (logged exec Cmd.sends) Env.packet (arpHandleFrame b i) (s, []) = r at hr
  obtain ⟨⟨⟩, s', log⟩ := r
  have he := wp_iff.mp (arpHandleFrame_replies hok hop) () _ hr
  unfold Plane.replies at he
  rw [hit] at he
  obtain ⟨os, rfl⟩ := he
  exact ⟨s', os, hr⟩

/-- Who answers is an interface of the router. -/
theorem Plane.answerer_mem {it : Iface} (h : s.answerer tpa = some it) : it ∈ s.ifaces := by
  unfold Plane.answerer at h
  cases hi : ifaceWithIp s.ifaces tpa with
  | some it' =>
      rw [hi] at h
      cases h
      exact List.mem_of_find?_eq_some hi
  | none =>
      simp only [hi] at h
      split at h
      · split at h
        · cases h
        · split at h
          · exact List.mem_of_find?_eq_some h
          · cases h
      · cases h

/-- It has the address asked for exactly if one of the interfaces does. -/
theorem Plane.answerer_ip_iff {it : Iface} (h : s.answerer tpa = some it) :
    it.ip = tpa ↔ (ifaceWithIp s.ifaces tpa).isSome = true := by
  constructor
  · intro hip
    rw [ifaceWithIp, List.find?_isSome]
    exact ⟨it, s.answerer_mem h, beq_iff_eq.mpr hip⟩
  · intro hi
    obtain ⟨it', hi⟩ := Option.isSome_iff_exists.mp hi
    unfold Plane.answerer at h
    rw [hi] at h
    cases h
    have hp := List.find?_some hi
    exact beq_iff_eq.mp hp

/-- **The reply of an interface answers the request**, if the interface has the address. -/
theorem answers_iff {it : Iface} {f : List Byte} {len : ℕ} (hit : it ∈ s.ifaces) (h42 : 42 ≤ len)
    (hlen : len ≤ f.length) :
    Answers s.ifaces (f.take len) i ((arpReplyFrame it f).take len) i ↔ it.ip = getBe32 f 38 := by
  obtain ⟨hop, hspa, hsha, hsrc, htha, hdst, htpa⟩ := arpReplyFrame_fields it (h42.trans hlen)
  have hf22 : macAt (f.take len) 22 = macAt f 22 := macAt_take (by omega)
  have hf38 : getBe32 (f.take len) 38 = getBe32 f 38 := getBe32_take (by omega)
  have hg : ∀ n, n + 3 < len → getBe32 ((arpReplyFrame it f).take len) n =
      getBe32 (arpReplyFrame it f) n := fun n hn => getBe32_take hn
  have hm : ∀ n, n + 5 < len → macAt ((arpReplyFrame it f).take len) n =
      macAt (arpReplyFrame it f) n := fun n hn => macAt_take hn
  constructor
  · intro h
    rw [← hspa, ← hg 28 (by omega), h.sender, hf38]
  · intro hip
    refine ⟨?_, ?_, ⟨it, hit, ?_, ?_⟩, ⟨?_, ?_⟩, ?_, rfl⟩
    · rw [getBe16_take (by omega), hop]
    · rw [hg 28 (by omega), hspa, hip, hf38]
    · rw [hm 22 (by omega), hsha]
    · rw [hm 6 (by omega), hsrc]
    · rw [hm 32 (by omega), htha, hf22]
    · rw [hm 0 (by omega), hdst, hf22]
    · rw [hg 38 (by omega), htpa, getBe32_take (by omega)]

/-- **ARP answers say what was asked**, for any tables and configuration, exactly if the request is
answered for an address of the router's own only: no proxy answer is given. -/
theorem answers_as_asked_iff (hlen : (s.mem b).len ≤ (s.mem b).data.length)
    (hok : arpFrameOk (s.mem b).data (s.mem b).len = true)
    (hop : getBe16 (s.mem b).data 20 = arpOperReq) :
    (∀ s' g o os, Runs (logged exec Cmd.sends) (arpHandleFrame b i) (s, []) () (s', (g, o) :: os) →
        Answers s.ifaces ((s.mem b).data.take (s.mem b).len) i g o) ↔
      (s.answers (getBe32 (s.mem b).data 38) = true →
        (ifaceWithIp s.ifaces (getBe32 (s.mem b).data 38)).isSome = true) := by
  have h42 : 42 ≤ (s.mem b).len := by
    simp only [arpFrameOk, Bool.and_eq_true, decide_eq_true_eq] at hok
    exact hok.1.1.1.1
  have hrun := wp_iff.mp (arpHandleFrame_replies (i := i) hok hop)
  rw [← s.isSome_answerer]
  unfold Plane.replies at hrun
  cases ha : s.answerer (getBe32 (s.mem b).data 38) with
  | none =>
      refine iff_of_true (fun s' g o os h => ?_) (fun h => nomatch h)
      have he := hrun () _ h
      simp [ha] at he
  | some it =>
      have hit := answers_iff (i := i) (s.answerer_mem ha) h42 hlen
      rw [← s.answerer_ip_iff ha, ← hit]
      constructor
      · intro h _
        obtain ⟨s', os, hr⟩ := exists_reply hok hop ha
        exact h s' _ i os hr
      · intro h s' g o os hr
        have he := hrun () _ hr
        rw [ha] at he
        obtain ⟨os, he⟩ := he
        cases he
        exact h rfl

end Sent

/-! ### A proxy answer -/

/-- A router between 10.0.0.1/24 and 10.1.0.1/24 that answers for the hosts of the second subnet,
with the ARP frame `f` to handle. -/
def Plane.proxied (f : List Byte) : Plane :=
  { Plane.lan with
    ifaces := [.lan, { Iface.lan with ip := 0x0a010001, ifindex := 2 }]
    routes := [{ dest := 0x0a010000, mask := 0xffffff00, gw := 0, ifindex := 2, isStatic := true }]
    arpProxy := true
    mem := fun _ => { next := none, len := 42, outIfidx := 0, nexthop := 0, data := f } }

/-- The request of 10.0.0.2 for 10.1.0.7. -/
def proxyRequest : List Byte := (lanArp 1).take 38 ++ [10, 1, 0, 7]

/-- A request for an address of the router's own is answered as asked. -/
theorem answers_own :
    (Plane.proxied (lanArp 1)).answers (getBe32 (lanArp 1) 38) = true ∧
      ∀ s' g o os,
        Runs (logged exec Cmd.sends) (arpHandleFrame lanBlock 1) (Plane.proxied (lanArp 1), []) ()
          (s', (g, o) :: os) →
        Answers (Plane.proxied (lanArp 1)).ifaces ((lanArp 1).take 42) 1 g o :=
  ⟨by decide, (answers_as_asked_iff (s := Plane.proxied (lanArp 1)) (b := lanBlock) (i := 1)
    (by decide) (by decide) (by decide)).mpr fun _ => by decide⟩

/-- **A proxy answer does not say what was asked.**  The reply to a request for 10.1.0.7 says where
10.1.0.1 is. -/
theorem proxy_misnames :
    ¬ ∀ (s : Plane) b i, (s.mem b).len ≤ (s.mem b).data.length →
      arpFrameOk (s.mem b).data (s.mem b).len = true →
      getBe16 (s.mem b).data 20 = arpOperReq → ∀ s' g o os,
      Runs (logged exec Cmd.sends) (arpHandleFrame b i) (s, []) () (s', (g, o) :: os) →
      Answers s.ifaces ((s.mem b).data.take (s.mem b).len) i g o := by
  intro h
  have hit : (Plane.proxied proxyRequest).answerer 0x0a010007 =
      some { Iface.lan with ip := 0x0a010001, ifindex := 2 } := rfl
  obtain ⟨s', os, hr⟩ := exists_reply (s := .proxied proxyRequest) (b := lanBlock) (i := 1)
    (by decide) (by decide) hit
  have ha := h _ _ _ (by decide) (by decide) (by decide) s' _ 1 os hr
  exact absurd ha.sender (by decide)

end LinuxRouter
