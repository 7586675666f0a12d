import LinuxRouter.Model.Bytes
import LinuxRouter.Plane.Learning
import LinuxRouter.Plane.Routing

/-!
# Plane — which next hops can be resolved

`forward_task` selects a next hop and an interface; `arp_handle_frame` learns a sender only in the
subnet of the interface its frame came in on.  `Resolvable s k` says that every reply of the next hop
`k` makes `arp_lookup` find it.

* `resolvable_iff`: `k` is resolvable exactly if the learning rule lets it in;
* `next_hop_resolvable`: what this makes of the next hops that `forward_task` selects;
* `next_hop_unresolvable`: a route that is accepted and cannot be resolved.

A next hop on one of the router's links answers with its own address from its own segment, so that
whether its answer is learned is a question about two subnets: that of the interface the answer
comes in on, and the one the next hop was found in.  For a destination on a link they are the same,
and for a gateway a route may name any address at all.  The reply is read off its bytes, and the
rest is arithmetic of masks.
-/

namespace LinuxRouter

open Text (lit)
open Program (Prog Config Runs wp wp_ret wp_iff)

/-- What `forward_task` selects for a destination. -/
def Plane.decision (s : Plane) (dst : Ip) : Option Key :=
  match s.ifaces.find? (·.covers dst) with
  | some it => some (dst, it.ifindex)
  | none => (routeLookup s.clz0 s.routes dst).map (·.nextHop dst)

/-- `s`, with a frame received into `b`. -/
def Plane.receive (s : Plane) (b : Block) (fr : FwdFrame) : Plane :=
  { s with mem := Function.update s.mem b fr }

/-- The block after a frame has been received into it. -/
theorem Plane.mem_receive (s : Plane) (b : Block) (fr : FwdFrame) : (s.receive b fr).mem b = fr :=
  Function.update_self ..

/-- A well-formed ARP reply of the sender `spa`. -/
structure ReplyOf (spa : Ip) (fr : FwdFrame) : Prop where
  ok : arpFrameOk fr.data fr.len = true
  reply : getBe16 fr.data 20 = arpOperRep
  sender : getBe32 fr.data 28 = spa

/-- After any reply of the next hop, received on the interface, `arp_lookup` finds it with the
sender's MAC. -/
def Resolvable (s : Plane) (k : Key) : Prop :=
  ∀ b fr s', ReplyOf k.1 fr → Runs exec (arpHandleFrame b k.2) (s.receive b fr) () s' →
    ∀ now, (arpLookup now k s'.arp).1 = some (macAt fr.data 22)

/-! ### A reply -/

/-- A reply of `spa`, with the MAC `c:c:c:c:c:c`. -/
def replyWith (spa : Ip) (c : Byte) : FwdFrame where
  next := none
  len := 42
  outIfidx := 0
  nexthop := 0
  data :=
    [0, 0, 0, 0, 0, 0, 0, 0, 0, 0, 0, 0, 8, 6, 0, 1, 8, 0, 6, 4, 0, 2, c, c, c, c, c, c,
      (spa >>> 24).setWidth 8, (spa >>> 16).setWidth 8, (spa >>> 8).setWidth 8, spa.setWidth 8,
      0, 0, 0, 0, 0, 0, 0, 0, 0, 0]

/-- A reply with an address of the given byte. -/
theorem replyOf_replyWith (spa : Ip) (c : Byte) : ReplyOf spa (replyWith spa c) where
  ok := by simp [arpFrameOk, replyWith, getBe16, byteAt]
  reply := show (0#8).setWidth 16 <<< 8 ||| (2#8).setWidth 16 = 2#16 by decide
  sender := getBe32_bytes spa

/-- The MAC of such a reply. -/
theorem macAt_replyWith (spa : Ip) (c : Byte) :
    macAt (replyWith spa c).data 22 = Vector.replicate 6 c := by
  refine Vector.ext fun j hj => ?_
  interval_cases j <;> rfl

/-- A reply that the learning rule keeps out changes no entry. -/
theorem arpHandleFrame_unlearned {s : Plane} {b : Block} {k : Key}
    (hr : ReplyOf k.1 (s.mem b)) (hl : learns s.ifaces k.2 k.1 = false) :
    wp exec (fun _ s' => s'.arp = s.arp) (arpHandleFrame b k.2) s := by
  simp only [arpHandleFrame, Prog.perform, Prog.cmd_bind, Prog.ret_bind]
  refine wp_read (fun _ => rfl) ?_
  simp only [hr.ok, Bool.not_true, Bool.false_eq_true, if_false]
  refine wp_read (fun _ => rfl) ?_
  simp only [hr.sender, hl, Bool.false_eq_true, if_false, hr.reply]
  rw [if_pos (by decide)]
  exact fun e => wp_ret.mpr rfl

/-- **A next hop is resolvable** exactly if it is in the subnet of its interface. -/
theorem resolvable_iff {s : Plane} {k : Key} (ha : ArpSane s.arp) :
    Resolvable s k ↔ learns s.ifaces k.2 k.1 = true := by
  constructor
  · intro h
    by_contra hn
    rw [Bool.not_eq_true] at hn
    -- two replies with different MACs leave the table as it was
    have hmac : ∀ c : Byte, s.arp.resolve k = some (Vector.replicate 6 c) := by
      intro c
      let b := Block.heap 0
      let s₁ := s.receive b (replyWith k.1 c)
      have hfr : s₁.mem b = replyWith k.1 c := s.mem_receive b _
      have hrun := replay_act ⟨0, none, none, true⟩ (arpHandleFrame b k.2) s₁
      have hr : ReplyOf k.1 (s₁.mem b) := hfr ▸ replyOf_replyWith k.1 c
      have harp := wp_iff.mp (arpHandleFrame_unlearned hr hn) _ _ hrun
      have hm := h b _ _ (replyOf_replyWith k.1 c) hrun 0
      rw [ArpTable.arpLookup_fst, harp, macAt_replyWith] at hm
      exact hm
    have h01 := Option.some.inj ((hmac 0).symm.trans (hmac 1))
    exact absurd h01 (by decide)
  · intro hl b fr s' hr hrun now
    rw [ArpTable.arpLookup_fst]
    revert s'
    suffices hw : wp exec (fun _ s' => s'.arp.resolve k = some (macAt fr.data 22))
        (arpHandleFrame b k.2) (s.receive b fr) from
      fun s' hrun => wp_iff.mp hw _ _ hrun
    have hfr := s.mem_receive b fr
    refine arpHandleFrame_learned ha (by rw [hfr]; exact hr.ok) ?_ fun t ht => ?_
    · rw [hfr, hr.sender]
      exact hl
    · rw [hfr, hr.sender] at ht
      rw [hfr, hr.reply, if_pos (by decide)]
      exact fun e => wp_ret.mpr ht

/-! ### The next hops that are selected -/

/-- The first interface whose subnet has the destination is the one of its index. -/
theorem learns_onLink {ifs : Ifaces} {it : Iface} {dst : Ip} (hd : (ifs.map (·.ifindex)).Nodup)
    (hf : ifs.find? (·.covers dst) = some it) : learns ifs it.ifindex dst = true := by
  have hmem := List.mem_of_find?_eq_some hf
  have hcov : it.covers dst = true := by simpa using List.find?_some hf
  have hidx : ifaceByIndex ifs it.ifindex = some it := by
    rw [ifaceByIndex, List.find?_eq_some_iff_append]
    refine ⟨by simp, ?_⟩
    obtain ⟨as, bs, rfl⟩ := List.append_of_mem hmem
    refine ⟨as, bs, rfl, fun a ha => ?_⟩
    rw [List.map_append, List.map_cons, List.nodup_append] at hd
    have hne := hd.2.2 a.ifindex (List.mem_map_of_mem ha) it.ifindex List.mem_cons_self
    simpa using hne
  rw [learns, hidx]
  exact hcov

/-- **The next hops that can be resolved.**  In every reachable state, whatever `forward_task`
selects for a destination can be resolved exactly if it is in the subnet of the interface it is
selected on.  This is always so for a destination that is on link. -/
theorem next_hop_resolvable {ifs : Ifaces} {routes : List Route} {rules : List FwRule}
    {proxy : Bool} {clz0 : CInt} {m : Mem} {x : Config Cmd Plane (List Block) Tid Unit} {blk : Block}
    (hx : Program.Reach dataPlane Program.anyStep
      (Plane.init ifs routes rules proxy clz0 m).start x)
    (h : ForAnother x.shared blk) :
    let s := x.shared
    let dst := getBe32 (s.mem blk).data 30
    Decides s blk (s.decision dst) ∧
      (∀ k, s.decision dst = some k → (Resolvable s k ↔ learns s.ifaces k.2 k.1 = true)) ∧
      ((s.ifaces.map (·.ifindex)).Nodup → ∀ it, s.ifaces.find? (·.covers dst) = some it →
        s.decision dst = some (dst, it.ifindex) ∧ Resolvable s (dst, it.ifindex)) := by
  intro s dst
  obtain ⟨_, _, -, ha⟩ := (reach_inv hx).parked
  refine ⟨decides_onLink h, fun k _ => resolvable_iff ha, fun hd it hf => ⟨?_, ?_⟩⟩
  · rw [Plane.decision, hf]
  · exact (resolvable_iff ha).mpr (learns_onLink hd hf)

/-- The packet for 10.0.0.2 that waits while its reply is handled. -/
theorem next_hop_resolvable_lan :
    Resolvable (lanLearning 2).shared (0x0a000002, 1) := by
  have h : ForAnother (lanLearning 2).shared (.pool ⟨1023, by decide⟩) :=
    ⟨by decide +kernel, by decide +kernel, by decide +kernel⟩
  have hdst : getBe32 ((lanLearning 2).shared.mem (.pool ⟨1023, by decide⟩)).data 30 =
      0x0a000002 := by decide +kernel
  have hmap : ((lanLearning 2).shared.ifaces.find? (·.covers 0x0a000002)).map (·.ifindex) =
      some 1 := by decide +kernel
  obtain ⟨it, hf, hi⟩ := Option.map_eq_some_iff.mp hmap
  rw [← hdst] at hf
  have hr := ((next_hop_resolvable (lanLearning_reach 2) h).2.2 (by decide +kernel) it hf).2
  rwa [hdst, hi] at hr

/-! ### A route that cannot be resolved -/

/-- The route tables that `addroute` and `route_derive_connected` build. -/
inductive Built (ifs : Ifaces) : List Route → Prop where
  | nil : Built ifs []
  | addroute {routes : List Route} (h : Built ifs routes) (args : List (List Byte)) :
      Built ifs (cmdAddroute ifs args routes).2
  | derive {routes : List Route} (h : Built ifs routes) :
      Built ifs (routeDeriveConnected ifs routes)

/-- 10.0.0.1/24, with `addroute 8.8.8.0/24 dev eth0`. -/
def directRoute : List Route :=
  routeDeriveConnected [.subnet (lit "eth0") 0x0a000001 24 1]
    (cmdAddroute [.subnet (lit "eth0") 0x0a000001 24 1] [lit "8.8.8.0/24", lit "dev", lit "eth0"]
      []).2

/-- **A next hop that cannot be resolved.**  A destination outside the subnet of `eth0`, with a
direct route: it is its own next hop, and its replies are not learned. -/
theorem next_hop_unresolvable :
    ¬ ∀ (ifs : Ifaces) (routes : List Route), Built ifs routes → ∀ (m : Mem) (blk : Block),
      let s := Plane.init ifs routes [] false 32 m
      ForAnother s blk → ∀ k, s.decision (getBe32 (s.mem blk).data 30) = some k →
        Resolvable s k := by
  intro hall
  have hb : Built [.subnet (lit "eth0") 0x0a000001 24 1] directRoute :=
    .derive (.addroute .nil _)
  have hr := hall _ _ hb
    (fun _ => { next := none, len := 34, outIfidx := 0, nexthop := 0, data := headerFor 0x08080808 })
    (.heap 0) ⟨by decide +kernel, by decide +kernel, by decide +kernel⟩ (0x08080808, 1)
    (by decide +kernel)
  have hl := (resolvable_iff .init).mp hr
  exact absurd hl (by decide +kernel)

end LinuxRouter
