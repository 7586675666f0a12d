import LinuxRouter.Plane.Sequential

/-!
# Plane — learning a next hop

What `arp_handle_frame` does to the frames that wait for the sender of an ARP frame it learns from,
with no other thread in between.  It flushes them only on its way out of an answer: a request for an
address that is ours, or that the proxy answers for.  A reply, the frame that carries the answer to
our own request, flushes nothing.  Headline: `learning_releases`, with the counterexample
`reply_releases_nothing`.

The function runs alone here, as a `Program.wp` fact put together of those of `Sequential`.  It
learns first and answers afterwards, and the flush stands behind the answer; so the frames that wait
leave exactly if the frame was a request that is answered, and then all of them, in the order of
their chain, with the MAC that was learned.
-/

namespace LinuxRouter

open Linked (IsChain)
open Program (Prog Config Runs wp wp_ret wp_iff wp_bind wp_mono)

/-- Nothing waits for `k` any more: no slot is left for it, and every frame that was parked for it
in `s` has been passed to `forward_send` with `mac`. -/
def Released (k : Key) (mac : Mac) (s s' : Plane) : Prop :=
  (∀ i, (s'.pend.node i).used = true → (s'.pend.node i).key ≠ k) ∧
    ∃ es, s'.trace = es ++ s.trace ∧ ∀ b, s.pend.parked s.mem k b → Event.send b mac ∈ es

/-- A slot waits for `k`. -/
def Waiting (k : Key) (s : Plane) : Prop :=
  ∃ i, (s.pend.node i).used = true ∧ (s.pend.node i).key = k

/-- `arp_handle_frame` answers a request for `tpa`. -/
def Plane.answers (s : Plane) (tpa : Ip) : Bool :=
  (ifaceWithIp s.ifaces tpa).isSome ||
    (s.arpProxy && (routeLookup s.clz0 s.routes tpa).any fun rt =>
      rt.gw == 0 && (ifaceByIndex s.ifaces rt.ifindex).isSome)

theorem not_waiting_iff {k : Key} {s : Plane} :
    ¬ Waiting k s ↔ ∀ i, (s.pend.node i).used = true → (s.pend.node i).key ≠ k := by
  simp [Waiting]

/-- The interface that a request for `tpa` is answered from. -/
def Plane.answerer (s : Plane) (tpa : Ip) : Option Iface :=
  match ifaceWithIp s.ifaces tpa with
  | some it => some it
  | none =>
      if s.arpProxy then
        match routeLookup s.clz0 s.routes tpa with
        | none => none
        | some rt => if rt.gw = 0 then ifaceByIndex s.ifaces rt.ifindex else none
      else none

/-- A request is answered by somebody or by nobody. -/
theorem Plane.isSome_answerer (s : Plane) (tpa : Ip) :
    (s.answerer tpa).isSome = s.answers tpa := by
  unfold Plane.answerer Plane.answers
  cases ifaceWithIp s.ifaces tpa with
  | some it => rfl
  | none =>
      cases s.arpProxy with
      | false => rfl
      | true =>
          cases routeLookup s.clz0 s.routes tpa with
          | none => rfl
          | some rt => by_cases hg : rt.gw = 0#32 <;> simp [hg]

/-- `arp_handle_frame` reads which interface answers, and writes nothing. -/
theorem arpOurs_spec (s : Plane) (tpa : Ip) :
    wp exec (fun r s' => s' = s ∧ r = s.answerer tpa) (arpOurs tpa) s := by
  simp only [arpOurs, Plane.answerer, Prog.perform, Prog.cmd_bind, Prog.ret_bind, Prog.pure_eq]
  refine wp_read (fun _ => rfl) ?_
  cases ifaceWithIp s.ifaces tpa with
  | some it => exact ⟨rfl, rfl⟩
  | none =>
      refine wp_read (fun _ => rfl) ?_
      by_cases hp : s.arpProxy = true
      · simp only [hp, if_true]
        refine wp_read (fun _ => rfl) ?_
        cases routeLookup s.clz0 s.routes tpa with
        | none => exact ⟨rfl, rfl⟩
        | some rt =>
            by_cases hg : rt.gw = 0
            · simp only [hg, if_true]
              exact wp_read (fun _ => rfl) ⟨rfl, rfl⟩
            · simp only [hg, if_false]
              exact ⟨rfl, rfl⟩
      · simp only [hp]
        exact ⟨rfl, rfl⟩

section Flush

variable {k : Key} {mac : Mac} {s s' : Plane} {order : List Slot} {chains : Slot → List Block}

/-- What waits for a key is in its slot. -/
theorem Parked.waiting_iff (h : Parked s order chains) :
    Waiting k s ↔ findPend s.pend k ≠ none := by
  rw [Ne, h.rep.findPend_eq_none]
  push Not
  exact exists_congr fun i => by rw [h.rep.used]

/-- Without a slot for `k` there is nothing to release. -/
theorem released_of_not_waiting {es : List Event} (h : ¬ Waiting k s) (hp : s'.pend = s.pend)
    (ht : s'.trace = es ++ s.trace) : Released k mac s s' := by
  refine ⟨?_, es, ht, fun b ⟨i, hu, hk, _⟩ => absurd ⟨i, hu, hk⟩ h⟩
  rw [hp]
  exact not_waiting_iff.mp h

/-- A slot that stays is not released. -/
theorem not_released_of_waiting (h : Waiting k s) (hp : s'.pend = s.pend) : ¬ Released k mac s s' := by
  rintro ⟨hn, -⟩
  rw [hp] at hn
  exact not_waiting_iff.mpr hn h

/-- A flush of a key that resolves releases what waits for it. -/
theorem flush_releases (h : Parked s order chains) (hm : s.arp.resolve k = some mac) :
    wp exec (fun _ s' => Released k mac s s') (forwardFlushPending k) s := by
  refine wp_mono (forwardFlushPending_spec h) fun _ s' => ?_
  rintro ⟨es, order', chains', hf, h', ht, -⟩
  cases hf with
  | miss hn hp =>
      have hf := hn.resolve_left (by simp [hm])
      exact released_of_not_waiting (fun hw => h.waiting_iff.mp hw hf) hp ht
  | hit i mac' hm' hi hk hp =>
      obtain rfl : mac = mac' := Option.some_inj.mp (hm.symm.trans hm')
      refine ⟨fun j hj hjk => ?_, _, ht, ?_⟩
      · rw [h'.rep.used, h.rep.list.nodup.mem_erase_iff] at hj
        rw [hp, key_releaseNode] at hjk
        exact hj.1 (h.rep.key_inj j hj.2 i hi (hjk.trans hk.symm))
      · rintro b ⟨j, hj, hjk, hb⟩
        have e := h.rep.key_inj j ((h.rep.used j).mp hj) i hi (hjk.trans hk.symm)
        rw [e, h.rep.frames_eq] at hb
        simp [hb]

/-- A release seen from an earlier state. -/
theorem Released.of_leaves {s₁ : Plane} (hl : Leaves (parked chains) [] s s₁)
    (h : Parked s order chains) (hr : Released k mac s₁ s') : Released k mac s s' := by
  obtain ⟨hn, es, ht, hsent⟩ := hr
  have h₁ := hl.parked h
  refine ⟨hn, es, by rw [ht, hl.trace, List.nil_append], fun b ⟨j, hj, hjk, hb⟩ => hsent b ⟨j, ?_⟩⟩
  rw [h₁.rep.frames_eq, ← h.rep.frames_eq, hl.pend]
  exact ⟨hj, hjk, hb⟩

/-- And from a later one. -/
theorem Released.leaves {s₂ : Plane} (hr : Released k mac s s') (hl : Leaves ∅ [] s' s₂) :
    Released k mac s s₂ := by
  obtain ⟨hn, es, ht, hsent⟩ := hr
  refine ⟨?_, es, by rw [hl.trace, List.nil_append, ht], hsent⟩
  rw [hl.pend]
  exact hn

end Flush

/-- What the frame checks and the learning rule leave of `arp_handle_frame`. -/
theorem arpHandleFrame_learned {s : Plane} {b : Block} {i : CInt} {Q : Unit → Plane → Prop}
    (ha : ArpSane s.arp) (hok : arpFrameOk (s.mem b).data (s.mem b).len = true)
    (hl : learns s.ifaces i (getBe32 (s.mem b).data 28) = true)
    (hrest : ∀ t, t.resolve (getBe32 (s.mem b).data 28, i) = some (macAt (s.mem b).data 22) →
      wp exec Q (if getBe16 (s.mem b).data 20 ≠ arpOperReq then .cmd (.mpFree b) .ret
          else arpAnswer b i (getBe32 (s.mem b).data 28) (getBe32 (s.mem b).data 38))
        { s with arp := t }) :
    wp exec Q (arpHandleFrame b i) s := by
  simp only [arpHandleFrame, Prog.perform, Prog.cmd_bind, Prog.ret_bind]
  refine wp_read (fun _ => rfl) ?_
  simp only [hok, Bool.not_true, Bool.false_eq_true, if_false]
  refine wp_read (fun _ => rfl) ?_
  simp only [hl, if_true]
  intro e
  obtain ⟨t', he, -, hv⟩ :=
    ha.insert e.clock (getBe32 (s.mem b).data 28, i) (macAt (s.mem b).data 22)
  simp only [exec, he, Option.getD_some]
  exact hrest t' (by rw [ArpTable.resolve, hv]; rfl)

/-- **Learning a next hop.**  In every reachable state, and for every well-formed ARP frame from the
subnet of the interface it came in on, what waits for the sender is released exactly if nothing
does, or the frame is a request that is answered. -/
theorem learning_releases {ifs : Ifaces} {routes : List Route} {rules : List FwRule} {proxy : Bool}
    {clz0 : CInt} {m : Mem} {x : Config Cmd Plane (List Block) Tid Unit} {b : Block} {i : CInt}
    {f : List Byte} {s' : Plane}
    (hx : Program.Reach dataPlane Program.anyStep
      (Plane.init ifs routes rules proxy clz0 m).start x)
    (hf : (x.shared.mem b).data = f) (hok : arpFrameOk f (x.shared.mem b).len = true)
    (hl : learns x.shared.ifaces i (getBe32 f 28) = true)
    (hrun : Runs exec (arpHandleFrame b i) x.shared () s') :
    Released (getBe32 f 28, i) (macAt f 22) x.shared s' ↔
      ¬ Waiting (getBe32 f 28, i) x.shared ∨
        (getBe16 f 20 = arpOperReq ∧ x.shared.answers (getBe32 f 38) = true) := by
  subst hf
  obtain ⟨order, chains, h, ha⟩ := (reach_inv hx).parked
  revert s'
  generalize x.shared = s at *
  intro s' hrun
  refine (wp_iff (Q := fun _ s' => Released _ _ s s' ↔ _)).mp ?_ () s' hrun
  refine arpHandleFrame_learned ha hok hl fun t ht => ?_
  generalize getBe32 (s.mem b).data 28 = spa, getBe32 (s.mem b).data 38 = tpa,
    macAt (s.mem b).data 22 = mac at ht ⊢
  -- a frame that is not answered leaves the pending table
  have hquiet : ∀ s', Leaves ∅ [] { s with arp := t } s' →
      (Released (spa, i) mac s s' ↔ ¬ Waiting (spa, i) s) := by
    intro s' hs'
    constructor
    · exact fun hr hw => not_released_of_waiting hw hs'.pend hr
    · exact fun hw => released_of_not_waiting hw hs'.pend hs'.trace
  have hnone : Pool.Spares s.pool ∅ := fun _ hb => hb.elim
  have hfree : ∀ {P : Prop}, ¬ P → wp exec
      (fun _ s' => Released (spa, i) mac s s' ↔ ¬ Waiting (spa, i) s ∨ P)
      (.cmd (.mpFree b) .ret) { s with arp := t } := by
    intro P hP
    refine wp_free (Set.notMem_empty b) (.refl hnone) fun s' hs' => ?_
    rw [wp_ret, hquiet s' hs']
    simp [hP]
  split
  · rename_i hop
    exact hfree fun h => hop h.1
  · rename_i hop
    refine wp_bind.mpr (wp_mono (arpOurs_spec _ tpa) ?_)
    rintro r _ ⟨rfl, hr⟩
    have hans : s.answers tpa = r.isSome := hr ▸ (s.isSome_answerer tpa).symm
    cases r with
    | none => exact hfree fun h => by simp [h.2] at hans
    | some it =>
        have h' : Parked { s with arp := t } order chains := ⟨h.rep, h.spares⟩
        refine wp_bind.mpr (wp_mono (arpRespond_leaves h'.spares) fun _ s₁ hl₁ => ?_)
        have hm : s₁.arp.resolve (spa, i) = some mac := by rwa [hl₁.arp]
        refine wp_bind.mpr (wp_mono (flush_releases (hl₁.parked h') hm) fun _ s₂ hr₂ => ?_)
        refine wp_free (Set.notMem_empty b) (.refl fun _ hb => hb.elim) fun s₃ hl₃ => ?_
        have hrel : Released (spa, i) mac s s₃ := (hr₂.of_leaves hl₁ h').leaves hl₃
        exact iff_of_true hrel (.inr ⟨not_not.mp hop, hans⟩)

/-! ### A reply -/

/-- An interface 10.0.0.1/24 of index 1. -/
def Iface.lan : Iface where
  name := ⟨[0x65, 0x30], by decide, by decide⟩
  mac := Vector.replicate 6 2
  ip := 0x0a000001
  netmask := 0xffffff00
  ifindex := 1

/-- A router with this interface. -/
def Plane.lan : Plane :=
  .init [.lan] [] [] false 0
    fun _ => { next := none, len := 0, outIfidx := 0, nexthop := 0, data := [] }

/-- An IP packet without payload, for 10.0.0.2. -/
def lanPacket : List Byte :=
  List.replicate 12 7 ++
    [8, 0, 0x45, 0, 0, 20, 0, 0, 0, 0, 64, 17, 0, 0, 10, 0, 0, 9, 10, 0, 0, 2]

/-- An ARP frame of 10.0.0.2 to us, with the operation `op`. -/
def lanArp (op : Byte) : List Byte :=
  List.replicate 6 2 ++ List.replicate 6 9 ++ [8, 6, 0, 1, 8, 0, 6, 4, 0, op] ++
    List.replicate 6 9 ++ [10, 0, 0, 2] ++ List.replicate 6 2 ++ [10, 0, 0, 1]

/-- The outside world, with a frame to receive on the interface. -/
def Env.receive (f : List Byte) (h : f ≠ []) (hl : f.length ≤ mpPayload) : Env where
  clock := 1
  heap := none
  recv := some { bytes := f, ne_nil := h, le_payload := hl, outgoing := false, ifindex := 1 }
  sent := true

/-- An outside world in which a packet arrives. -/
def Env.packet : Env := .receive lanPacket (by decide) (by decide)

/-- An outside world in which an ARP frame arrives. -/
def Env.arp (op : Byte) : Env := .receive (lanArp op) (by simp [lanArp]) (by simp [lanArp, mpPayload])

/-- The receive loop queues a packet for 10.0.0.2, and a worker parks it. -/
def parkPacket : List (Tid × Env) :=
  List.replicate 10 (.rx, .packet) ++ List.replicate 19 (.worker ⟨0, poolThreads_pos⟩, .packet)

/-- Then the receive loop is about to handle an ARP frame of 10.0.0.2. -/
def lanLearning (op : Byte) : Config Cmd Plane (List Block) Tid Unit :=
  Program.play dataPlane (parkPacket ++ List.replicate 8 (.rx, .arp op)) Plane.lan.start

/-- The block of that frame. -/
def lanBlock : Block := .pool ⟨1022, by decide⟩

/-- The run up to the frame. -/
theorem lanLearning_reach (op : Byte) :
    Program.Reach dataPlane Program.anyStep Plane.lan.start (lanLearning op) :=
  Program.play_reach (fun _ _ _ _ _ => trivial) _

/-- What `arp_handle_frame` makes of it. -/
def lanLearned (op : Byte) : Plane :=
  (Program.replay exec (.arp op) (arpHandleFrame lanBlock 1) (lanLearning op).shared).2

theorem lanLearned_runs (op : Byte) :
    Runs exec (arpHandleFrame lanBlock 1) (lanLearning op).shared () (lanLearned op) :=
  replay_act (.arp op) (arpHandleFrame lanBlock 1) (lanLearning op).shared

/-- A request for our address is answered, and the packet is sent. -/
theorem learning_releases_request :
    Released (getBe32 (lanArp 1) 28, 1) (macAt (lanArp 1) 22) (lanLearning 1).shared
      (lanLearned 1) := by
  have hf : ((lanLearning 1).shared.mem lanBlock).data = lanArp 1 := by decide +kernel
  exact (learning_releases (lanLearning_reach 1) hf (by decide +kernel) (by decide +kernel)
    (lanLearned_runs 1)).mpr (.inr ⟨by decide, by decide +kernel⟩)

/-- **A reply releases nothing.**  The packet waits for 10.0.0.2, the reply of 10.0.0.2 is handled, and
the packet still waits: `arp_handle_frame` frees a frame that is no request right after learning from
it, before it comes to the flush. -/
theorem reply_releases_nothing :
    ¬ ∀ x, Program.Reach dataPlane Program.anyStep Plane.lan.start x → ∀ b i s',
      arpFrameOk (x.shared.mem b).data (x.shared.mem b).len = true →
      learns x.shared.ifaces i (getBe32 (x.shared.mem b).data 28) = true →
      Runs exec (arpHandleFrame b i) x.shared () s' →
      Released (getBe32 (x.shared.mem b).data 28, i) (macAt (x.shared.mem b).data 22)
        x.shared s' := by
  intro h
  obtain ⟨hn, -⟩ := h _ (lanLearning_reach 2) lanBlock 1 _ (by decide +kernel) (by decide +kernel)
    (lanLearned_runs 2)
  exact absurd (hn ⟨0, by decide⟩ (by decide +kernel)) (by decide +kernel)

end LinuxRouter
