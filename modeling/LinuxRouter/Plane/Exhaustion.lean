import LinuxRouter.Plane.Capacity
import LinuxRouter.Plane.Learning

/-!
# Plane — a run that exhausts the arena

Packets for 251 hosts of a LAN that do not answer are parked, each in a slot of its own.  While the
timer builds an ARP request and every worker has a packet in hand, the receive loop fills the queue:
every block of the arena is held, and the receive loop calls `mp_alloc`.

* `Desk` is what is known of the state while one thread runs alone, with one lemma for each kind of
  command.
* `Stage` is what is known between two rounds.
* `arena_suffices_iff`: the limit `arenaSpare` is exact.

A run of many thousand commands is built up rather than listed.  One thread works at a time, and
`Desk` has all that matters between two of its commands: who holds which blocks, what is queued, how
many hosts have a slot.  The commands have one lemma each, the rounds of the threads are put
together from them, and `Stage` is where the rounds meet, so that the whole run is an induction over
the hosts and another over the places of the queue.
-/

namespace LinuxRouter

open Program (Prog Config Reach Watched By May)

/-! ### The hosts -/

/-- A packet for 10.0.0.`d`. -/
def packetTo (d : Byte) : List Byte :=
  List.replicate 12 7 ++
    [8, 0, 0x45, 0, 0, 20, 0, 0, 0, 0, 64, 17, 0, 0, 10, 0, 0, 9, 10, 0, 0, d]

/-- The last byte of the host's address. -/
def hostByte (n : ℕ) : Byte := BitVec.ofNat 8 (n + 2)

/-- The next hop of its packets. -/
def hostKey (n : ℕ) : Key := (getBe32 (packetTo (hostByte n)) 30, 1)

/-- The hosts. -/
def hosts : ℕ := arenaSpare + 1

/-- A block has a packet for 10.0.0.`d`. -/
structure HasPacket (d : Byte) (f : FwdFrame) : Prop where
  len : f.len = 34
  data : ∃ rest, f.data = packetTo d ++ rest

/-- The address of a host, as a number. -/
theorem hostKey_toNat {n : ℕ} (hn : n < hosts) : (hostKey n).1.toNat = 0x0a000002 + n := by
  have hall : ∀ i : Fin hosts, (hostKey i).1.toNat = 0x0a000002 + i := by decide +kernel
  exact hall ⟨n, hn⟩

theorem hostKey_inj {i j : ℕ} (hi : i < hosts) (hj : j < hosts) (h : hostKey i = hostKey j) :
    i = j := by
  have hn : (hostKey i).1.toNat = (hostKey j).1.toNat := by rw [h]
  rw [hostKey_toNat hi, hostKey_toNat hj] at hn
  omega

/-- The host is on the LAN. -/
theorem host_onLink {n : ℕ} (hn : n < hosts) :
    isLocal [.lan] (hostKey n).1 = false ∧ Iface.lan.covers (hostKey n).1 = true := by
  have hall : ∀ i : Fin hosts,
      isLocal [.lan] (hostKey i).1 = false ∧ Iface.lan.covers (hostKey i).1 = true := by
    decide +kernel
  exact hall ⟨n, hn⟩

namespace HasPacket

variable {d : Byte} {f : FwdFrame}

theorem header (h : HasPacket d f) : headerOk f.data f.len = true := by
  obtain ⟨hl, rest, hd⟩ := h
  have h₁₄ : byteAt f.data 14 = 0x45#8 := by
    rw [hd]
    rfl
  have h₁₆ : byteAt f.data 16 = 0#8 := by
    rw [hd]
    rfl
  have h₁₇ : byteAt f.data 17 = 20#8 := by
    rw [hd]
    rfl
  simp only [headerOk, headerLen, getBe16, hl, h₁₄, h₁₆, h₁₇]
  decide

theorem dst (h : HasPacket d f) : getBe32 f.data 30 = getBe32 (packetTo d) 30 := by
  obtain ⟨-, rest, hd⟩ := h
  rw [hd]
  rfl

theorem etherType (h : HasPacket d f) : getBe16 f.data 12 = etherTypeIp := by
  obtain ⟨-, rest, hd⟩ := h
  have h₁₂ : byteAt f.data 12 = 8#8 := by
    rw [hd]
    rfl
  have h₁₃ : byteAt f.data 13 = 0#8 := by
    rw [hd]
    rfl
  rw [getBe16, h₁₂, h₁₃]
  decide

theorem ttl (h : HasPacket d f) : byteAt f.data 22 = 64#8 := by
  obtain ⟨-, rest, hd⟩ := h
  rw [hd]
  rfl

end HasPacket

/-! ### One thread at work -/

/-- The configuration of the router: the interface 10.0.0.1/24, and nothing else. -/
structure Lan (s : Plane) : Prop where
  ifaces : s.ifaces = [.lan]
  rules : s.rules = []
  stop : s.stop = false
  isOpen : s.queue.shutdown = false

/-- The tables of the LAN stay as they are. -/
theorem Lan.exec {s : Plane} (h : Lan s) {β : Type} (c : Cmd β) (e : Env) :
    Lan (LinuxRouter.exec c e s).2 := by
  cases c with
  | recvfrom b =>
      rw [LinuxRouter.exec]
      cases e.recv <;> exact ⟨h.ifaces, h.rules, h.stop, h.isOpen⟩
  | tpoolSubmit b =>
      refine ⟨h.ifaces, h.rules, h.stop, ?_⟩
      change (tpoolSubmit b s.queue).2.shutdown = false
      unfold tpoolSubmit
      split
      · split
        · exact h.isOpen
        · exact h.isOpen
      · exact h.isOpen
  | tpoolTake =>
      refine ⟨h.ifaces, h.rules, h.stop, ?_⟩
      change (tpoolTake s.queue).2.shutdown = false
      unfold tpoolTake
      split <;> exact h.isOpen
  | _ => exact ⟨h.ifaces, h.rules, h.stop, h.isOpen⟩

/-- The state while the thread `t` runs alone, with `g` in hand: `n` packets are parked, one for each
of the first hosts, and `tasks` are queued. -/
structure Desk (n : ℕ) (tasks : List Block) (t : Tid) (g : List Block) (G : Tid → List Block)
    (x : Tended) : Prop where
  inv : PlaneInv x.shared x.ghost
  within : retained x ≤ n
  parked : n ≤ x.shared.parkedCount
  keys : ∀ i, (x.shared.pend.node i).used = true → ∃ j < n, (x.shared.pend.node i).key = hostKey j
  lan : Lan x.shared
  arp : ∀ i, (x.shared.arp.entry i).used = false
  queue : QueueHolds x.shared.queue tasks
  hand : x.ghost t = g
  working : x.view t = g.head?
  others : ∀ u, u ≠ t → x.ghost u = G u

/-- What the thread does next keeps within the limit. -/
abbrev Work (t : Tid) (Q : α → Tended → Prop) (p : Act α) (x : Tended) : Prop :=
  May dataPlane tend (retainsWithin hosts) t Q p x

/-- The ARP table has its shape. -/
theorem PlaneInv.arpSane {s : Plane} {g : Tid → List Block} (h : PlaneInv s g) : ArpSane s.arp := by
  obtain ⟨_, _, _, _, h⟩ := h
  exact h.arp

/-- No host answers: the ARP table is empty. -/
theorem arpLookup_unused {t : ArpTable} (hs : ArpSane t) (h : ∀ i, (t.entry i).used = false) (now : ℕ)
    (k : Key) : arpLookup now k t = (none, t) := by
  obtain ⟨_, hr⟩ := hs.rep
  unfold arpLookup
  cases hw : t.walk k with
  | none => rfl
  | some i =>
      have hu := (hr.walk_eq_some.mp hw).1
      rw [h i] at hu
      cases hu

section Desk

variable {α β : Type} {n : ℕ} {tasks tasks' : List Block} {t : Tid} {g g' : List Block}
  {G : Tid → List Block} {x : Tended} {c : Cmd β} {k : β → Act α} {Q : α → Tended → Prop} {e : Env}

/-- A command that leaves the pending table alone. -/
theorem Desk.step (h : Desk n tasks t g G x) (hp : pre t c g x.shared)
    (htake : c.takes = true → g = []) (hr : retains c (exec c e x.shared).1 = false)
    (hpend : (exec c e x.shared).2.pend = x.shared.pend)
    (harp : (exec c e x.shared).2.arp = x.shared.arp)
    (hq : QueueHolds (exec c e x.shared).2.queue tasks')
    (hhand : hold c x.shared (exec c e x.shared).1 g = g')
    (hw : works c (exec c e x.shared).1 g.head? = g'.head?) :
    Desk n tasks' t g' G (Watched.exec dataPlane tend t c e x).2 := by
  obtain ⟨owner, order, chains, tasks₀, ho⟩ := h.inv
  have hp' : pre t c (x.ghost t) x.shared := h.hand.symm ▸ hp
  have hle := retained_exec (t := t) (c := c) (e := e) h.inv hp' fun hc => by rw [h.working, htake hc]; rfl
  rw [hr, if_neg Bool.false_ne_true, Nat.add_zero] at hle
  have hpend' : (Watched.exec dataPlane tend t c e x).2.shared.pend = x.shared.pend := hpend
  have harp' : (Watched.exec dataPlane tend t c e x).2.shared.arp = x.shared.arp := harp
  refine ⟨h.inv.exec e hp', hle.trans h.within, ?_, hpend' ▸ h.keys, h.lan.exec c e, harp' ▸ h.arp, hq,
    ?_, ?_, fun u hu => ?_⟩
  · exact h.parked.trans (parkedCount_of_pend ho hp' hpend).ge
  · rw [← hhand, ← h.hand]
    exact Function.update_self _ _ _
  · rw [← hw, ← h.working]
    exact Function.update_self _ _ _
  · exact (Function.update_of_ne hu _ _).trans (h.others u hu)

/-- Commands that only read. -/
def Cmd.reads {β : Type} : Cmd β → Bool
  | .load _ => true
  | .stop => true
  | .count _ => true
  | .ifaces => true
  | .fwCheck _ _ => true
  | .arpLookup _ => true
  | .pktSend _ _ => true
  | .mark _ => true
  | _ => false

theorem work_read (h : Desk n tasks t g G x) (hc : c.reads = true)
    (hk : ∀ x', Desk n tasks t g G x' → x'.shared.mem = x.shared.mem →
      Work t Q (k (exec c .packet x.shared).1) x') : Work t Q (.cmd c k) x := by
  have harp := fun now key => arpLookup_unused h.inv.arpSane h.arp now key
  refine ⟨.packet, ?_, hk _ ?_ ?_⟩
  · cases c <;> first | exact fun hr => absurd hr Bool.false_ne_true | cases hc
  · cases c with
    | arpLookup key =>
        refine h.step trivial (fun ht => by cases ht) rfl rfl ?_ h.queue rfl rfl
        simp only [exec, harp]
    | _ => first | exact h.step trivial (fun ht => by cases ht) rfl rfl rfl h.queue rfl rfl | cases hc
  · cases c <;> first | rfl | cases hc

/-- A write to the block in hand. -/
theorem work_write {b : Block} {w : Write} {k : Unit → Act α} (h : Desk n tasks t [b] G x)
    (hk : ∀ x', Desk n tasks t [b] G x' →
      x'.shared.mem = Function.update x.shared.mem b ((x.shared.mem b).write w) →
      Work t Q (k ()) x') : Work t Q (.cmd (.write b w) k) x :=
  ⟨.packet, fun hr => absurd hr Bool.false_ne_true,
    hk _ (h.step List.mem_cons_self (fun ht => nomatch ht) rfl rfl rfl h.queue rfl rfl) rfl⟩

/-- `malloc` has an address for a block. -/
theorem work_alloc {k : Option Block → Act α} (h : Desk n tasks t [] G x)
    (hk : ∀ b x', Desk n tasks t [b] G x' → x'.shared.mem.next b = none →
      Work t Q (k (some b)) x') : Work t Q (.cmd .mpAlloc k) x := by
  obtain ⟨a, ha⟩ := Infinite.exists_notMem_finset x.shared.pool.live.toFinset
  rw [List.mem_toFinset] at ha
  let e : Env := { Env.packet with heap := some a }
  obtain ⟨b, hb⟩ : ∃ b, (exec .mpAlloc e x.shared).1 = some b := by
    simp only [exec, mpAlloc, e]
    split
    · exact ⟨_, rfl⟩
    · exact ⟨.heap a, by simp [ha]⟩
  obtain ⟨owner, order, chains, tasks₀, ho⟩ := h.inv
  have hmem := (ho.pool.alloc (x := .queue) (by simp) hb).2.1
  refine ⟨e, fun hr => absurd hr Bool.false_ne_true, ?_⟩
  have hw : (Watched.exec dataPlane tend t .mpAlloc e x).1 = some b := hb
  rw [hw]
  refine hk b _ (h.step trivial (fun _ => rfl) rfl rfl rfl h.queue ?_ ?_) ?_
  · rw [hb]
    rfl
  · rw [hb]
    rfl
  · change (mpAlloc e.heap x.shared.pool x.shared.mem).2.2.next b = none
    rw [hmem, Mem.next, Function.update_self]
    rfl

theorem work_free {b : Block} {k : Unit → Act α} (h : Desk n tasks t [b] G x)
    (hk : ∀ x', Desk n tasks t [] G x' → Work t Q (k ()) x') : Work t Q (.cmd (.mpFree b) k) x :=
  ⟨.packet, fun hr => absurd hr Bool.false_ne_true,
    hk _ (h.step List.mem_cons_self (fun ht => nomatch ht) rfl rfl rfl h.queue
      (List.erase_cons_head ..) (if_pos rfl))⟩

/-- A packet comes in. -/
def rxTo (d : Byte) : Rx where
  bytes := packetTo d
  ne_nil := by simp [packetTo]
  le_payload := by simp [packetTo, mpPayload]
  outgoing := false
  ifindex := 1

theorem work_recv {b : Block} (d : Byte) {k : Option Rx → Act α} (h : Desk n tasks t [b] G x)
    (hk : ∀ x', Desk n tasks t [b] G x' → x'.shared.mem = Function.update x.shared.mem b
        ((x.shared.mem b).write (.data (blit (x.shared.mem b).data 0 (packetTo d)))) →
      Work t Q (k (some (rxTo d))) x') : Work t Q (.cmd (.recvfrom b) k) x :=
  ⟨{ Env.packet with recv := some (rxTo d) }, fun hr => absurd hr Bool.false_ne_true,
    hk _ (h.step List.mem_cons_self (fun ht => nomatch ht) rfl rfl rfl h.queue rfl rfl) rfl⟩

/-- A packet handed to the queue. -/
theorem work_submit {b : Block} {k : Bool → Act α} (h : Desk n tasks t [b] G x)
    (hn : x.shared.mem.next b = none) (hl : tasks.length < taskCap)
    (hk : ∀ x', Desk n (tasks ++ [b]) t [] G x' → x'.shared.mem = x.shared.mem →
      Work t Q (k true) x') : Work t Q (.cmd (.tpoolSubmit b) k) x := by
  have hok : (tpoolSubmit b x.shared.queue).1 = true := by
    have hc : x.shared.queue.count ≠ taskCap := by
      rw [← h.queue.length]
      omega
    simp [tpoolSubmit, hc, h.lan.isOpen]
  have hq := ((h.queue.submit b).resolve_left (by simp [hok])).2
  have ha : (exec (.tpoolSubmit b) .packet x.shared).1 = true := hok
  refine ⟨.packet, fun hr => absurd hr Bool.false_ne_true, ?_⟩
  have hw : (Watched.exec dataPlane tend t (.tpoolSubmit b) .packet x).1 = true := hok
  rw [hw]
  refine hk _ (h.step ⟨List.mem_cons_self, hn⟩ (fun ht => nomatch ht) rfl rfl rfl hq ?_ ?_) rfl
  · rw [ha]
    exact List.erase_cons_head ..
  · rw [ha]
    exact if_pos rfl

/-- A packet taken out of it. -/
theorem work_take {b : Block} {k : Dequeued → Act α} (h : Desk n (b :: tasks) t [] G x)
    (hk : ∀ x', Desk n tasks t [b] G x' → x'.shared.mem = x.shared.mem →
      x'.shared.mem.next b = none → Work t Q (k (.task (some b))) x') :
    Work t Q (.cmd .tpoolTake k) x := by
  obtain ⟨owner, order, chains, tasks₀, ho⟩ := h.inv
  have hnext : x.shared.mem.next b = none := by
    refine ho.next b ?_
    have := ho.queue.tasks.symm.trans h.queue.tasks
    rw [(Option.some_injective _).list_map this]
    exact List.mem_cons_self
  rcases h.queue.take with ⟨hq, hne⟩ | ⟨b', bs, hbs, hb, hq⟩
  · have hc : x.shared.queue.count ≠ 0 := by
      rw [← h.queue.length]
      simp
    simp [tpoolTake, hc] at hne
  · cases hbs
    have ha : (exec .tpoolTake .packet x.shared).1 = .task (some b) := hb
    refine ⟨.packet, fun hr => absurd hr Bool.false_ne_true, ?_⟩
    have hw : (Watched.exec dataPlane tend t .tpoolTake .packet x).1 = .task (some b) := hb
    rw [hw]
    refine hk _ (h.step trivial (fun _ => rfl) rfl rfl rfl hq ?_ ?_) rfl hnext
    · rw [ha]
      rfl
    · rw [ha]
      rfl

/-- Every used slot has a frame. -/
theorem exists_free_slot {s : Plane} {g : Tid → List Block} (ho : PlaneInv s g)
    (h : s.parkedCount < pendMax) : ∃ i, (s.pend.node i).used = false := by
  obtain ⟨owner, order, chains, tasks, ho⟩ := ho
  by_contra hall
  simp only [not_exists, Bool.not_eq_false] at hall
  have hone : ∀ i, 1 ≤ (chains i).length := fun i =>
    List.length_pos_iff.mpr (ho.rep.ne_nil i ((ho.rep.used i).mp (hall i)))
  have hsum : ∑ _i : Slot, 1 ≤ ∑ i, (chains i).length := Finset.sum_le_sum fun i _ => hone i
  have hcard : ∑ _i : Slot, 1 = pendMax := by simp
  rw [hcard, ← ho.parkedCount_eq] at hsum
  omega

/-- A frame for a new key goes into a free slot. -/
theorem Owned.enqueue_free {s : Plane} {g : Tid → List Block} {owner : Block → Place}
    {order : List Slot} {chains : Slot → List Block} {tasks : List Block} {key : Key} {b : Block}
    {i : Slot} (ho : Owned s g owner order chains tasks) (hp : pre t (.pendEnqueue key b) (g t) s)
    (hf : findPend s.pend key = none) (hu : (s.pend.node i).used = false) (e : Env) :
    (exec (.pendEnqueue key b) e s).1 = .created none ∧
      (exec (.pendEnqueue key b) e s).2.parkedCount = s.parkedCount + 1 ∧
      ∀ j, ((exec (.pendEnqueue key b) e s).2.pend.node j).used = true →
        ((exec (.pendEnqueue key b) e s).2.pend.node j).key = key ∨
          (s.pend.node j).used = true ∧
            ((exec (.pendEnqueue key b) e s).2.pend.node j).key = (s.pend.node j).key := by
  have ha : (pendEnqueue e.clock key b s.mem s.pend).1 = .created none :=
    pendEnqueue_of_free hf hu _ _ _
  obtain ⟨order', chains', hr, he⟩ :=
    enqueue_rep ho.rep (ho.notMem_chain hp.1) hp.2 (enqueue_step e.clock key b s.mem s.pend)
  have hcount : (exec (.pendEnqueue key b) e s).2.parkedCount = ∑ i, (chains' i).length :=
    Finset.sum_congr rfl fun i _ => congrArg List.length (hr.frames_eq i)
  have hused : ∀ j, ((exec (.pendEnqueue key b) e s).2.pend.node j).used = true ↔ j ∈ order' := hr.used
  have hkey : ∀ j, ((exec (.pendEnqueue key b) e s).2.pend.node j).key =
      (fun j => ((pendEnqueue e.clock key b s.mem s.pend).2.2.node j).key) j := fun _ => rfl
  refine ⟨ha, ?_⟩
  rw [ha] at he
  generalize (fun j => ((pendEnqueue e.clock key b s.mem s.pend).2.2.node j).key) = key' at he hkey
  cases he with
  | free i' hi' =>
      have hs := @sum_eq_of_ne _ _ _ (fun j => (chains j).length)
        (fun j => (Function.update chains i' [b] j).length) i' fun j hj =>
          congrArg List.length (Function.update_of_ne hj _ _)
      simp only [Function.update_self, ho.rep.idle i' hi', List.length_nil, List.length_singleton,
        Nat.add_zero] at hs
      refine ⟨by rw [hcount, hs, ho.parkedCount_eq], fun j hj => ?_⟩
      rw [hkey]
      by_cases e : j = i'
      · subst e
        exact .inl (Function.update_self _ _ _)
      · have hj := (List.mem_cons.mp ((hused j).mp hj)).resolve_left e
        exact .inr ⟨(ho.rep.used j).mpr hj, Function.update_of_ne e _ _⟩

/-- A packet for the next host is parked. -/
theorem work_enqueue {b : Block} {k : Enqueued → Act α} (h : Desk n tasks t [b] G x) (hn : n < hosts)
    (hb : x.shared.mem.next b = none)
    (hk : ∀ x', Desk (n + 1) tasks t [] G x' → Work t Q (k (.created none)) x') :
    Work t Q (.cmd (.pendEnqueue (hostKey n) b) k) x := by
  obtain ⟨owner, order, chains, tasks₀, ho⟩ := h.inv
  have hp : pre t (.pendEnqueue (hostKey n) b) (x.ghost t) x.shared := by
    rw [h.hand]
    exact ⟨List.mem_cons_self, hb⟩
  have hf : findPend x.shared.pend (hostKey n) = none := by
    refine ho.rep.findPend_eq_none.mpr fun i hi he => ?_
    obtain ⟨j, hj, hkey⟩ := h.keys i ((ho.rep.used i).mpr hi)
    have := hostKey_inj (hj.trans hn) hn (hkey.symm.trans he)
    omega
  have hfree : x.shared.parkedCount < pendMax := by
    have hle : x.shared.parkedCount ≤ n := (Nat.le_add_right _ _).trans h.within
    have hmax : hosts ≤ pendMax := by decide
    omega
  obtain ⟨i, hu⟩ := exists_free_slot h.inv hfree
  obtain ⟨ha, hcount, hkeys⟩ := ho.enqueue_free hp hf hu .packet
  have hret : retains (.pendEnqueue (hostKey n) b) (.created none) = true := rfl
  have hle := retained_exec (t := t) (c := .pendEnqueue (hostKey n) b) (e := .packet) h.inv hp
    fun ht => nomatch ht
  rw [ha, hret, if_pos rfl] at hle
  have hwithin := hle.trans (Nat.succ_le_succ h.within)
  have hw : (Watched.exec dataPlane tend t (.pendEnqueue (hostKey n) b) .packet x).1 =
      .created none := ha
  refine ⟨.packet, fun _ => lt_of_le_of_lt h.within hn, ?_⟩
  rw [hw]
  refine hk _ ⟨h.inv.exec .packet hp, hwithin, ?_, fun i hi => ?_, h.lan.exec _ _, h.arp, h.queue, ?_,
    ?_, fun u hu => ?_⟩
  · exact (Nat.succ_le_succ h.parked).trans hcount.ge
  · rcases hkeys i hi with hkey | ⟨hu, hkey⟩
    · exact ⟨n, by omega, hkey⟩
    · obtain ⟨m, hm, hkey'⟩ := h.keys i hu
      exact ⟨m, by omega, hkey.trans hkey'⟩
  · have hg : (Watched.exec dataPlane tend t (.pendEnqueue (hostKey n) b) .packet x).2.ghost t =
        hold (.pendEnqueue (hostKey n) b) x.shared
          (exec (.pendEnqueue (hostKey n) b) .packet x.shared).1 (x.ghost t) :=
      Function.update_self _ _ _
    rw [hg, ha, h.hand]
    exact List.erase_cons_head ..
  · have hv : (Watched.exec dataPlane tend t (.pendEnqueue (hostKey n) b) .packet x).2.view t =
        works (.pendEnqueue (hostKey n) b)
          (exec (.pendEnqueue (hostKey n) b) .packet x.shared).1 (x.view t) :=
      Function.update_self _ _ _
    rw [hv, ha, h.working]
    exact if_pos rfl
  · exact (Function.update_of_ne hu _ _).trans (h.others u hu)

/-! ### The rounds -/

/-- A request, which is sent and given back. -/
theorem work_arpRequest {key : Key} (h : Desk n tasks t [] G x) (hkey : key.2 = 1) :
    Work t (fun _ => Desk n tasks t [] G) (arpRequest key) x := by
  have hifs : (exec .ifaces .packet x.shared).1 = [.lan] := h.lan.ifaces
  have hi : ifaceByIndex [.lan] key.2 = some .lan := by
    rw [hkey]
    rfl
  simp only [arpRequest, Prog.perform_bind]
  refine work_read h rfl fun _ h _ => ?_
  rw [hifs, hi]
  refine work_alloc h fun b _ h _ => work_read h rfl fun _ h _ => ?_
  refine work_write h fun _ h _ => work_write h fun _ h _ => work_read h rfl fun _ h _ => ?_
  refine work_read h rfl fun _ h _ => work_read h rfl fun _ h _ => ?_
  exact work_free h fun _ h => h

/-- What a write at the front leaves behind it. -/
theorem blit_zero (p src : List Byte) : ∃ rest, blit p 0 src = src ++ rest :=
  ⟨p.drop (0 + src.length), by simp [blit]⟩

/-- The receive loop queues a packet. -/
theorem work_rxRound (d : Byte) (h : Desk n tasks t [] G x) (hl : tasks.length < taskCap) :
    Work t (fun r x' => r = some () ∧ ∃ b, Desk n (tasks ++ [b]) t [] G x' ∧
      HasPacket d (x'.shared.mem b)) rxRound x := by
  have hstop : (exec .stop .packet x.shared).1 = false := h.lan.stop
  simp only [rxRound, Prog.perform_bind]
  refine work_read h rfl fun _ h _ => ?_
  rw [hstop, if_neg Bool.false_ne_true]
  refine work_alloc h fun b x₂ h hnext => ?_
  refine work_recv d h fun x₃ h hm₃ => ?_
  refine May.bind ?_
  simp only [rxFrame, Prog.perform_bind]
  refine work_read h rfl fun x₄ h hm₄ => work_write h fun x₅ h hm₅ => ?_
  have hifs : (exec .ifaces .packet x₅.shared).1 = [.lan] := h.lan.ifaces
  refine work_read h rfl fun x₆ h hm₆ => ?_
  -- the block, as the receive loop leaves it
  have hb : x₆.shared.mem b = { x₂.shared.mem b with
      data := blit (x₂.shared.mem b).data 0 (packetTo d), len := 34 } := by
    rw [hm₆, hm₅, hm₄, hm₃]
    simp [FwdFrame.write, rxTo, packetTo]
  have hpacket : HasPacket d (x₆.shared.mem b) := by
    rw [hb]
    exact ⟨rfl, blit_zero _ _⟩
  have hours : ifaceMacIsOurs [.lan] (macAt (packetTo d) 6) = false := by rfl
  have hlen : (packetTo d).length = 34 := by simp [packetTo]
  rw [hifs, if_neg (by simp [rxTo, hours]), if_neg (by simp [rxTo, hlen])]
  simp only [rxDispatch, Prog.perform_bind]
  refine work_read h rfl fun x₇ h hm₇ => ?_
  have hload : (exec (.load b) .packet x₆.shared).1 = x₆.shared.mem b := rfl
  rw [hload, hpacket.etherType, if_neg (by decide), if_pos rfl]
  have hnext₇ : x₇.shared.mem.next b = none := by
    rw [hm₇, Mem.next, hb]
    exact hnext
  refine work_submit h hnext₇ hl fun x₈ h hm₈ => ?_
  rw [if_pos rfl]
  exact ⟨rfl, b, h, by rwa [hm₈, hm₇]⟩

/-- A worker parks a packet for the next host. -/
theorem work_workerRound {b : Block} (h : Desk n (b :: tasks) t [] G x) (hn : n < hosts)
    (hp : HasPacket (hostByte n) (x.shared.mem b)) :
    Work t (fun r x' => r = some () ∧ Desk (n + 1) tasks t [] G x') workerRound x := by
  simp only [workerRound, Prog.perform_bind]
  refine work_take h fun x₁ h hm₁ hnext => May.bind ?_
  simp only [forwardTask, Prog.perform_bind]
  refine work_read h rfl fun x₂ h₂ hm₂ => ?_
  have hload : (exec (.load b) .packet x₁.shared).1 = x.shared.mem b := congrFun hm₁ b
  rw [hload, hp.header, if_neg (by simp)]
  refine work_read h₂ rfl fun x₃ h hm₃ => ?_
  have hfw : (exec (.fwCheck (x.shared.mem b).data (x.shared.mem b).len) .packet x₂.shared).1 ≠ fwDrop := by
    simp only [exec, fwCheck, h₂.lan.rules, List.find?_nil]
    decide
  rw [if_neg hfw]
  refine work_read h rfl fun x₄ h₄ hm₄ => ?_
  have hifs : (exec .ifaces .packet x₃.shared).1 = [.lan] := h.lan.ifaces
  have hdst : getBe32 (x.shared.mem b).data 30 = (hostKey n).1 := hp.dst
  rw [hifs, hdst, (host_onLink hn).1, if_neg Bool.false_ne_true]
  refine work_read h₄ rfl fun x₅ h hm₅ => ?_
  have hifs : (exec .ifaces .packet x₄.shared).1 = [.lan] := h₄.lan.ifaces
  have hfind : List.find? (·.covers (hostKey n).1) [Iface.lan] = some .lan :=
    List.find?_cons_of_pos (host_onLink hn).2
  have hkey : ((hostKey n).1, Iface.lan.ifindex) = hostKey n := rfl
  rw [hifs, hfind]
  simp only [hkey, forwardTo, Prog.perform_bind]
  rw [if_neg (by rw [hp.ttl]; decide)]
  refine work_write h fun x₆ h hm₆ => ?_
  have harp : (exec (.arpLookup (hostKey n)) .packet x₆.shared).1 = none :=
    congrArg Prod.fst (arpLookup_unused h.inv.arpSane h.arp _ _)
  refine work_read h rfl fun x₇ h hm₇ => ?_
  rw [harp]
  refine May.bind ?_
  simp only [pendEnqueueFrame, Prog.perform_bind]
  have hnext₇ : x₇.shared.mem.next b = none := by
    rw [hm₇, hm₆, Mem.next, Function.update_self, FwdFrame.next_write, hm₅, hm₄, hm₃, hm₂]
    exact hnext
  refine work_enqueue h hn hnext₇ fun x₈ h => ?_
  exact (work_arpRequest h rfl).mono fun _ _ h => ⟨rfl, h⟩

end Desk

/-! ### The run -/

/-- Between two rounds: `n` packets are parked and `tasks` queued, the first `h` workers have a packet
in hand, and the timer a block for an ARP request. -/
structure Stage (n : ℕ) (tasks : List Block) (h : ℕ) (y : Config (By Tid Cmd) Tended Tid Tid Unit) :
    Prop where
  reach : Reach (dataPlane.watched tend) (retainsWithin hosts) Plane.lan.tended y
  desk : Desk n tasks .rx [] y.shared.ghost y.shared
  rx : y.thread .rx = .idle ()
  idle : ∀ i : Fin poolThreads, h ≤ i → y.thread (.worker i) = .idle () ∧ y.shared.ghost (.worker i) = []
  busy : ∀ i : Fin poolThreads, i < h → (y.shared.ghost (.worker i)).length = 1
  timer : (y.shared.ghost .timer).length = 1

/-- Another thread's turn. -/
theorem Desk.switch {n : ℕ} {tasks : List Block} {t u : Tid} {g : List Block} {G : Tid → List Block}
    {x : Tended} (h : Desk n tasks t g G x) (hg : x.ghost u = []) (hv : x.view u = none) :
    Desk n tasks u [] x.ghost x :=
  { h with hand := hg, working := hv, others := fun _ _ => rfl }

namespace Stage

variable {n h : ℕ} {tasks : List Block} {b : Block} {y : Config (By Tid Cmd) Tended Tid Tid Unit}

/-- The receive loop queues a packet. -/
theorem receive (s : Stage n tasks h y) (d : Byte) (hl : tasks.length < taskCap) :
    ∃ z b, Stage n (tasks ++ [b]) h z ∧ HasPacket d (z.shared.shared.mem b) := by
  obtain ⟨r, z, hz, ht, rfl, b, hd, hp⟩ := (work_rxRound d s.desk hl).round s.rx
  refine ⟨z, b, ⟨s.reach.trans hz, { hd with others := fun _ _ => rfl }, ?_, fun i hi => ?_, fun i hi => ?_,
    ?_⟩, hp⟩
  · rw [ht]
    exact Function.update_self _ _ _
  · rw [ht, Function.update_of_ne (by simp), hd.others _ (by simp)]
    exact s.idle i hi
  · rw [hd.others _ (by simp)]
    exact s.busy i hi
  · rw [hd.others _ (by simp)]
    exact s.timer

/-- The first worker parks a packet. -/
theorem park (s : Stage n [b] 0 y) (hn : n < hosts)
    (hp : HasPacket (hostByte n) (y.shared.shared.mem b)) : ∃ z, Stage (n + 1) [] 0 z := by
  let w : Tid := .worker ⟨0, by decide⟩
  obtain ⟨hidle, hg⟩ := s.idle ⟨0, by decide⟩ (Nat.zero_le _)
  have hd := s.desk.switch (u := w) hg (idle_works_none s.reach hidle)
  obtain ⟨r, z, hz, ht, rfl, hd⟩ := (work_workerRound hd hn hp).round hidle
  refine ⟨z, s.reach.trans hz, ?_, ?_, fun i hi => ?_, fun i hi => absurd hi (Nat.not_lt_zero _), ?_⟩
  · have hrx : z.thread .rx = .idle () := by
      rw [ht, Function.update_of_ne (by simp [w])]
      exact s.rx
    refine hd.switch ?_ (idle_works_none (s.reach.trans hz) hrx)
    rw [hd.others _ (by simp [w])]
    exact s.desk.hand
  · rw [ht, Function.update_of_ne (by simp [w])]
    exact s.rx
  · by_cases e : Tid.worker i = w
    · rw [e, ht]
      exact ⟨Function.update_self _ _ _, hd.hand⟩
    · rw [ht, Function.update_of_ne e, hd.others _ e]
      exact s.idle i hi
  · rw [hd.others _ (by simp [w])]
    exact s.timer

/-- The next worker takes a packet. -/
theorem take (s : Stage n (b :: tasks) h y) (hh : h < poolThreads) : ∃ z, Stage n tasks (h + 1) z := by
  let w : Tid := .worker ⟨h, hh⟩
  obtain ⟨hidle, hg⟩ := s.idle ⟨h, hh⟩ (Nat.le_refl _)
  have hd := s.desk.switch (u := w) hg (idle_works_none s.reach hidle)
  have hm : Work w (fun _ => Desk n tasks w [b] y.shared.ghost) (.perform .tpoolTake) y.shared :=
    work_take hd fun _ hd _ _ => hd
  obtain ⟨a, z, hz, ht, hd⟩ := hm.start hidle rfl
  have hrx : z.thread .rx = .idle () := by
    rw [ht, Function.update_of_ne (by simp [w])]
    exact s.rx
  refine ⟨z, s.reach.trans hz, ?_, hrx, fun i hi => ?_, fun i hi => ?_, ?_⟩
  · refine hd.switch ?_ (idle_works_none (s.reach.trans hz) hrx)
    rw [hd.others _ (by simp [w])]
    exact s.desk.hand
  · have e : Tid.worker i ≠ w := by
      intro e
      cases Tid.worker.inj e
      exact absurd hi (Nat.not_succ_le_self _)
    rw [ht, Function.update_of_ne e, hd.others _ e]
    exact s.idle i (Nat.le_of_succ_le hi)
  · by_cases e : Tid.worker i = w
    · rw [e, hd.hand]
      rfl
    · rw [hd.others _ e]
      exact s.busy i (Nat.lt_of_le_of_ne (Nat.le_of_lt_succ hi) fun hi => e (by subst hi; rfl))
  · rw [hd.others _ (by simp [w])]
    exact s.timer

end Stage

/-- The first packet is parked, and the timer is about to ask for its next hop. -/
def firstPacket : Config (By Tid Cmd) Tended Tid Tid Unit :=
  Program.play (dataPlane.watched tend) (parkPacket ++ List.replicate 7 (.timer, .packet))
    Plane.lan.tended

/-- A schedule leaves the configuration alone. -/
theorem Lan.play (w : List (Tid × Env)) {x : Config (By Tid Cmd) Tended Tid Tid Unit}
    (h : Lan x.shared.shared) :
    Lan (Program.play (dataPlane.watched tend) w x : Config (By Tid Cmd) Tended Tid Tid Unit).shared.shared :=
  Program.play_keeps (M := dataPlane.watched tend) (P := fun x => Lan x.shared)
    (fun _ c e _ hx => hx.exec c.cmd e) w h

instance retainsWithin.decidable (limit : ℕ) :
    ∀ (β : Type) (t : Tid) (c : By Tid Cmd β) (e : Env) (x : Tended),
      Decidable (retainsWithin limit t c e x) := fun _ _ c e x =>
  inferInstanceAs (Decidable (c.cmd.mayRetain e x.shared = true → retained x < limit))

theorem firstPacket_reach :
    Reach (dataPlane.watched tend) (retainsWithin hosts) Plane.lan.tended firstPacket :=
  Program.PlayOk.reach (by decide +kernel)

theorem firstPacket_stage : Stage 1 [] 0 firstPacket := by
  have hlan : Lan firstPacket.shared.shared := by
    rw [firstPacket]
    exact Lan.play _ ⟨rfl, rfl, rfl, rfl⟩
  have hidle : ∀ i : Fin poolThreads, (firstPacket.thread (.worker i)).isIdle = true ∧
      firstPacket.shared.ghost (.worker i) = [] := by decide +kernel
  have hrx : (firstPacket.thread .rx).isIdle = true := by decide +kernel
  have hq : firstPacket.shared.shared.queue.count = 0 := by decide +kernel
  have hused : ∀ i, (firstPacket.shared.shared.pend.node i).used = true →
      (firstPacket.shared.shared.pend.node i).key = hostKey 0 := by decide +kernel
  refine ⟨firstPacket_reach, ?_, ?_, fun i _ => ⟨?_, (hidle i).2⟩,
    fun i hi => absurd hi (Nat.not_lt_zero _), by decide +kernel⟩
  · exact {
      inv := tended_inv firstPacket_reach
      within := by decide +kernel
      parked := by decide +kernel
      keys := fun i hi => ⟨0, Nat.one_pos, hused i hi⟩
      lan := hlan
      arp := by decide +kernel
      queue := ⟨by simp [TaskQueue.tasks, hq], by decide +kernel, by rw [hq]; exact Nat.zero_le _⟩
      hand := by decide +kernel
      working := by decide +kernel
      others := fun _ _ => rfl }
  · obtain ⟨⟨⟩, h⟩ := Program.Thread.isIdle_iff.mp hrx
    exact h
  · obtain ⟨⟨⟩, h⟩ := Program.Thread.isIdle_iff.mp (hidle i).1
    exact h

/-- A packet for each of the first hosts is parked. -/
theorem exists_parked {n : ℕ} (h : 1 ≤ n) (hn : n ≤ hosts) : ∃ y, Stage n [] 0 y := by
  induction n, h using Nat.le_induction with
  | base => exact ⟨_, firstPacket_stage⟩
  | succ n _ ih =>
      obtain ⟨y, s⟩ := ih (Nat.le_of_succ_le hn)
      obtain ⟨z, b, s, hp⟩ := s.receive (hostByte n) (by decide)
      exact s.park hn hp

/-- Then workers take packets. -/
theorem exists_busy {h : ℕ} (hh : h ≤ poolThreads) : ∃ y, Stage hosts [] h y := by
  induction h with
  | zero => exact exists_parked (by decide) (Nat.le_refl _)
  | succ h ih =>
      obtain ⟨y, s⟩ := ih (Nat.le_of_succ_le hh)
      obtain ⟨z, b, s, -⟩ := s.receive 2 (by decide)
      exact s.take hh

/-- Then the queue fills. -/
theorem exists_full {k : ℕ} (hk : k ≤ taskCap) :
    ∃ y tasks, Stage hosts tasks poolThreads y ∧ tasks.length = k := by
  induction k with
  | zero =>
      obtain ⟨y, s⟩ := exists_busy (Nat.le_refl _)
      exact ⟨y, [], s, rfl⟩
  | succ k ih =>
      obtain ⟨y, tasks, s, hl⟩ := ih (Nat.le_of_succ_le hk)
      obtain ⟨z, b, s, -⟩ := s.receive 2 (hl ▸ hk)
      exact ⟨z, tasks ++ [b], s, by rw [List.length_append, hl, List.length_singleton]⟩

/-- **A run that exhausts the arena.**  The receive loop takes one block more. -/
theorem exists_exhausted : ∃ y, Reach (dataPlane.watched tend) (retainsWithin hosts) Plane.lan.tended y ∧
    mpCount < held y.shared.shared y.shared.ghost := by
  obtain ⟨y, tasks, s, hl⟩ := exists_full (Nat.le_refl _)
  have hstop : (exec .stop .packet y.shared.shared).1 = false := s.desk.lan.stop
  have hm : Work .rx (fun stop x => stop = false ∧ Desk hosts tasks .rx [] y.shared.ghost x)
      (.perform .stop) y.shared :=
    work_read s.desk rfl fun _ hd _ => ⟨hstop, hd⟩
  obtain ⟨_, y₁, hy₁, ht₁, rfl, hd⟩ := hm.start s.rx rfl
  have hm : Work .rx (fun _ x => ∃ b, Desk hosts tasks .rx [b] y.shared.ghost x)
      (.perform .mpAlloc) y₁.shared :=
    work_alloc hd fun b _ hd _ => ⟨b, hd⟩
  obtain ⟨_, z, hz, -, b, hd⟩ := hm.run (by rw [ht₁]; exact Function.update_self _ _ _)
  refine ⟨z, (s.reach.trans hy₁).trans hz, ?_⟩
  -- every thread has one block in hand
  have hhand : ∀ t, (z.shared.ghost t).length = 1 := by
    intro t
    rcases t with _ | _ | i
    · rw [hd.hand]
      rfl
    · rw [hd.others _ (by simp)]
      exact s.timer
    · rw [hd.others _ (by simp)]
      exact s.busy i i.2
  have hsum : ∑ t, (z.shared.ghost t).length = poolThreads + 2 :=
    (Finset.sum_congr rfl fun t _ => hhand t).trans sum_tid
  have hcount : taskCap + hosts + (poolThreads + 2) = mpCount + 1 := by decide
  have hparked := hd.parked
  rw [held, hsum, ← hd.queue.length, hl]
  omega

/-- **The limit is exact.**  The arena suffices in every run in which frames are parked, and blocks
lost, only while fewer than `limit` are retained, if and only if `limit` is `arenaSpare` at most. -/
theorem arena_suffices_iff (limit : ℕ) :
    (∀ ifs routes rules proxy clz0 m y,
      Reach (dataPlane.watched tend) (retainsWithin limit)
        (Plane.init ifs routes rules proxy clz0 m).tended y →
      ArenaSuffices y.shared.shared y.shared.ghost) ↔ limit ≤ arenaSpare := by
  constructor
  · intro h
    by_contra hlt
    obtain ⟨y, hy, hheld⟩ := exists_exhausted
    have hy : Reach (dataPlane.watched tend) (retainsWithin limit) Plane.lan.tended y :=
      hy.mono fun _ _ _ _ _ hx hr => (hx hr).trans_le (Nat.succ_le_of_lt (Nat.lt_of_not_le hlt))
    exact absurd (h _ _ _ _ _ _ y hy).held (Nat.not_le_of_lt hheld)
  · intro hlimit ifs routes rules proxy clz0 m y hy
    have hy : Reach (dataPlane.watched tend) (retainsWithin arenaSpare)
        (Plane.init ifs routes rules proxy clz0 m).tended y :=
      hy.mono fun _ _ _ _ _ hx hr => (hx hr).trans_le hlimit
    obtain ⟨hr, hf⟩ := arena_suffices hy
    have hheld := held_le (tended_inv hy)
    have hcount : taskCap + arenaSpare + (poolThreads + 2) = mpCount := by decide
    exact ⟨by omega, hf⟩

/-- **The arena does not suffice** in every run: packets for 251 hosts that do not answer are parked,
the queue is full, every worker has a packet in hand and the timer an ARP request, and the receive loop
takes one block more, of the heap. -/
theorem arena_exhausted :
    ¬ ∀ y, Reach dataPlane Program.anyStep Plane.lan.start y → ArenaSuffices y.shared y.ghost := by
  intro h
  obtain ⟨z, hz, hheld⟩ := exists_exhausted
  obtain ⟨y, v, rfl, hy⟩ := Program.watched_run (fun _ t c e x _ => recvOk_false t c e x.shared) hz
  have hy : Reach dataPlane Program.anyStep Plane.lan.start y :=
    hy.mono fun _ _ _ _ _ _ => trivial
  exact absurd (h y hy).held (Nat.not_le_of_lt hheld)

end LinuxRouter
