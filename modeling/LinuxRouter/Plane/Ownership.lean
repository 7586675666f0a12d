import LinuxRouter.Plane.Discipline

/-!
# Plane — every block has one owner

`Goes t ν g p g'` is the judgment on a program of thread `t`: with the blocks `g` in hand, whose
`next` fields are `ν`, it keeps the discipline, and ends with `g'` in hand, their `next` fields
untouched.  There is one rule for each kind of command that moves a block, and one lemma for each
function of the source: `forward_send`, `forward_task` and `arp_handle_frame` give up the frame they
are called with and nothing else, and `arp_request`, `forward_flush_pending` and `pend_tick` end with
what they started with.

The receive loop does not: when `recvfrom` returns 0 or less, the block stays in hand.  Headline:
`single_ownership`, for the runs in which it does not, with the counterexample
`rx_loop_leaks`.

The judgment is put together along a program, command by command: a command may take blocks out of
the thread's hands or put one in, and the rule for it says what the thread must have for that, and
what it has afterwards.  That the others leave the rest alone is the discipline's part, so that the
lemmas about the functions read like those about a sequential program.  A branch of a function ends
with the frame given up or the proof does not go through; that is how the one branch was found that
keeps it.
-/

namespace LinuxRouter

open Linked (IsChain)
open Program (Prog Config Discipline)

/-! ### The commands of a function -/

/-- The commands of `arp_request`. -/
theorem arpRequest_every {P : ∀ ⦃β : Type⦄, Cmd β → Prop} (hi : P .ifaces) (ha : P .mpAlloc)
    (hl : ∀ b, P (.load b)) (hw : ∀ b w, P (.write b w)) (hm : ∀ k, P (.mark (.request k)))
    (hs : ∀ f i, P (.pktSend f i)) (hc : ∀ c, P (.count c)) (hf : ∀ b, P (.mpFree b)) (k : Key) :
    (arpRequest k).Every P := by
  refine Prog.every_step hi fun ifs => ?_
  split
  · trivial
  · refine Prog.every_step ha fun blk => ?_
    split
    · trivial
    · exact Prog.every_step (hl _) fun _ => Prog.every_step (hw _ _) fun _ =>
        Prog.every_step (hw _ _) fun _ => Prog.every_step (hm k) fun _ =>
        Prog.every_step (hs _ _) fun _ => Prog.every_step (hc _) fun _ => Prog.every_last (hf _)

/-- The commands with which the ARP handler decides whose address it was asked for. -/
theorem arpOurs_every {P : ∀ ⦃β : Type⦄, Cmd β → Prop} (hi : P .ifaces) (hp : P .arpProxy)
    (hr : ∀ d, P (.routeLookup d)) (tpa : Ip) : (arpOurs tpa).Every P := by
  refine Prog.every_step hi fun ifs => ?_
  split
  · trivial
  · refine Prog.every_step hp fun proxy => ?_
    split
    · refine Prog.every_step (hr tpa) fun rt => ?_
      split
      · trivial
      · split
        · exact Prog.every_step hi fun _ => trivial
        · trivial
    · trivial

/-- The commands with which `pend_tick` counts what it drops. -/
theorem countExpired_every {P : ∀ ⦃β : Type⦄, Cmd β → Prop} (hc : ∀ c, P (.count c))
    (evs : List Evicted) : (countExpired evs).Every P := by
  induction evs with
  | nil => trivial
  | cons ev evs ih => exact Prog.every_step (hc _) fun _ => Prog.every_step (hc _) fun _ => ih

/-! ### The judgment -/

/-- The `next` fields of the blocks in hand. -/
def At (ν : Block → Option Block) (g : List Block) (s : Plane) : Prop :=
  ∀ b ∈ g, s.mem.next b = ν b

variable {strict : Bool} {t : Tid} {ν : Block → Option Block} {g g' : List Block} {α β : Type}
  {b : Block}

/-- From `g` in hand, the program leads to `g'`. -/
def Goes (strict : Bool) (t : Tid) (ν : Block → Option Block) (g : List Block) (p : Act α)
    (g' : List Block) : Prop :=
  ∀ s, At ν g s → (discipline strict).Ok t (fun _ h s' => h = g' ∧ At ν g' s') p g s

/-- A command that is quiet, whatever the program has to end in. -/
theorem ok_quiet {Q : α → List Block → Plane → Prop} {c : Cmd β} {k : β → Act α} {s : Plane}
    (hc : c.quiet = true) (hs : At ν g s) (hp : ∀ s, pre t c g s)
    (hk : ∀ a s', At ν g s' → (discipline strict).Ok t Q (k a) g s') :
    (discipline strict).Ok t Q (.cmd c k) g s := by
  intro s' hr _
  refine ⟨hp s', fun e _ => ?_⟩
  have hh : dataPlane.hold c s' (exec c e s').1 g = g := hold_of_quiet hc _ _ _
  change (discipline strict).Ok t _ (k (exec c e s').1)
    (dataPlane.hold c s' (exec c e s').1 g) (exec c e s').2
  rw [hh]
  refine hk _ _ fun b hb => ?_
  rw [next_of_quiet hc]
  exact (hr b hb).trans (hs b hb)

/-- A new block comes with a null `next`. -/
theorem ok_alloc {Q : α → List Block → Plane → Prop} {k : Option Block → Act α} {s : Plane}
    (hs : At ν g s) (hn : ∀ s', At ν g s' → (discipline strict).Ok t Q (k none) g s')
    (hk : ∀ b s', b ∉ g → At (Function.update ν b none) (b :: g) s' →
      (discipline strict).Ok t Q (k (some b)) (b :: g) s') :
    (discipline strict).Ok t Q (.cmd .mpAlloc k) g s := by
  rintro s' hr ⟨gs, u, rfl, owner, order, chains, tasks, ho⟩
  refine ⟨trivial, fun e _ => ?_⟩
  have hs' : At ν (gs u) s' := fun b hb => (hr b hb).trans (hs b hb)
  change (discipline strict).Ok t _ (k (mpAlloc e.heap s'.pool s'.mem).1)
    (hold .mpAlloc s' (mpAlloc e.heap s'.pool s'.mem).1 (gs u)) (exec .mpAlloc e s').2
  cases hb : (mpAlloc e.heap s'.pool s'.mem).1 with
  | none =>
      refine hn _ fun c hc => ?_
      simp only [exec]
      rw [(ho.pool.alloc_none hb).1]
      exact hs' c hc
  | some b =>
      obtain ⟨hf, hm, -⟩ := ho.pool.alloc (x := .queue) (by simp) hb
      refine hk b _ (fun h => ho.owner_ne_free h hf) fun c hc => ?_
      simp only [exec, hm]
      by_cases e' : c = b
      · subst e'
        simp [Mem.next, FwdFrame.fresh]
      · have hc := (List.mem_cons.mp hc).resolve_left e'
        simpa [Mem.next, e'] using hs' c hc

namespace Goes

theorem ret (a : α) : Goes strict t ν g (.ret a) g :=
  fun _ hs _ hr _ => ⟨rfl, fun b hb => (hr b hb).trans (hs b hb)⟩

theorem bind {h : List Block} {p : Act α} {f : α → Act β} (hp : Goes strict t ν g p h)
    (hf : ∀ a, Goes strict t ν h (f a) g') : Goes strict t ν g (p >>= f) g' := by
  intro s hs
  refine Discipline.Ok.bind ((hp s hs).mono ?_)
  rintro a _ s' ⟨rfl, hs'⟩
  exact hf a s' hs'

/-- A command that moves no block. -/
theorem quiet {c : Cmd β} {k : β → Act α} (hc : c.quiet = true) (hp : ∀ s, pre t c g s)
    (hk : ∀ a, Goes strict t ν g (k a) g') : Goes strict t ν g (.cmd c k) g' :=
  fun _ hs => ok_quiet hc hs hp fun a s' hs' => hk a s' hs'

/-- A program that moves no block. -/
theorem of_every {p : Act α} (hp : p.Every fun _ c => c.quiet = true ∧ ∀ s, pre t c g s) :
    Goes strict t ν g p g := by
  induction p with
  | ret a => exact ret _
  | cmd c k ih => exact quiet hp.1.1 hp.1.2 fun a => ih a (hp.2 a)

theorem free {k : Unit → Act α} (hb : b ∈ g) (hk : Goes strict t ν (g.erase b) (k ()) g') :
    Goes strict t ν g (.cmd (.mpFree b) k) g' := by
  intro s hs s' hr _
  refine ⟨hb, fun e _ => ?_⟩
  refine hk _ fun c hc => ?_
  have hc := List.mem_of_mem_erase hc
  exact (hr c hc).trans (hs c hc)

theorem alloc {k : Option Block → Act α} (hg : ∀ b ∈ g', b ∈ g)
    (hn : Goes strict t ν g (k none) g')
    (hk : ∀ b, b ∉ g → Goes strict t (Function.update ν b none) (b :: g) (k (some b)) g') :
    Goes strict t ν g (.cmd .mpAlloc k) g' := by
  refine fun s hs => ok_alloc hs hn fun b s' hb hs' => (hk b hb s' hs').mono ?_
  rintro _ _ s'' ⟨rfl, h⟩
  refine ⟨rfl, fun c hc => ?_⟩
  have e' : c ≠ b := fun e => hb (e ▸ hg c hc)
  simpa [e'] using h c hc

/-- A refused submission leaves the block in hand. -/
theorem submit {k : Bool → Act α} (hb : b ∈ g) (hn : ν b = none)
    (hk : Goes strict t ν (g.erase b) (k true) g') (hf : Goes strict t ν g (k false) g') :
    Goes strict t ν g (.cmd (.tpoolSubmit b) k) g' := by
  intro s hs s' hr _
  have hs' : At ν g s' := fun b hb => (hr b hb).trans (hs b hb)
  refine ⟨⟨hb, (hs' b hb).trans hn⟩, fun e _ => ?_⟩
  change (discipline strict).Ok t _ (k (tpoolSubmit b s'.queue).1)
    (hold (.tpoolSubmit b) s' (tpoolSubmit b s'.queue).1 g) (exec (.tpoolSubmit b) e s').2
  cases (tpoolSubmit b s'.queue).1 with
  | true => exact hk _ fun c hc => hs' c (List.mem_of_mem_erase hc)
  | false => exact hf _ hs'

/-- A worker takes a block with a null `next`. -/
theorem take {k : Dequeued → Act α} (hg : ∀ b ∈ g', b ∈ g) (hw : Goes strict t ν g (k .wait) g')
    (he : Goes strict t ν g (k .exit) g')
    (hk : ∀ b, b ∉ g → Goes strict t (Function.update ν b none) (b :: g) (k (.task (some b))) g') :
    Goes strict t ν g (.cmd .tpoolTake k) g' := by
  rintro s hs s' hr ⟨gs, u, rfl, owner, order, chains, tasks, ho⟩
  refine ⟨trivial, fun e _ => ?_⟩
  have hs' : At ν (gs u) s' := fun b hb => (hr b hb).trans (hs b hb)
  change (discipline strict).Ok t _ (k (tpoolTake s'.queue).1)
    (hold .tpoolTake s' (tpoolTake s'.queue).1 (gs u)) (exec .tpoolTake e s').2
  rcases ho.queue.take with ⟨-, hne⟩ | ⟨b, bs, rfl, hb, -⟩
  · cases hd : (tpoolTake s'.queue).1 with
    | wait => exact hw _ hs'
    | exit => exact he _ hs'
    | task o => exact absurd hd (hne o)
  · rw [hb]
    have hbq := ho.mem_tasks.mp (by simp : b ∈ b :: bs)
    have hbg : b ∉ gs u := by
      intro h
      rw [ho.mem_thread, hbq] at h
      cases h
    refine (hk b hbg _ fun c hc => ?_).mono ?_
    · change s'.mem.next c = _
      by_cases e' : c = b
      · subst e'
        simpa using ho.next c (by simp)
      · have hc := (List.mem_cons.mp hc).resolve_left e'
        simpa [e'] using hs' c hc
    · rintro _ _ s'' ⟨rfl, h⟩
      refine ⟨rfl, fun c hc => ?_⟩
      have e' : c ≠ b := fun e => hbg (e ▸ hg c hc)
      simpa [e'] using h c hc

/-- A frame that joins a chain or starts one leaves the hand. -/
theorem enqueue {k : Enqueued → Act α} {key : Key} (hb : b ∈ g) (hn : ν b = none)
    (hj : Goes strict t ν (g.erase b) (k .joined) g')
    (hc : ∀ ev, Goes strict t ν (g.erase b) (k (.created ev)) g')
    (hf : Goes strict t ν g (k .full) g') (hs : Goes strict t ν g (k .noSlot) g') :
    Goes strict t ν g (.cmd (.pendEnqueue key b) k) g' := by
  rintro s hs₀ s' hr ⟨gs, u, rfl, owner, order, chains, tasks, ho⟩
  have hs' : At ν (gs u) s' := fun b hb => (hr b hb).trans (hs₀ b hb)
  refine ⟨⟨hb, (hs' b hb).trans hn⟩, fun e _ => ?_⟩
  change (discipline strict).Ok t _ (k (pendEnqueue e.clock key b s'.mem s'.pend).1)
    (hold (.pendEnqueue key b) s' (pendEnqueue e.clock key b s'.mem s'.pend).1 (gs u))
    (exec (.pendEnqueue key b) e s').2
  have hstep := enqueue_step e.clock key b s'.mem s'.pend
  have hnext : ∀ c ∈ (gs u).erase b, (exec (.pendEnqueue key b) e s').2.mem.next c = ν c := by
    intro c hc
    obtain ⟨hcb, hc⟩ := (ho.nodup_thread u).mem_erase_iff.mp hc
    exact (hstep.next_ne hcb).trans (hs' c hc)
  have hsame : ∀ r, (pendEnqueue e.clock key b s'.mem s'.pend).1 = r → r = .full ∨ r = .noSlot →
      At ν (gs u) (exec (.pendEnqueue key b) e s').2 := by
    intro r hr hor c hc
    simp only [exec, hstep.mem_eq (hr ▸ hor)]
    exact hs' c hc
  cases hr : (pendEnqueue e.clock key b s'.mem s'.pend).1 with
  | joined => exact hj _ hnext
  | created ev => exact hc ev _ hnext
  | full => exact hf _ (hsame _ hr (.inl rfl))
  | noSlot => exact hs _ (hsame _ hr (.inr rfl))

/-- A detached chain comes into the hand. -/
theorem detach {k : Option (Option Block) → Act α} {key : Key} (hg : ∀ b ∈ g', b ∈ g)
    (hn : Goes strict t ν g (k none) g')
    (hk : ∀ ν' h bs, IsChain ν' h bs → bs.length ≤ pendChainMax → (bs ++ g).Nodup →
      Goes strict t ν' (bs ++ g) (k (some h)) g') :
    Goes strict t ν g (.cmd (.pendDetach key) k) g' := by
  rintro s hs s' hr ⟨gs, u, rfl, owner, order, chains, tasks, ho⟩
  refine ⟨trivial, fun e _ => ?_⟩
  have hs' : At ν (gs u) s' := fun b hb => (hr b hb).trans (hs b hb)
  change (discipline strict).Ok t _ (k (pendDetach key s'.pend).1)
    (hold (.pendDetach key) s' (pendDetach key s'.pend).1 (gs u)) (exec (.pendDetach key) e s').2
  cases hf : findPend s'.pend key with
  | none =>
      simp only [pendDetach, hf]
      exact hn _ hs'
  | some i =>
      simp only [pendDetach, hf]
      have hfr : Linked.toList s'.mem.next pendChainMax (s'.pend.node i).chain = chains i :=
        ho.rep.frames_eq i
      have hnd : (chains i ++ gs u).Nodup := by
        refine List.nodup_append.mpr ⟨ho.nodup_chain i, ho.nodup_thread u, ?_⟩
        rintro b hb c hc rfl
        rw [ho.mem_chain] at hb
        rw [ho.mem_thread, hb] at hc
        cases hc
      simp only [hold, hfr]
      refine (hk s'.mem.next _ _ (ho.rep.chain i) (ho.rep.le_max i) hnd
        (exec (.pendDetach key) e s').2 fun _ _ => rfl).mono ?_
      rintro _ _ s'' ⟨rfl, h⟩
      exact ⟨rfl, fun c hc => (h c hc).trans (hs' c (hg c hc))⟩

/-- A thread reads the `next` of a block in hand. -/
theorem load {k : FwdFrame → Act α} (hb : b ∈ g)
    (hk : ∀ f : FwdFrame, f.next = ν b → Goes strict t ν g (k f) g') :
    Goes strict t ν g (.cmd (.load b) k) g' := by
  intro s hs s' hr _
  have hs' : At ν g s' := fun b hb => (hr b hb).trans (hs b hb)
  exact ⟨trivial, fun _ _ => hk _ (hs' b hb) _ hs'⟩

/-! ### The functions of the source -/

theorem drop {c : Counter} (hb : b ∈ g) :
    Goes strict t ν g (LinuxRouter.drop c b) (g.erase b) := by
  simp only [LinuxRouter.drop, Prog.perform, Prog.cmd_bind, Prog.ret_bind]
  refine quiet rfl (fun _ => trivial) fun _ => quiet rfl (fun _ => trivial) fun _ => ?_
  exact free hb (ret _)

/-- **`forward_send`** gives its frame up. -/
theorem forwardSend {mac : Mac} (hb : b ∈ g) :
    Goes strict t ν g (forwardSend b mac) (g.erase b) := by
  simp only [LinuxRouter.forwardSend, Prog.perform, Prog.cmd_bind, Prog.ret_bind]
  refine quiet rfl (fun _ => trivial) fun _ => quiet rfl (fun _ => trivial) fun f => ?_
  refine quiet rfl (fun _ => trivial) fun ifs => ?_
  cases ifaceByIndex ifs (Int32.ofNat f.outIfidx.toNat) with
  | none => exact free hb (ret _)
  | some out =>
      refine quiet rfl (fun _ => hb) fun _ => quiet rfl (fun _ => trivial) fun ok => ?_
      exact quiet rfl (fun _ => trivial) fun _ => free hb (ret _)

/-- The loop of a flush gives up its chain. -/
theorem sendChain {mac : Mac} {n : ℕ} {h : Option Block} {bs : List Block} (hc : IsChain ν h bs)
    (hl : bs.length ≤ n) : Goes strict t ν (bs ++ g) (sendChain mac n h) g := by
  induction bs generalizing n h with
  | nil =>
      obtain rfl := IsChain.nil_iff.mp hc
      cases n <;> exact ret _
  | cons b bs ih =>
      obtain ⟨rfl, ht⟩ := IsChain.cons_iff.mp hc
      cases n with
      | zero => simp at hl
      | succ n =>
          simp only [LinuxRouter.sendChain, Prog.perform_bind]
          refine load (by simp) fun f hf => ?_
          refine (forwardSend (b := b) (by simp)).bind fun _ => ?_
          rw [List.cons_append, List.erase_cons_head, hf]
          exact ih ht (by simpa using hl)

/-- **`arp_request`** gives up what it takes. -/
theorem arpRequest {k : Key} : Goes strict t ν g (arpRequest k) g := by
  simp only [LinuxRouter.arpRequest, Prog.perform, Prog.cmd_bind, Prog.ret_bind, Prog.pure_eq]
  refine quiet rfl (fun _ => trivial) fun ifs => ?_
  cases ifaceByIndex ifs k.2 with
  | none => exact ret _
  | some it =>
      refine alloc (fun _ h => h) (ret _) fun b _ => ?_
      refine quiet rfl (fun _ => trivial) fun f => quiet rfl (fun _ => by simp [pre]) fun _ => ?_
      refine quiet rfl (fun _ => by simp [pre]) fun _ => quiet rfl (fun _ => trivial) fun _ => ?_
      refine quiet rfl (fun _ => trivial) fun ok => quiet rfl (fun _ => trivial) fun _ => ?_
      refine free (by simp) ?_
      rw [List.erase_cons_head]
      exact ret _

/-- **`forward_flush_pending`** gives up what it detaches. -/
theorem forwardFlushPending {k : Key} : Goes strict t ν g (forwardFlushPending k) g := by
  simp only [LinuxRouter.forwardFlushPending, Prog.perform, Prog.cmd_bind, Prog.ret_bind,
    Prog.pure_eq]
  refine quiet rfl (fun _ => trivial) fun mac => ?_
  cases mac with
  | none => exact ret _
  | some mac => exact detach (fun _ h => h) (ret _) fun ν' h bs hc hl _ => sendChain hc hl

/-- **`pend_enqueue`** gives its frame up. -/
theorem pendEnqueueFrame {k : Key} (hb : b ∈ g) (hn : ν b = none) :
    Goes strict t ν g (pendEnqueueFrame k b) (g.erase b) := by
  simp only [LinuxRouter.pendEnqueueFrame, Prog.perform, Prog.cmd_bind, Prog.ret_bind, Prog.pure_eq]
  refine enqueue hb hn (ret _) (fun ev => ?_) (drop hb) (drop hb)
  cases ev with
  | none => exact ret _
  | some ev => exact quiet rfl (fun _ => trivial) fun _ => quiet rfl (fun _ => trivial) fun _ => ret _

/-- A frame for a next hop, sent or parked. -/
theorem forwardTo {f : List Byte} {k : Key} (hb : b ∈ g) (hn : ν b = none) :
    Goes strict t ν g (forwardTo b f k) (g.erase b) := by
  simp only [LinuxRouter.forwardTo, Prog.perform, Prog.cmd_bind, Prog.ret_bind]
  split
  · exact drop hb
  · refine quiet rfl (fun _ => hb) fun _ => quiet rfl (fun _ => trivial) fun mac => ?_
    cases mac with
    | some mac => exact forwardSend hb
    | none => exact (pendEnqueueFrame hb hn).bind fun _ => arpRequest

/-- **`forward_task`** gives its frame up. -/
theorem forwardTask (hb : b ∈ g) (hn : ν b = none) :
    Goes strict t ν g (forwardTask b) (g.erase b) := by
  simp only [LinuxRouter.forwardTask, Prog.perform, Prog.cmd_bind, Prog.ret_bind]
  refine quiet rfl (fun _ => trivial) fun f => ?_
  split
  · exact drop hb
  · refine quiet rfl (fun _ => trivial) fun action => ?_
    split
    · exact drop hb
    · refine quiet rfl (fun _ => trivial) fun ifs => ?_
      split
      · exact quiet rfl (fun _ => trivial) fun _ => free hb (ret _)
      · refine quiet rfl (fun _ => trivial) fun ifs => ?_
        split
        · exact forwardTo hb hn
        · refine quiet rfl (fun _ => trivial) fun rt => ?_
          cases rt with
          | none => exact drop hb
          | some rt => exact forwardTo hb hn

/-- The look for an own address has no block. -/
theorem arpOurs {tpa : Ip} : Goes strict t ν g (arpOurs tpa) g :=
  of_every (arpOurs_every ⟨rfl, fun _ => trivial⟩ ⟨rfl, fun _ => trivial⟩
    (fun _ => ⟨rfl, fun _ => trivial⟩) tpa)

/-- The rewrite leaves the frame in hand. -/
theorem arpRespond {i : CInt} {it : Iface} (hb : b ∈ g) :
    Goes strict t ν g (arpRespond b i it) g := by
  simp only [LinuxRouter.arpRespond, Prog.perform, Prog.cmd_bind, Prog.ret_bind]
  refine quiet rfl (fun _ => trivial) fun f => quiet rfl (fun _ => hb) fun _ => ?_
  exact quiet rfl (fun _ => trivial) fun _ => quiet rfl (fun _ => trivial) fun _ => ret _

theorem arpAnswer {i : CInt} {spa tpa : Ip} (hb : b ∈ g) :
    Goes strict t ν g (arpAnswer b i spa tpa) (g.erase b) := by
  refine arpOurs.bind fun it => ?_
  cases it with
  | none => exact free hb (ret _)
  | some it =>
      refine (arpRespond hb).bind fun _ => forwardFlushPending.bind fun _ => ?_
      exact free hb (ret _)

/-- **`arp_handle_frame`** gives its frame up. -/
theorem arpHandleFrame {i : CInt} (hb : b ∈ g) :
    Goes strict t ν g (arpHandleFrame b i) (g.erase b) := by
  simp only [LinuxRouter.arpHandleFrame, Prog.perform, Prog.cmd_bind, Prog.ret_bind]
  have hrest : ∀ f spa tpa, Goes strict t ν g
      (if getBe16 f 20 ≠ arpOperReq then .cmd (.mpFree b) .ret
        else LinuxRouter.arpAnswer b i spa tpa) (g.erase b) := by
    intro f spa tpa
    split
    · exact free hb (ret _)
    · exact arpAnswer hb
  refine quiet rfl (fun _ => trivial) fun f => ?_
  split
  · exact drop hb
  · refine quiet rfl (fun _ => trivial) fun ifs => ?_
    split
    · exact quiet rfl (fun _ => trivial) fun _ => hrest _ _ _
    · exact hrest _ _ _

theorem countExpired (evs : List Evicted) : Goes strict t ν g (countExpired evs) g :=
  of_every (countExpired_every (fun _ => ⟨rfl, fun _ => trivial⟩) evs)

theorem retryKeys (ks : List Key) : Goes strict t ν g (retryKeys ks) g := by
  induction ks with
  | nil => exact ret _
  | cons k ks ih => exact arpRequest.bind fun _ => forwardFlushPending.bind fun _ => ih

/-- **`pend_tick`** gives up what it takes. -/
theorem pendTick : Goes strict t ν g pendTick g := by
  simp only [LinuxRouter.pendTick, Prog.perform_bind]
  exact quiet rfl (fun _ => trivial) fun w => (countExpired _).bind fun _ => retryKeys _

/-- A received frame is given up or handed on. -/
theorem rxFrame {r : Rx} (hb : b ∈ g) (hn : ν b = none) :
    Goes strict t ν g (rxFrame b r) (g.erase b) := by
  have hdrop : Goes strict t ν g (.cmd (.count .drop) fun _ => .cmd (.mpFree b) .ret)
      (g.erase b) :=
    quiet rfl (fun _ => trivial) fun _ => free hb (ret _)
  simp only [LinuxRouter.rxFrame, rxDispatch, Prog.perform, Prog.cmd_bind, Prog.ret_bind,
    Prog.pure_eq]
  refine quiet rfl (fun _ => trivial) fun _ => quiet rfl (fun _ => hb) fun _ => ?_
  refine quiet rfl (fun _ => trivial) fun ifs => ?_
  split
  · exact drop hb
  · split
    · exact drop hb
    · refine quiet rfl (fun _ => trivial) fun f => ?_
      split
      · exact arpHandleFrame hb
      · split
        · refine submit hb hn ?_ ?_
          · exact ret _
          · exact hdrop
        · exact hdrop

theorem workerRound : Goes strict t ν g workerRound g := by
  simp only [LinuxRouter.workerRound, Prog.perform_bind, Prog.pure_eq]
  refine take (fun _ h => h) (ret _) (ret _) fun b _ => ?_
  refine (forwardTask (b := b) (by simp) (by simp)).bind fun _ => ?_
  rw [List.erase_cons_head]
  exact ret _

theorem timerRound : Goes strict t ν g timerRound g := by
  simp only [LinuxRouter.timerRound, Prog.perform, Prog.cmd_bind, Prog.ret_bind, Prog.pure_eq]
  refine quiet rfl (fun _ => trivial) fun stop => ?_
  split
  · exact ret _
  · refine quiet rfl (fun _ => trivial) fun stop => ?_
    split
    · exact ret _
    · exact quiet rfl (fun _ => trivial) fun _ => pendTick.bind fun _ => ret _

end Goes

/-! ### The rounds -/

/-- A round of the receive loop ends with what it started with, if `recvfrom` returns a frame. -/
theorem rxRound_ok (t : Tid) (g : List Block) (s : Plane) :
    (discipline strict).Ok t (fun _ g' _ => strict = true → g' = g) rxRound g s := by
  simp only [rxRound, Prog.perform, Prog.cmd_bind, Prog.ret_bind, Prog.pure_eq]
  have hs : At s.mem.next g s := fun _ _ => rfl
  refine ok_quiet rfl hs (fun _ => trivial) fun stop s₁ hs₁ => ?_
  split
  · exact fun _ _ _ _ => rfl
  · refine ok_alloc hs₁ (fun _ _ _ _ _ _ => rfl) fun b s₂ hb hs₂ => ?_
    intro s₃ hr _
    refine ⟨by simp [discipline, pre], fun e hok => ?_⟩
    have hs₃ : At (Function.update s.mem.next b none) (b :: g) (exec (.recvfrom b) e s₃).2 := by
      intro c hc
      rw [next_of_quiet rfl]
      exact (hr c hc).trans (hs₂ c hc)
    cases hrecv : e.recv with
    | none =>
        -- the block stays in hand: `strict` rules this out
        have hst : strict ≠ true := fun hst => hok hst hrecv
        have ha : (dataPlane.exec (.recvfrom b) e s₃).1 = none := by
          simp only [dataPlane, exec, hrecv]
        rw [ha]
        exact ok_quiet rfl hs₃ (fun _ => trivial) fun _ _ _ _ _ _ h => absurd h hst
    | some r =>
        have ha : (dataPlane.exec (.recvfrom b) e s₃).1 = some r := by
          simp only [dataPlane, exec, hrecv]
        rw [ha]
        have hgo : Goes strict t (Function.update s.mem.next b none) (b :: g)
            (rxFrame b r >>= fun _ => .ret (some ())) g := by
          refine (Goes.rxFrame (b := b) (by simp) (by simp)).bind fun _ => ?_
          rw [List.erase_cons_head]
          exact .ret _
        exact (hgo _ hs₃).mono fun _ _ _ h _ => h.1

/-- Between rounds a thread has nothing in hand; the receive loop, if `strict`. -/
def AtRest (strict : Bool) (t : Tid) (_ : Unit) (g : List Block) (_ : Plane) : Prop :=
  (t = .rx → strict = true) → g = []

theorem round_ok {l : Unit} {s : Plane} (h : AtRest strict t l g s) :
    (discipline strict).Ok t (fun r g s => ∀ l, r = some l → AtRest strict t l g s) (round t l) g s
    := by
  have hs : At s.mem.next g s := fun _ _ => rfl
  cases t with
  | rx =>
      refine (rxRound_ok .rx g s).mono fun r g' _ hg l _ hst => ?_
      rw [hg (hst rfl)]
      exact h hst
  | timer =>
      refine (Goes.timerRound s hs).mono ?_
      rintro _ _ _ ⟨rfl, -⟩ _ _
      exact h
  | worker i =>
      refine (Goes.workerRound s hs).mono ?_
      rintro _ _ _ ⟨rfl, -⟩ _ _
      exact h

/-- At the start nobody has a block. -/
theorem PlaneInv.init (ifs : Ifaces) (routes : List Route) (rules : List FwRule) (proxy : Bool)
    (clz0 : CInt) (m : Mem) :
    PlaneInv (.init ifs routes rules proxy clz0 m) fun _ => [] := by
  refine ⟨fun _ => .free, [], fun _ => [], [], fun x hx => ?_, .init, .init m, .init, ?_, .init⟩
  · cases x with
    | free => exact absurd rfl hx
    | _ => simp [contents]
  · simp

/-- **Every configuration of every run is in order.** -/
theorem reach_good {b : Bool} {ifs : Ifaces} {routes : List Route} {rules : List FwRule} {proxy : Bool}
    {clz0 : CInt} {m : Mem} {x : Config Cmd Plane (List Block) Tid Unit}
    (h : Program.Reach dataPlane (recvOk b)
      (Plane.init ifs routes rules proxy clz0 m).start x) :
    (discipline b).Good (AtRest b) x := by
  refine Discipline.sound (fun _ _ _ _ _ h _ _ => h) (fun _ _ _ _ h => round_ok h) ?_ h
  exact ⟨.init .., fun _ _ => rfl⟩

/-- The invariant, in every configuration of every run. -/
theorem reach_inv {ifs : Ifaces} {routes : List Route} {rules : List FwRule} {proxy : Bool}
    {clz0 : CInt} {m : Mem} {x : Config Cmd Plane (List Block) Tid Unit}
    (h : Program.Reach dataPlane Program.anyStep
      (Plane.init ifs routes rules proxy clz0 m).start x) : PlaneInv x.shared x.ghost :=
  (reach_good (h.mono fun _ t c e s _ => recvOk_false t c e s)).1

/-! ### One owner -/

/-- How often the allocator has a block. -/
def Pool.copies (p : Pool) : Block → ℕ
  | .pool i => p.freeStack.count i
  | .heap a => if a ∈ p.live then 0 else 1

/-- Every block is in exactly one place, once: in the hands of a thread, in the queue, in the chain
of a pending slot, or with the allocator. -/
def SingleOwner (x : Config Cmd Plane (List Block) Tid Unit) : Prop :=
  ∃ owner : Block → Place,
    (∀ t b, (x.ghost t).count b = if owner b = .thread t then 1 else 0) ∧
    (∀ b, x.shared.queue.tasks.count (some b) = if owner b = .queue then 1 else 0) ∧
    (∀ i b, (x.shared.pend.frames x.shared.mem i).count b = if owner b = .slot i then 1 else 0) ∧
    ∀ b, x.shared.pool.copies b = if owner b = .free then 1 else 0

/-- Every block has one owner, and no thread has a block in hand between its rounds. -/
def Settled (x : Config Cmd Plane (List Block) Tid Unit) : Prop :=
  SingleOwner x ∧ ∀ t, (x.thread t).isIdle = true → x.ghost t = []

/-- How often something is in a list without duplicates. -/
theorem count_eq_ite {γ : Type} [BEq γ] [LawfulBEq γ] {xs : List γ} {c : γ} {p : Prop}
    [Decidable p] (hd : xs.Nodup) (hm : c ∈ xs ↔ p) : xs.count c = if p then 1 else 0 := by
  by_cases h : p
  · rw [if_pos h, List.count_eq_one_of_mem hd (hm.mpr h)]
  · rw [if_neg h, List.count_eq_zero_of_not_mem fun hc => h (hm.mp hc)]

/-- What the invariant says of a state. -/
theorem PlaneInv.singleOwner {x : Config Cmd Plane (List Block) Tid Unit}
    (h : PlaneInv x.shared x.ghost) : SingleOwner x := by
  obtain ⟨owner, order, chains, tasks, h⟩ := h
  refine ⟨owner, fun t b => count_eq_ite (h.nodup_thread t) h.mem_thread, fun b => ?_,
    fun i b => ?_, fun b => ?_⟩
  · rw [h.queue.tasks]
    refine count_eq_ite ((h.holding .queue (by simp)).1.map (Option.some_injective _)) ?_
    simp [h.mem_tasks]
  · rw [h.rep.frames_eq]
    exact count_eq_ite (h.nodup_chain i) h.mem_chain
  · cases b with
    | pool i => exact count_eq_ite h.pool.nodup (h.pool.free i)
    | heap a =>
        rw [Pool.copies]
        by_cases hl : a ∈ x.shared.pool.live
        · simp [hl, (h.pool.live a).mp hl]
        · have hf : owner (.heap a) = .free := by
            by_contra hf
            exact hl ((h.pool.live a).mpr hf)
          simp [hl, hf]

/-- **Single ownership.**  In every run in which `recvfrom` always returns a frame, every block has
one owner at every moment, and a thread that starts a round has nothing in hand. -/
theorem single_ownership {ifs : Ifaces} {routes : List Route} {rules : List FwRule} {proxy : Bool}
    {clz0 : CInt} {m : Mem} {x : Config Cmd Plane (List Block) Tid Unit}
    (h : Program.Reach dataPlane (recvOk true)
      (Plane.init ifs routes rules proxy clz0 m).start x) : Settled x := by
  obtain ⟨hi, ht⟩ := reach_good h
  refine ⟨hi.singleOwner, fun t hidle => ?_⟩
  have := ht t
  cases hth : x.thread t with
  | idle l =>
      rw [hth] at this
      exact this fun _ => rfl
  | running p =>
      rw [hth] at hidle
      cases hidle
  | stopped =>
      rw [hth] at hidle
      cases hidle

/-- A router without interfaces or tables. -/
def Plane.bare : Plane :=
  .init [] [] [] false 0
    fun _ => { next := none, len := 0, outIfidx := 0, nexthop := 0, data := [] }

/-- `recvfrom` returns one byte. -/
def Env.recvByte : Env where
  clock := 0
  heap := none
  recv := some { bytes := [0], ne_nil := by simp, le_payload := by decide, outgoing := false, ifindex := 1 }
  sent := true

/-- `recvfrom` fails. -/
def Env.recvError : Env := { Env.recvByte with recv := none }

/-- The receive loop takes a block, receives a runt, and drops it. -/
theorem single_ownership_runt :
    Settled (Program.play dataPlane (List.replicate 12 (.rx, .recvByte)) Plane.bare.start) := by
  refine single_ownership (Program.play_reach (fun te hte β c s => ?_) _)
  rw [List.eq_of_mem_replicate hte]
  cases c <;> simp [recvOk, Env.recvByte]

/-- **The receive loop leaks.**  After a `recvfrom` that fails it starts its next round with the
block of this one in hand. -/
theorem rx_loop_leaks :
    ¬ ∀ x, Program.Reach dataPlane Program.anyStep Plane.bare.start x → Settled x := by
  intro h
  have hs := h _ (Program.play_reach (w := List.replicate 6 (.rx, .recvError))
    (fun _ _ _ _ _ => trivial) _)
  have hg := hs.2 .rx (by decide +kernel)
  exact absurd hg (by decide +kernel)

end LinuxRouter
