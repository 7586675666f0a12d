import LinuxRouter.Plane.Owners

/-!
# Plane — the discipline of the threads

A thread frees, writes, hands on or parks only a block it has in hand, and submits or parks it with
a null `next`; in turn nobody else changes the `next` of what it has in hand.  This is a
`Program.Discipline` for the data plane (`discipline`), with the invariant `PlaneInv`.

What makes it go through is that every block has one owner (`Owned`): the pool, the queue, a slot of
the pending table, or a thread.  A command that keeps to its precondition moves only blocks of its own
thread, so it cannot reach what another thread relies on.  The proof is by the command: the lemmas of
`Owners` for those that move a block, and `PlaneInv.quiet` for all that move none; `PlaneInv.exec` puts
them together.  The programs are judged in `Ownership`.
-/

namespace LinuxRouter

open Linked (IsChain)
open Program (Prog Discipline)

/-! ### One command -/

/-- What a thread ensures before a command. -/
def pre : ∀ ⦃β : Type⦄, Tid → Cmd β → List Block → Plane → Prop
  | _, _, .mpFree b, g, _ => b ∈ g
  | _, _, .write b _, g, _ => b ∈ g
  | _, _, .recvfrom b, g, _ => b ∈ g
  | _, _, .tpoolSubmit b, g, s => b ∈ g ∧ s.mem.next b = none
  | _, _, .pendEnqueue _ b, g, s => b ∈ g ∧ s.mem.next b = none
  | _, _, _, _, _ => True

/-- Commands that neither move a block nor write a `next`. -/
def Cmd.quiet {β : Type} : Cmd β → Bool
  | .mpAlloc => false
  | .mpFree _ => false
  | .tpoolSubmit _ => false
  | .tpoolTake => false
  | .pendEnqueue _ _ => false
  | .pendDetach _ => false
  | _ => true

/-- A quiet command leaves a thread its blocks. -/
theorem hold_of_quiet {β : Type} {c : Cmd β} (hc : c.quiet = true) (s : Plane) (a : β)
    (g : List Block) : hold c s a g = g := by
  cases c <;> first | rfl | cases hc

/-- A write to a block keeps every `next`. -/
theorem next_write (m : Mem) (b : Block) (w : Write) :
    Mem.next (Function.update m b ((m b).write w)) = m.next := by
  funext c
  by_cases e : c = b
  · subst e
    simp [Mem.next]
  · simp [Mem.next, e]

theorem next_of_quiet {β : Type} {c : Cmd β} (hc : c.quiet = true) (e : Env) (s : Plane) :
    (exec c e s).2.mem.next = s.mem.next := by
  cases c with
  | write b w => exact next_write s.mem b w
  | recvfrom b =>
      rw [exec]
      cases e.recv with
      | none => rfl
      | some r => exact next_write s.mem b _
  | _ => first | rfl | cases hc

/-- A quiet command keeps the invariant. -/
theorem PlaneInv.quiet {s : Plane} {g : Tid → List Block} {t : Tid} {β : Type} {c : Cmd β}
    (h : PlaneInv s g) (e : Env) (hc : c.quiet = true) (hp : pre t c (g t) s) :
    PlaneInv (exec c e s).2 g := by
  obtain ⟨owner, order, chains, tasks, h⟩ := h
  have hk : ∀ {s' : Plane}, s'.pool = s.pool → s'.pend = s.pend → s'.mem = s.mem →
      s'.queue = s.queue → ArpSane s'.arp → PlaneInv s' g := by
    intro s' hpool hpend hmem hqueue harp
    refine ⟨owner, order, chains, tasks, h.holding, ?_, ?_, ?_, ?_, harp⟩
    · rw [hpool]
      exact h.pool
    · rw [hpend, hmem]
      exact h.rep
    · rw [hqueue]
      exact h.queue
    · rw [hmem]
      exact h.next
  cases c with
  | write b w => exact ⟨_, _, _, _, h.write hp _⟩
  | recvfrom b =>
      rw [exec]
      cases e.recv with
      | none => exact hk rfl rfl rfl rfl h.arp
      | some r => exact ⟨_, _, _, _, h.write hp _⟩
  | arpLookup k => exact hk rfl rfl rfl rfl (h.arp.lookup e.clock k)
  | arpInsert k mac =>
      obtain ⟨t', he, hs, -⟩ := h.arp.insert e.clock k mac
      refine hk rfl rfl rfl rfl ?_
      rw [exec, he]
      exact hs
  | arpTick => exact hk rfl rfl rfl rfl (h.arp.tick e.clock)
  | pendSweep =>
      obtain ⟨owner', order', chains', tasks', hs⟩ := h.sweep e.clock
      exact ⟨owner', order', chains', tasks', hs.holding, hs.pool, hs.rep, hs.queue, hs.next, hs.arp⟩
  | _ => first | exact hk rfl rfl rfl rfl h.arp | cases hc

/-- What a flush detaches is the slot's chain. -/
theorem exec_detach {s : Plane} {k : Key} {i : Slot} (hf : findPend s.pend k = some i) (e : Env) :
    (exec (.pendDetach k) e s).1 = some (s.pend.node i).chain := by
  simp only [exec, pendDetach, hf]

/-- What a thread has in hand once it has detached a chain. -/
theorem Owned.hold_detach {s : Plane} {g : Tid → List Block} {owner : Block → Place}
    {order : List Slot} {chains : Slot → List Block} {tasks : List Block}
    (h : Owned s g owner order chains tasks) {k : Key} {i : Slot} (hf : findPend s.pend k = some i)
    (e : Env) (l : List Block) :
    hold (.pendDetach k) s (exec (.pendDetach k) e s).1 l = chains i ++ l := by
  rw [exec_detach hf, ← h.rep.frames_eq i]
  rfl

/-- **Every command keeps the invariant.** -/
theorem PlaneInv.exec {s : Plane} {g : Tid → List Block} {t : Tid} {β : Type} {c : Cmd β}
    (h : PlaneInv s g) (e : Env) (hp : pre t c (g t) s) :
    PlaneInv (exec c e s).2 (Function.update g t (hold c s (exec c e s).1 (g t))) := by
  cases hc : c.quiet with
  | true =>
      rw [hold_of_quiet hc, Function.update_eq_self]
      exact h.quiet e hc hp
  | false =>
      obtain ⟨owner, order, chains, tasks, h⟩ := h
      cases c with
      -- the commands that move a block, and their lemmas
      | mpAlloc =>
          cases hb : (mpAlloc e.heap s.pool s.mem).1 with
          | none =>
              obtain ⟨hm, hpool⟩ := h.pool.alloc_none hb
              simp only [LinuxRouter.exec, hb, hold, Function.update_eq_self, hm]
              exact ⟨_, _, _, _, h.holding, hpool, h.rep, h.queue, h.next, h.arp⟩
          | some b =>
              simp only [LinuxRouter.exec, hb, hold]
              exact ⟨_, _, _, _, h.alloc t hb⟩
      | mpFree b => exact ⟨_, _, _, _, h.free hp⟩
      | tpoolSubmit b =>
          rcases h.queue.submit b with ⟨hb, hq⟩ | ⟨hb, -⟩
          · simp only [LinuxRouter.exec, hb, hold, Function.update_eq_self]
            exact ⟨_, _, _, _, h.holding, h.pool, h.rep, hq, h.next, h.arp⟩
          · simp only [LinuxRouter.exec, hb, hold]
            exact ⟨_, _, _, _, h.submit hp.1 hp.2 hb⟩
      | tpoolTake =>
          rcases h.queue.take with ⟨hq, hne⟩ | ⟨b, bs, rfl, hb, hq⟩
          · have hh : hold .tpoolTake s (tpoolTake s.queue).1 (g t) = g t := by
              cases ho : (tpoolTake s.queue).1 with
              | wait => rfl
              | exit => rfl
              | task o => exact absurd ho (hne o)
            simp only [LinuxRouter.exec, hh, Function.update_eq_self, hq]
            exact ⟨_, _, _, _, h⟩
          · simp only [LinuxRouter.exec, hb, hold]
            exact ⟨_, _, _, _, h.take t hq⟩
      | pendEnqueue k b =>
          obtain ⟨owner', order', chains', tasks', hs⟩ :=
            h.enqueue hp.1 hp.2 (enqueue_step e.clock k b s.mem s.pend)
          exact ⟨owner', order', chains', tasks', hs.holding, hs.pool, hs.rep, hs.queue, hs.next,
            hs.arp⟩
      | pendDetach k =>
          cases hf : findPend s.pend k with
          | none =>
              simp only [LinuxRouter.exec, pendDetach, hf, hold, Function.update_eq_self]
              exact ⟨_, _, _, _, h.holding, h.pool, h.rep, h.queue, h.next, h.arp⟩
          | some i =>
              have hfr : Linked.toList s.mem.next pendChainMax (s.pend.node i).chain = chains i :=
                h.rep.frames_eq i
              have hs := h.detach t i
              simp only [LinuxRouter.exec, pendDetach, hf, hold, hfr]
              exact ⟨_, _, _, _, hs.holding, hs.pool, hs.rep, hs.queue, hs.next, hs.arp⟩
      | _ => cases hc

/-- The block that a command writes, frees or hands on. -/
def Cmd.touches {β : Type} : Cmd β → Option Block
  | .mpFree b => some b
  | .write b _ => some b
  | .recvfrom b => some b
  | .tpoolSubmit b => some b
  | .pendEnqueue _ b => some b
  | _ => none

/-- Who touches a block has it in hand. -/
theorem mem_of_touches {t : Tid} {β : Type} {c : Cmd β} {g : List Block} {s : Plane} {b : Block}
    (hp : pre t c g s) (hc : c.touches = some b) : b ∈ g := by
  cases c <;> cases hc <;> first | exact hp | exact hp.1

/-- A command writes nothing but what it touches, and what nobody has. -/
theorem Owned.exec_mem {s : Plane} {g : Tid → List Block} {owner : Block → Place}
    {order : List Slot} {chains : Slot → List Block} {tasks : List Block} {β : Type} {c : Cmd β}
    (h : Owned s g owner order chains tasks) (e : Env) {b : Block} (hc : c.touches ≠ some b)
    (hf : owner b ≠ .free) : (exec c e s).2.mem b = s.mem b := by
  cases c with
  | mpAlloc =>
      cases hb' : (mpAlloc e.heap s.pool s.mem).1 with
      | none =>
          simp only [exec]
          rw [(h.pool.alloc_none hb').1]
      | some b' =>
          obtain ⟨hf', hm, -⟩ := h.pool.alloc (x := .queue) (by simp) hb'
          have e' : b ≠ b' := fun e => hf (e ▸ hf')
          simp [exec, hm, e']
  | write b' w => exact Function.update_of_ne (fun e => hc (congrArg some e.symm)) _ _
  | recvfrom b' =>
      rw [exec]
      cases e.recv with
      | none => rfl
      | some r => exact Function.update_of_ne (fun e => hc (congrArg some e.symm)) _ _
  | pendEnqueue k b' =>
      exact (enqueue_step e.clock k b' s.mem s.pend).mem_ne fun e => hc (congrArg some e.symm)
  | _ => rfl

/-- A command writes no block that another thread has in hand. -/
theorem PlaneInv.exec_mem {s : Plane} {g : Tid → List Block} {t t' : Tid} {β : Type} {c : Cmd β}
    (h : PlaneInv s g) (e : Env) (hp : pre t c (g t) s) (ht : t' ≠ t) {b : Block} (hb : b ∈ g t') :
    (LinuxRouter.exec c e s).2.mem b = s.mem b := by
  obtain ⟨owner, order, chains, tasks, h⟩ := h
  have ho := h.mem_thread.mp hb
  refine h.exec_mem e (fun hc => ?_) (by simp [ho])
  have := (h.mem_thread.mp (mem_of_touches hp hc)).symm.trans ho
  exact ht (Place.thread.inj this).symm

/-- What happens outside the threads leaves the blocks alone. -/
theorem PlaneInv.admin {s s' : Plane} {g : Tid → List Block} (h : PlaneInv s g)
    (ha : Admin s s') : PlaneInv s' g ∧ s'.mem = s.mem := by
  obtain ⟨owner, order, chains, tasks, h⟩ := h
  cases ha with
  | tables => exact ⟨⟨_, _, _, _, h.holding, h.pool, h.rep, h.queue, h.next, h.arp⟩, rfl⟩
  | arpTimeout sec =>
      exact ⟨⟨_, _, _, _, h.holding, h.pool, h.rep, h.queue, h.next, h.arp.setTimeout sec⟩, rfl⟩
  | stop => exact ⟨⟨_, _, _, _, h.holding, h.pool, h.rep, h.queue, h.next, h.arp⟩, rfl⟩
  | shutdown =>
      refine ⟨⟨_, _, _, _, h.holding, h.pool, h.rep, ?_, h.next, h.arp⟩, rfl⟩
      exact ⟨h.queue.tasks, h.queue.tail, h.queue.le_cap⟩

/-! ### The discipline -/

/-- No step in which `recvfrom` returns 0 or less, if `strict`. -/
def recvOk (strict : Bool) : ∀ ⦃β : Type⦄, Tid → Cmd β → Env → Plane → Prop
  | _, _, .recvfrom _, e, _ => strict = true → e.recv ≠ none
  | _, _, _, _, _ => True

/-- Every step is one, if not. -/
theorem recvOk_false {β : Type} (t : Tid) (c : Cmd β) (e : Env) (s : Plane) : recvOk false t c e s := by
  cases c <;> simp [recvOk]

/-- **The discipline of the data plane.** -/
def discipline (strict : Bool) : Discipline dataPlane (recvOk strict) where
  inv := PlaneInv
  fact g s := ∃ gs t, gs t = g ∧ PlaneInv s gs
  pre := pre
  rely g s s' := ∀ b ∈ g, s'.mem.next b = s.mem.next b
  rely_refl _ _ _ _ := rfl
  rely_trans h h' b hb := (h' b hb).trans (h b hb)
  fact_of_inv t h := ⟨_, t, rfl, h⟩
  exec_inv _ _ _ _ h hp _ := h.exec _ hp
  exec_rely _ _ _ _ h hp _ _ ht _ hb := congrArg FwdFrame.next (h.exec_mem _ hp ht hb)
  admin_inv h ha := (h.admin ha).1
  admin_rely _ h ha _ _ := by rw [(h.admin ha).2]

end LinuxRouter
