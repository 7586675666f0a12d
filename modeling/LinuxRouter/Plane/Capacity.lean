import Mathlib.Algebra.Order.BigOperators.Group.Finset
import Mathlib.Tactic.DeriveFintype
import LinuxRouter.Plane.Egress
import LinuxRouter.Support.Simulation

/-!
# Plane — how many blocks are held

The blocks that are not with the allocator: in the queue, in the chains of the pending table, and in
the hands of the threads.

* An observer (`tend`) keeps, for each thread, the block it works on.  A block that a thread has in
  hand besides is one it flushes, or one that the receive loop has lost.
* `retained` counts these with the parked ones.  Only a frame that is parked and a `recvfrom` that
  fails add to it (`retained_exec`).
* `Tends` is the judgment on a program that takes a block only when it works on none.

The number of blocks held is not visible in the state; it is bounded through the owners.  Every
block that is not with the allocator is in the queue, in a chain or with a thread (`Owned`).  The
queue has its capacity, and the workers, the timer and the receive loop have one block each to work
on, because of how they are written: `Tends` follows their programs and finds none that takes a
second one while it has one in hand.  What remains without a bound of its own is what is parked or
lost, and that is `retained`: two commands only make it larger, each by one, so that a limit on it,
checked at those two commands, holds in every state of the run.
-/

namespace LinuxRouter

open Program (Prog Config Discipline Reach Watched By)

deriving instance Fintype for Tid

/-- The threads of the data plane. -/
theorem sum_tid : ∑ _t : Tid, 1 = poolThreads + 2 := by decide

/-! ### Held blocks -/

/-- The frames parked. -/
def Plane.parkedCount (s : Plane) : ℕ := ∑ i, (s.pend.frames s.mem i).length

/-- The blocks held: queued, parked, and in the hands of the threads. -/
def held (s : Plane) (g : Tid → List Block) : ℕ :=
  s.queue.count + s.parkedCount + ∑ t, (g t).length

/-- The arena is enough: no more blocks are held than it has, and `mp_alloc` has never called
`malloc`. -/
structure ArenaSuffices (s : Plane) (g : Tid → List Block) : Prop where
  held : held s g ≤ mpCount
  fallbacks : s.pool.fallbacks = 0

section Held

variable {s : Plane} {g : Tid → List Block} {owner : Block → Place} {order : List Slot}
  {chains : Slot → List Block} {tasks : List Block}

/-- The parked frames, by the chains. -/
theorem Owned.parkedCount_eq (h : Owned s g owner order chains tasks) :
    s.parkedCount = ∑ i, (chains i).length :=
  Finset.sum_congr rfl fun i _ => congrArg List.length (h.rep.frames_eq i)

/-- Every block of the arena is free or held. -/
theorem PlaneInv.arena_le (h : PlaneInv s g) : mpCount ≤ s.pool.freeStack.length + held s g := by
  obtain ⟨owner, order, chains, tasks, h⟩ := h
  let places : List Block := tasks ++ Finset.univ.toList.flatMap chains ++ Finset.univ.toList.flatMap g
  have hplaces : places.length = held s g := by
    simp only [places, List.length_append, List.length_flatMap, Finset.sum_map_toList,
      ← h.parkedCount_eq, h.queue.length, held]
  have hcover : ∀ i : Fin mpCount, i ∈ s.pool.freeStack ∨ Block.pool i ∈ places := by
    intro i
    simp only [places, List.mem_append, List.mem_flatMap, Finset.mem_toList, Finset.mem_univ,
      true_and]
    cases ho : owner (.pool i) with
    | free => exact .inl ((h.pool.free i).mpr ho)
    | queue => exact .inr (.inl (.inl (h.mem_tasks.mpr ho)))
    | slot j => exact .inr (.inl (.inr ⟨j, h.mem_chain.mpr ho⟩))
    | thread t => exact .inr (.inr ⟨t, h.mem_thread.mpr ho⟩)
  have hsub : (Finset.univ : Finset (Fin mpCount)).image Block.pool ⊆
      (s.pool.freeStack.map Block.pool ++ places).toFinset := by
    intro b hb
    obtain ⟨i, -, rfl⟩ := Finset.mem_image.mp hb
    rw [List.mem_toFinset, List.mem_append, List.mem_map]
    exact (hcover i).imp (fun hi => ⟨i, hi, rfl⟩) id
  calc mpCount = ((Finset.univ : Finset (Fin mpCount)).image Block.pool).card := by
        rw [Finset.card_image_of_injective _ fun _ _ => Block.pool.inj, Finset.card_univ,
          Fintype.card_fin]
    _ ≤ (s.pool.freeStack.map Block.pool ++ places).toFinset.card := Finset.card_le_card hsub
    _ ≤ (s.pool.freeStack.map Block.pool ++ places).length := List.toFinset_card_le _
    _ = s.pool.freeStack.length + held s g := by
        rw [List.length_append, List.length_map, hplaces]

end Held

/-! ### What a thread works on -/

/-- Whether `pend_enqueue` keeps the frame. -/
def Enqueued.kept : Enqueued → Bool
  | .joined => true
  | .created _ => true
  | .full => false
  | .noSlot => false

/-- The block that a thread works on after a command: the one it took, until it frees it, hands it
on, parks it, or, in the receive loop, loses it. -/
def works : ∀ ⦃β : Type⦄, Cmd β → β → Option Block → Option Block
  | _, .mpAlloc, a, _ => a
  | _, .mpFree b, _, o => if o = some b then none else o
  | _, .tpoolSubmit b, true, o => if o = some b then none else o
  | _, .tpoolTake, .task b, _ => b
  | _, .pendEnqueue _ b, .joined, o => if o = some b then none else o
  | _, .pendEnqueue _ b, .created _, o => if o = some b then none else o
  | _, .recvfrom _, none, _ => none
  | _, _, _, o => o

/-- The observer. -/
def tend ⦃β : Type⦄ (t : Tid) (c : Cmd β) (_ : Plane) (a : β) (w : Tid → Option Block) :
    Tid → Option Block :=
  Function.update w t (works c a (w t))

/-- The data plane, with what its threads work on. -/
abbrev Tended := Watched Plane (List Block) Tid (Tid → Option Block)

/-- The blocks in hand besides the one worked on. -/
def spare (g : List Block) (o : Option Block) : List Block := g.filter fun b => o ≠ some b

/-- The blocks that nobody works on: parked, being flushed, or lost by the receive loop. -/
def retained (x : Tended) : ℕ :=
  x.shared.parkedCount + ∑ t, (spare (x.ghost t) (x.view t)).length

/-- Whether a command adds to them: a frame is parked, or `recvfrom` fails. -/
def retains : ∀ ⦃β : Type⦄, Cmd β → β → Bool
  | _, .pendEnqueue _ _, r => r.kept
  | _, .recvfrom _, none => true
  | _, _, _ => false

section Spare

variable {g : List Block} {o : Option Block} {b : Block}

@[simp] theorem spare_none : spare g none = g := by
  simp [spare]

/-- Taking a block leaves the spare ones. -/
theorem spare_take : (spare (b :: g) (some b)).length ≤ (spare g none).length := by
  rw [spare_none, spare, List.filter_cons_of_neg (by simp)]
  exact List.length_filter_le _ _

theorem spare_append (bs : List Block) :
    (spare (bs ++ g) o).length ≤ bs.length + (spare g o).length := by
  rw [spare, List.filter_append, List.length_append]
  exact Nat.add_le_add_right (List.length_filter_le _ _) _

/-- All in hand but the one worked on. -/
theorem spare_some (hg : g.Nodup) : spare g (some b) = g.erase b := by
  rw [hg.erase_eq_filter]
  refine List.filter_congr fun c _ => ?_
  by_cases e : c = b <;> simp [e, Ne.symm]

theorem spare_erase (hg : g.Nodup) :
    (spare (g.erase b) (if o = some b then none else o)).length ≤ (spare g o).length := by
  split
  · rename_i e
    rw [e, spare_none, spare_some hg]
  · exact (List.erase_sublist.filter _).length_le

/-- All in hand are the spare ones and one more at most. -/
theorem length_le_spare (hg : g.Nodup) : g.length ≤ (spare g o).length + 1 := by
  cases o with
  | none => simp
  | some b =>
      rw [spare_some hg]
      exact Nat.sub_le_iff_le_add.mp List.le_length_erase

end Spare

section Step

variable {x : Tended} {t : Tid} {β : Type} {c : Cmd β} {e : Env}

/-- What a command adds to the parked frames and to the spare blocks of its thread. -/
theorem retained_step {n : ℕ}
    (h : (exec c e x.shared).2.parkedCount +
        (spare (hold c x.shared (exec c e x.shared).1 (x.ghost t))
          (works c (exec c e x.shared).1 (x.view t))).length ≤
      x.shared.parkedCount + (spare (x.ghost t) (x.view t)).length + n) :
    retained (Watched.exec dataPlane tend t c e x).2 ≤ retained x + n := by
  let x' := (Watched.exec dataPlane tend t c e x).2
  have hne : ∀ u, u ≠ t → (spare (x'.ghost u) (x'.view u)).length =
      (spare (x.ghost u) (x.view u)).length := by
    intro u hu
    have hg : x'.ghost u = x.ghost u := Function.update_of_ne hu _ _
    have hv : x'.view u = x.view u := Function.update_of_ne hu _ _
    rw [hg, hv]
  have hsum := sum_eq_of_ne t hne
  have hg : x'.ghost t = hold c x.shared (exec c e x.shared).1 (x.ghost t) := Function.update_self _ _ _
  have hv : x'.view t = works c (exec c e x.shared).1 (x.view t) := Function.update_self _ _ _
  have hs : x'.shared = (exec c e x.shared).2 := rfl
  rw [← hg, ← hv, ← hs] at h
  change x'.shared.parkedCount + ∑ u, (spare (x'.ghost u) (x'.view u)).length ≤ retained x + n
  unfold retained
  omega

/-- A command that leaves the pending table alone parks nothing. -/
theorem parkedCount_of_pend {s : Plane} {g : Tid → List Block} {owner : Block → Place}
    {order : List Slot} {chains : Slot → List Block} {tasks : List Block}
    (h : Owned s g owner order chains tasks) (hp : pre t c (g t) s)
    (hpend : (exec c e s).2.pend = s.pend) : (exec c e s).2.parkedCount = s.parkedCount := by
  have hm : ∀ i, ∀ b ∈ chains i, (exec c e s).2.mem.next b = s.mem.next b := fun i b hb =>
    congrArg FwdFrame.next (h.mem_exec_chain e hp hb).2
  rw [h.parkedCount_eq, Plane.parkedCount, hpend]
  exact Finset.sum_congr rfl fun i _ => congrArg List.length ((h.rep.congr_mem hm).frames_eq i)

/-- What `pend_enqueue` parks and evicts. -/
theorem EnqueueRep.sum_eq {k : Key} {b : Block} {key key' : Slot → Key} {order order' : List Slot}
    {chains chains' : Slot → List Block} {r : Enqueued}
    (h : EnqueueRep k b key order chains r key' order' chains')
    (hidle : ∀ i, i ∉ order → chains i = []) :
    ∑ i, (chains' i).length + r.evicted.length =
      ∑ i, (chains i).length + if r.kept then 1 else 0 := by
  have hone : ∀ i bs, ∑ j, (Function.update chains i bs j).length + (chains i).length =
      ∑ j, (chains j).length + bs.length := by
    intro i bs
    have hs := @sum_eq_of_ne _ _ _ (fun j => (chains j).length)
      (fun j => (Function.update chains i bs j).length) i fun j hj =>
        congrArg List.length (Function.update_of_ne hj _ _)
    rwa [Function.update_self] at hs
  cases h with
  | joined i =>
      have hs := hone i (b :: chains i)
      rw [List.length_cons] at hs
      simp only [Enqueued.evicted, Enqueued.kept, List.length_nil, if_true]
      omega
  | full => rfl
  | noSlot => rfl
  | free i hi =>
      have hs := hone i [b]
      rwa [hidle i hi] at hs
  | evict i => exact hone i [b]

/-- The frames that a command parks. -/
def enters : ∀ ⦃β : Type⦄, Cmd β → β → ℕ
  | _, .pendEnqueue _ _, r => if r.kept then 1 else 0
  | _, _, _ => 0

/-- The frames that it takes out of the pending table. -/
def unparks : ∀ ⦃β : Type⦄, Cmd β → Plane → β → List Block
  | _, .pendEnqueue _ _, _, r => r.evicted
  | _, .pendDetach _, s, some h => Linked.toList s.mem.next pendChainMax h
  | _, .pendSweep, _, w => w.1.flatMap (·.frames)
  | _, _, _, _ => []

/-- **The frames parked**, after a command. -/
theorem parkedCount_exec {s : Plane} {g : Tid → List Block} {owner : Block → Place}
    {order : List Slot} {chains : Slot → List Block} {tasks : List Block}
    (h : Owned s g owner order chains tasks) (hp : pre t c (g t) s) :
    (exec c e s).2.parkedCount + (unparks c s (exec c e s).1).length =
      s.parkedCount + enters c (exec c e s).1 := by
  cases c with
  | pendEnqueue k b =>
      obtain ⟨order', chains', hr, he⟩ :=
        enqueue_rep h.rep (h.notMem_chain hp.1) hp.2 (enqueue_step e.clock k b s.mem s.pend)
      have hcount : (exec (.pendEnqueue k b) e s).2.parkedCount = ∑ i, (chains' i).length :=
        Finset.sum_congr rfl fun i _ => congrArg List.length (hr.frames_eq i)
      rw [hcount, h.parkedCount_eq]
      exact he.sum_eq h.rep.idle
  | pendDetach k =>
      cases hf : findPend s.pend k with
      | none =>
          simp only [exec, pendDetach, hf]
          rfl
      | some i =>
          have hr := h.rep.release_rep (i := i)
          -- only the chain of the key is gone
          have hs := @sum_eq_of_ne _ _ _ (fun j => (chains j).length)
            (fun j => (Function.update chains i [] j).length) i fun j hj =>
              congrArg List.length (Function.update_of_ne hj _ _)
          simp only [Function.update_self, List.length_nil, Nat.add_zero] at hs
          have hframes : Linked.toList s.mem.next pendChainMax (s.pend.node i).chain = chains i :=
            h.rep.frames_eq i
          rw [h.parkedCount_eq, ← hs]
          simp only [exec, pendDetach, hf, Plane.parkedCount, hr.frames_eq, unparks, hframes, enters,
            Nat.add_zero]
  | pendSweep =>
      have hs := sweep_spec h.rep e.clock
      -- the chains of the slots that are out of retries, and those that stay
      have hgone : (unparks .pendSweep s (exec .pendSweep e s).1).length =
          ∑ i, if i ∈ order ∧ s.pend.expired i then (chains i).length else 0 := by
        have hdead : (exec .pendSweep e s).1.1 = (order.filter s.pend.expired).map fun i =>
            { key := (s.pend.node i).key, frames := chains i } := hs.dead
        have hnodup : (order.filter s.pend.expired).Nodup := h.rep.list.nodup.filter _
        change ((exec .pendSweep e s).1.1.flatMap (·.frames)).length = _
        rw [hdead, List.length_flatMap, List.map_map, ← Finset.sum_filter,
          ← List.sum_toFinset _ hnodup]
        refine Finset.sum_congr (Finset.ext fun i => ?_) fun i _ => rfl
        simp
      have hkept : (exec .pendSweep e s).2.parkedCount =
          ∑ i, if i ∈ order ∧ s.pend.expired i then 0 else (chains i).length := by
        refine Finset.sum_congr rfl fun i _ => ?_
        change ((pendSweep e.clock s.mem s.pend).table.frames s.mem i).length = _
        rw [hs.rep.frames_eq]
        split
        · rfl
        · rfl
      have henters : enters .pendSweep (exec .pendSweep e s).1 = 0 := rfl
      rw [hgone, hkept, henters, h.parkedCount_eq, ← Finset.sum_add_distrib, Nat.add_zero]
      refine Finset.sum_congr rfl fun i _ => ?_
      split
      · exact Nat.zero_add _
      · rfl
  | mpAlloc => exact congrArg (· + 0) (parkedCount_of_pend h hp rfl)
  | recvfrom b =>
      have hpend : (exec (.recvfrom b) e s).2.pend = s.pend := by
        rw [exec]
        cases e.recv <;> rfl
      exact congrArg (· + 0) (parkedCount_of_pend h hp hpend)
  | _ => exact congrArg (· + 0) (parkedCount_of_pend h hp rfl)

/-- **Only a frame that is parked and a `recvfrom` that fails** add to what is retained, if the thread
takes a block only when it works on none. -/
theorem retained_exec (ho : PlaneInv x.shared x.ghost) (hp : pre t c (x.ghost t) x.shared)
    (hq : c.takes = true → x.view t = none) :
    retained (Watched.exec dataPlane tend t c e x).2 ≤
      retained x + if retains c (exec c e x.shared).1 then 1 else 0 := by
  obtain ⟨owner, order, chains, tasks, ho⟩ := ho
  have hnd := ho.nodup_thread t
  have hparked := parkedCount_exec (e := e) ho hp
  refine retained_step ?_
  -- commands that park nothing
  have hsame : enters c (exec c e x.shared).1 = 0 →
      (spare (hold c x.shared (exec c e x.shared).1 (x.ghost t))
        (works c (exec c e x.shared).1 (x.view t))).length ≤
          (unparks c x.shared (exec c e x.shared).1).length +
            ((spare (x.ghost t) (x.view t)).length +
              if retains c (exec c e x.shared).1 then 1 else 0) →
      (exec c e x.shared).2.parkedCount +
          (spare (hold c x.shared (exec c e x.shared).1 (x.ghost t))
            (works c (exec c e x.shared).1 (x.view t))).length ≤
        x.shared.parkedCount + (spare (x.ghost t) (x.view t)).length +
          if retains c (exec c e x.shared).1 then 1 else 0 := by
    intro henters hs
    omega
  cases c with
  | mpAlloc =>
      refine hsame rfl ((?_ : _ ≤ _).trans (Nat.le_add_left _ _))
      rw [hq rfl]
      cases ha : (exec .mpAlloc e x.shared).1 with
      | none => exact Nat.le_add_right _ _
      | some b => exact spare_take
  | mpFree b => exact hsame rfl ((spare_erase hnd).trans (Nat.le_add_left _ _))
  | recvfrom b =>
      refine hsame rfl ((?_ : _ ≤ _).trans (Nat.le_add_left _ _))
      cases ha : (exec (.recvfrom b) e x.shared).1 with
      | none =>
          change (spare (x.ghost t) none).length ≤ _
          rw [spare_none]
          exact length_le_spare hnd
      | some r => exact Nat.le_add_right _ _
  | tpoolSubmit b =>
      refine hsame rfl ((?_ : _ ≤ _).trans (Nat.le_add_left _ _))
      cases ha : (exec (.tpoolSubmit b) e x.shared).1 with
      | false => exact Nat.le_add_right _ _
      | true => exact spare_erase hnd
  | tpoolTake =>
      refine hsame rfl ((?_ : _ ≤ _).trans (Nat.le_add_left _ _))
      rw [hq rfl]
      rcases ha : (exec .tpoolTake e x.shared).1 with _ | _ | _ | b
      · exact Nat.le_add_right _ _
      · exact Nat.le_add_right _ _
      · exact Nat.le_add_right _ _
      · exact spare_take
  | pendEnqueue k b =>
      have hspare : (spare (hold (.pendEnqueue k b) x.shared (exec (.pendEnqueue k b) e x.shared).1
          (x.ghost t)) (works (.pendEnqueue k b) (exec (.pendEnqueue k b) e x.shared).1
            (x.view t))).length ≤ (spare (x.ghost t) (x.view t)).length := by
        cases (exec (.pendEnqueue k b) e x.shared).1 with
        | joined => exact spare_erase hnd
        | created ev => exact spare_erase hnd
        | full => exact Nat.le_refl _
        | noSlot => exact Nat.le_refl _
      have he : enters (.pendEnqueue k b) (exec (.pendEnqueue k b) e x.shared).1 =
          if retains (.pendEnqueue k b) (exec (.pendEnqueue k b) e x.shared).1 then 1 else 0 := rfl
      omega
  | pendDetach k =>
      refine hsame rfl ?_
      have hw : works (.pendDetach k) (exec (.pendDetach k) e x.shared).1 (x.view t) = x.view t := rfl
      rw [hw]
      cases ha : (exec (.pendDetach k) e x.shared).1 with
      | none => exact (Nat.le_add_right _ _).trans (Nat.le_add_left _ _)
      | some h => exact spare_append _
  | _ => exact hsame rfl ((Nat.le_add_right _ _).trans (Nat.le_add_left _ _))

end Step

/-! ### One block at a time -/

/-- From a thread that works on `o`, the program takes a block only when it works on none, and ends
with `Q`, whatever the answers are. -/
def Tends (Q : Option Block → Prop) : Act α → Option Block → Prop
  | .ret _, o => Q o
  | .cmd c k, o => (c.takes = true → o = none) ∧ ∀ a, Tends Q (k a) (works c a o)

/-- The thread works on `w`, or on nothing any more. -/
def On (w o : Option Block) : Prop := o = w ∨ o = none

section Tends

variable {α β : Type} {Q Q' : Option Block → Prop} {w o : Option Block} {b : Block}

theorem Tends.mono {p : Act α} (h : Tends Q p o) (hQ : ∀ o, Q o → Q' o) : Tends Q' p o := by
  induction p generalizing o with
  | ret a => exact hQ o h
  | cmd c k ih => exact ⟨h.1, fun a => ih a (h.2 a)⟩

theorem Tends.bind {p : Act β} {f : β → Act α} (hp : Tends Q p o)
    (hf : ∀ b o, Q o → Tends Q' (f b) o) : Tends Q' (p >>= f) o := by
  induction p generalizing o with
  | ret a => exact hf a o hp
  | cmd c k ih => exact ⟨hp.1, fun a => ih a (hp.2 a)⟩

/-- A command that takes no block leaves a thread with what it works on, or with nothing. -/
theorem works_of_not_takes {c : Cmd β} (hc : c.takes = false) (a : β) (o : Option Block) :
    On o (works c a o) := by
  have hdone : ∀ b, On o (if o = some b then none else o) := by
    intro b
    split
    · exact .inr rfl
    · exact .inl rfl
  cases c with
  | mpAlloc => cases hc
  | tpoolTake => cases hc
  | mpFree b => exact hdone b
  | tpoolSubmit b =>
      cases a with
      | false => exact .inl rfl
      | true => exact hdone b
  | pendEnqueue k b =>
      cases a with
      | joined => exact hdone b
      | created ev => exact hdone b
      | full => exact .inl rfl
      | noSlot => exact .inl rfl
  | recvfrom b =>
      cases a with
      | none => exact .inr rfl
      | some r => exact .inl rfl
  | _ => exact .inl rfl

/-- A command that takes no block. -/
theorem tends_step {c : Cmd β} {k : β → Act α} (hc : c.takes = false) (h : On w o)
    (hk : ∀ a o, On w o → Tends Q (k a) o) : Tends Q (.cmd c k) o := by
  refine ⟨fun ht => (nomatch hc.symm.trans ht), fun a => hk a _ ?_⟩
  rcases works_of_not_takes hc a o with e | e
  · rwa [e]
  · exact .inr e

/-- A program that takes no block. -/
theorem tends_ships {p : Act α} (hp : p.Every fun _ c => c.ships = true) (h : On w o) :
    Tends (On w) p o := by
  induction p generalizing o with
  | ret a => exact h
  | cmd c k ih =>
      exact tends_step (Cmd.ships_iff.mp hp.1).2 h fun a o ho => ih a (hp.2 a) ho

/-- What frees, hands on or parks the block leaves the thread with none. -/
theorem On.done (h : On (some b) o) : (if o = some b then none else o) = none := by
  rcases h with rfl | rfl
  · exact if_pos rfl
  · exact ite_self none

/-- A thread that works on none. -/
theorem On.of_none (h : On none o) : o = none := h.elim id id

/-- The block is freed. -/
theorem tends_free {k : Unit → Act α} (h : On (some b) o) (hk : Tends Q (k ()) none) :
    Tends Q (.cmd (.mpFree b) k) o := by
  refine ⟨fun ht => (nomatch ht), fun _ => ?_⟩
  have hw : works (.mpFree b) () o = none := h.done
  rw [hw]
  exact hk

/-- A block is taken by a thread that works on none. -/
theorem tends_take {c : Cmd β} {k : β → Act α} (hk : ∀ a, Tends Q (k a) (works c a none)) :
    Tends Q (.cmd c k) none :=
  ⟨fun _ => rfl, hk⟩

/-- A dropped frame is given up. -/
theorem tends_drop (c : Counter) (h : On (some b) o) : Tends (On none) (drop c b) o :=
  tends_step rfl h fun _ _ h => tends_step rfl h fun _ _ h => tends_free h (.inl rfl)

/-- A frame sent is given up. -/
theorem tends_forwardSend (mac : Mac) (h : On (some b) o) : Tends (On none) (forwardSend b mac) o := by
  simp only [forwardSend, Prog.perform_bind]
  refine tends_step rfl h fun _ o h => tends_step rfl h fun f o h => tends_step rfl h fun ifs o h => ?_
  split
  · exact tends_free h (.inl rfl)
  · exact tends_step rfl h fun _ o h => tends_step rfl h fun _ o h => tends_step rfl h fun _ o h =>
      tends_free h (.inl rfl)

/-- A frame parked, or dropped, is given up. -/
theorem tends_pendEnqueueFrame (k : Key) (h : On (some b) o) :
    Tends (On none) (pendEnqueueFrame k b) o := by
  simp only [pendEnqueueFrame, Prog.perform_bind]
  refine ⟨fun ht => (by cases ht), fun r => ?_⟩
  have hdone : On none (if o = some b then none else o) := .inl h.done
  cases r with
  | joined => exact hdone
  | created ev =>
      cases ev with
      | none => exact hdone
      | some ev => exact tends_step rfl hdone fun _ o h => tends_step rfl h fun _ o h => h
  | full => exact tends_drop _ h
  | noSlot => exact tends_drop _ h

/-- A request takes a block of its own and gives it up. -/
theorem tends_arpRequest (k : Key) (h : On none o) : Tends (On none) (arpRequest k) o := by
  simp only [arpRequest, Prog.perform_bind]
  refine tends_step rfl h fun ifs o h => ?_
  obtain rfl := h.of_none
  split
  · exact h
  · refine tends_take fun blk => ?_
    cases blk with
    | none => exact .inl rfl
    | some b =>
        refine tends_step (w := some b) rfl (.inl rfl) fun f o h => ?_
        exact tends_step rfl h fun _ o h => tends_step rfl h fun _ o h => tends_step rfl h fun _ o h =>
          tends_step rfl h fun _ o h => tends_step rfl h fun _ o h => tends_free h (.inl rfl)

/-- A frame for a next hop is given up. -/
theorem tends_forwardTo {f : List Byte} {k : Key} (h : On (some b) o) :
    Tends (On none) (forwardTo b f k) o := by
  unfold forwardTo
  split
  · exact tends_drop _ h
  · refine tends_step rfl h fun _ o h => tends_step rfl h fun mac o h => ?_
    cases mac with
    | some mac => exact tends_forwardSend mac h
    | none => exact (tends_pendEnqueueFrame k h).bind fun _ o h => tends_arpRequest k h

theorem tends_forwardTask (h : On (some b) o) : Tends (On none) (forwardTask b) o := by
  simp only [forwardTask, Prog.perform_bind]
  refine tends_step rfl h fun f o h => ?_
  split
  · exact tends_drop _ h
  · refine tends_step rfl h fun action o h => ?_
    split
    · exact tends_drop _ h
    · refine tends_step rfl h fun ifs o h => ?_
      split
      · exact tends_step rfl h fun _ o h => tends_free h (.inl rfl)
      · refine tends_step rfl h fun ifs o h => ?_
        split
        · exact tends_forwardTo h
        · refine tends_step rfl h fun rt o h => ?_
          cases rt with
          | none => exact tends_drop _ h
          | some rt => exact tends_forwardTo h

/-- A worker works on one task at a time. -/
theorem tends_workerRound (h : On none o) : Tends (On none) workerRound o := by
  obtain rfl := h.of_none
  simp only [workerRound, Prog.perform_bind]
  refine tends_take fun r => ?_
  rcases r with _ | _ | _ | b
  · exact .inl rfl
  · exact .inl rfl
  · exact .inl rfl
  · exact (tends_forwardTask (.inl rfl)).bind fun _ o h => h

/-- The timer's requests, one after the other. -/
theorem tends_retryKeys (ks : List Key) (h : On none o) : Tends (On none) (retryKeys ks) o := by
  induction ks generalizing o with
  | nil => exact h
  | cons k ks ih =>
      refine (tends_arpRequest k h).bind fun _ o h => ?_
      exact (tends_ships (forwardFlushPending_ships k) h).bind fun _ o h => ih h

/-- The timer works on one request at a time. -/
theorem tends_timerRound (h : On none o) : Tends (On none) timerRound o := by
  simp only [timerRound, pendTick, Prog.perform_bind, Prog.cmd_bind]
  refine tends_step rfl h fun stop o h => ?_
  split
  · exact h
  · refine tends_step rfl h fun stop o h => ?_
    split
    · exact h
    · refine tends_step rfl h fun _ o h => tends_step rfl h fun w o h => Tends.bind ?_ fun _ o h => h
      exact (tends_ships (ships_of_bare (countExpired_bare _)) h).bind fun _ o h => tends_retryKeys _ h

/-- An ARP answer gives its frame up. -/
theorem tends_arpAnswer {i : CInt} {spa tpa : Ip} (h : On (some b) o) :
    Tends (On none) (arpAnswer b i spa tpa) o := by
  refine (tends_ships (ships_of_bare (arpOurs_bare tpa)) h).bind fun it o h => ?_
  cases it with
  | none => exact tends_free h (.inl rfl)
  | some it =>
      refine (tends_ships (ships_of_bare (arpRespond_bare b i it)) h).bind fun _ o h => ?_
      exact (tends_ships (forwardFlushPending_ships _) h).bind fun _ o h => tends_free h (.inl rfl)

/-- And so does every ARP frame. -/
theorem tends_arpHandleFrame {i : CInt} (h : On (some b) o) :
    Tends (On none) (arpHandleFrame b i) o := by
  have hrest : ∀ (f : List Byte) spa tpa o, On (some b) o → Tends (On none)
      (if getBe16 f 20 ≠ arpOperReq then Prog.perform (.mpFree b) else arpAnswer b i spa tpa) o := by
    intro f spa tpa o h
    split
    · exact tends_free h (.inl rfl)
    · exact tends_arpAnswer h
  simp only [arpHandleFrame, Prog.perform_bind]
  refine tends_step rfl h fun f o h => ?_
  split
  · exact tends_drop _ h
  · refine tends_step rfl h fun ifs o h => ?_
    split
    · exact tends_step rfl h fun _ o h => hrest _ _ _ o h
    · exact hrest _ _ _ o h

/-- A received frame is given up or handed on. -/
theorem tends_rxFrame {r : Rx} (h : On (some b) o) : Tends (On none) (rxFrame b r) o := by
  have hdrop : ∀ o, On (some b) o → Tends (On none)
      (.cmd (.count .drop) fun _ => Prog.perform (.mpFree b)) o := fun o h =>
    tends_step rfl h fun _ o h => tends_free h (.inl rfl)
  simp only [rxFrame, rxDispatch, Prog.perform_bind]
  refine tends_step rfl h fun _ o h => tends_step rfl h fun _ o h => tends_step rfl h fun ifs o h => ?_
  split
  · exact tends_drop _ h
  · split
    · exact tends_drop _ h
    · refine tends_step rfl h fun f o h => ?_
      split
      · exact tends_arpHandleFrame h
      · split
        · refine ⟨fun ht => (by cases ht), fun ok => ?_⟩
          cases ok with
          | true => exact .inl h.done
          | false => exact hdrop o h
        · exact hdrop o h

/-- The receive loop works on one frame at a time. -/
theorem tends_rxRound (h : On none o) : Tends (On none) rxRound o := by
  obtain rfl := h.of_none
  simp only [rxRound, Prog.perform_bind]
  refine tends_step rfl h fun stop o h => ?_
  obtain rfl := h.of_none
  split
  · exact h
  · refine tends_take fun blk => ?_
    cases blk with
    | none => exact .inl rfl
    | some b =>
        refine ⟨fun ht => (by cases ht), fun r => ?_⟩
        cases r with
        | none => exact tends_step (w := none) rfl (.inl rfl) fun _ o h => h
        | some r => exact (tends_rxFrame (.inl rfl)).bind fun _ o h => h

/-- **A round takes a block only when its thread works on none**, and leaves it working on none. -/
theorem tends_round (t : Tid) (l : Unit) (h : On none o) : Tends (On none) (round t l) o := by
  cases t with
  | rx => exact tends_rxRound h
  | timer => exact tends_timerRound h
  | worker i => exact tends_workerRound h

end Tends

/-! ### Runs -/

/-- The discipline of who takes a block.  A thread's ghost value is its number. -/
def thrift (ok : ∀ ⦃β : Type⦄, Tid → By Tid Cmd β → Env → Tended → Prop) :
    Discipline (dataPlane.watched tend) ok where
  inv _ g := ∀ t, g t = t
  fact _ _ := True
  pre _ t c _ x := c.thread = t ∧ (c.cmd.takes = true → x.view t = none)
  rely t x x' := x'.view t = x.view t
  rely_refl _ _ := rfl
  rely_trans h h' := h'.trans h
  fact_of_inv _ _ := trivial
  exec_inv := by
    rintro x g t β c e hg ⟨rfl, -⟩ - u
    by_cases hu : u = c.thread
    · subst hu
      rw [Function.update_self]
      exact hg _
    · rw [Function.update_of_ne hu]
      exact hg u
  exec_rely := by
    rintro x g t β c e hg ⟨rfl, -⟩ - u hu
    rw [hg]
    exact Function.update_of_ne hu _ _
  admin_inv h _ := h
  admin_rely := by
    rintro x ⟨s, gs, v⟩ g t - ⟨-, -, rfl⟩
    rfl

section Runs

variable {ok : ∀ ⦃β : Type⦄, Tid → By Tid Cmd β → Env → Tended → Prop} {ifs : Ifaces}
  {routes : List Route} {rules : List FwRule} {proxy : Bool} {clz0 : CInt} {m : Mem}
  {y : Config (By Tid Cmd) Tended Tid Tid Unit}

/-- The judgment, as one of the discipline. -/
theorem Tends.sound {α : Type} {Q : Option Block → Prop} {p : Act α} {t : Tid} {x : Tended}
    (h : Tends Q p (x.view t)) :
    (thrift ok).Ok t (fun _ u x => u = t ∧ Q (x.view t)) (p.tag t) t x := by
  induction p generalizing x with
  | ret a =>
      intro x' (hr : x'.view t = x.view t) _
      exact ⟨rfl, hr ▸ h⟩
  | cmd c k ih =>
      intro x' (hr : x'.view t = x.view t) _
      refine ⟨⟨rfl, fun ht => hr.trans (h.1 ht)⟩, fun e _ => ih _ ?_⟩
      have hv : (Watched.exec dataPlane tend t c e x').2.view t =
          works c (exec c e x'.shared).1 (x'.view t) := Function.update_self _ _ _
      change Tends Q _ ((Watched.exec dataPlane tend t c e x').2.view t)
      rw [hv, hr]
      exact h.2 _

/-- No thread works on a block before it starts. -/
abbrev Plane.tended (s : Plane) : Config (By Tid Cmd) Tended Tid Tid Unit :=
  s.start.shadow fun _ => none

/-- **Every run** keeps a thread at one block. -/
theorem thrift_of_reach
    (h : Reach (dataPlane.watched tend) ok (Plane.init ifs routes rules proxy clz0 m).tended y) :
    (thrift ok).Good (fun t _ u x => u = t ∧ On none (x.view t)) y := by
  refine Discipline.sound ?_ ?_ ?_ h
  · rintro t l _ x x' ⟨rfl, hx⟩ (hr : x'.view _ = x.view _) -
    exact ⟨rfl, hr ▸ hx⟩
  · rintro t l _ x ⟨rfl, hx⟩
    exact (tends_round _ l hx).sound.mono fun r u x hq _ _ => hq
  · exact ⟨fun _ => rfl, fun _ => ⟨rfl, .inl rfl⟩⟩

/-- **A thread that is about to take a block works on none.** -/
theorem works_none_of_reach
    (h : Reach (dataPlane.watched tend) ok (Plane.init ifs routes rules proxy clz0 m).tended y) {t : Tid}
    {β : Type} {c : By Tid Cmd β} {k : β → Prog (By Tid Cmd) (Option Unit)}
    (ht : y.thread t = .running (.cmd c k)) :
    c.thread = t ∧ (c.cmd.takes = true → y.shared.view t = none) := by
  have hgood := thrift_of_reach h
  have hrun := hgood.2 t
  rw [ht, hgood.1 t] at hrun
  exact (hrun _ ((thrift ok).rely_refl _ _) trivial).1

/-- A thread between two rounds works on none. -/
theorem idle_works_none
    (h : Reach (dataPlane.watched tend) ok (Plane.init ifs routes rules proxy clz0 m).tended y) {t : Tid}
    (ht : y.thread t = .idle ()) : y.shared.view t = none := by
  have hrest := (thrift_of_reach h).2 t
  rw [ht] at hrest
  exact hrest.2.of_none

/-- And its blocks with their owners. -/
theorem tended_inv
    (h : Reach (dataPlane.watched tend) ok (Plane.init ifs routes rules proxy clz0 m).tended y) :
    PlaneInv y.shared.shared y.shared.ghost := watched_inv h

/-- `pend_enqueue` has room for a frame. -/
def PendTable.hasRoom (t : PendTable) (k : Key) : Bool :=
  match findPend t k with
  | some i => (t.node i).chainLen < pendChainMax
  | none => true

/-- Whether a command may add to what is retained. -/
def Cmd.mayRetain {β : Type} (c : Cmd β) (e : Env) (s : Plane) : Bool :=
  match c with
  | .pendEnqueue k _ => s.pend.hasRoom k
  | .recvfrom _ => e.recv.isNone
  | _ => false

/-- Frames are parked, and blocks lost, only while fewer than `limit` are retained. -/
def retainsWithin (limit : ℕ) : ∀ ⦃β : Type⦄, Tid → By Tid Cmd β → Env → Tended → Prop :=
  fun _ _ c e x => c.cmd.mayRetain e x.shared = true → retained x < limit

/-- A frame is kept only where there is room. -/
theorem hasRoom_of_kept {now : ℕ} {k : Key} {b : Block} {m : Mem} {t : PendTable}
    (h : (pendEnqueue now k b m t).1.kept = true) : t.hasRoom k = true := by
  unfold pendEnqueue at h
  unfold PendTable.hasRoom
  cases hf : findPend t k with
  | none => rfl
  | some i =>
      simp only [hf] at h
      split at h
      · cases h
      · rename_i hlen
        simpa using hlen

/-- What adds to `retained` could be seen to before. -/
theorem mayRetain_of_retains {β : Type} {c : Cmd β} {e : Env} {s : Plane}
    (h : retains c (exec c e s).1 = true) : c.mayRetain e s = true := by
  cases c with
  | pendEnqueue k b => exact hasRoom_of_kept h
  | recvfrom b =>
      unfold Cmd.mayRetain
      cases hr : e.recv with
      | none => rfl
      | some r =>
          simp only [exec, hr] at h
          cases h
  | _ => cases h

/-- The blocks that the arena has besides the queue's and one for each thread. -/
def arenaSpare : ℕ := mpCount - taskCap - (poolThreads + 2)

theorem mpFreeAll_fallbacks (bs : List Block) (p : Pool) : (mpFreeAll bs p).fallbacks = p.fallbacks := by
  induction bs generalizing p with
  | nil => rfl
  | cons b bs ih =>
      refine (ih _).trans ?_
      cases b <;> rfl

/-- `mp_alloc` calls `malloc` only when the free stack is empty. -/
theorem exec_fallbacks {β : Type} {c : Cmd β} {e : Env} {s : Plane}
    (h : c.takes = true → s.pool.freeStack ≠ []) :
    (exec c e s).2.pool.fallbacks = s.pool.fallbacks := by
  cases c with
  | mpAlloc =>
      obtain ⟨i, st, hs⟩ := List.exists_cons_of_ne_nil (h rfl)
      simp only [exec, mpAlloc, hs]
  | mpFree b => cases b <;> rfl
  | recvfrom b =>
      rw [exec]
      cases e.recv <;> rfl
  | pendEnqueue k b => exact mpFreeAll_fallbacks _ _
  | pendSweep => exact mpFreeAll_fallbacks _ _
  | _ => rfl

/-- What is held, by what is retained. -/
theorem held_le {x : Tended} (ho : PlaneInv x.shared x.ghost) :
    held x.shared x.ghost + ∑ t, (if x.view t = none then 1 else 0) ≤
      taskCap + retained x + (poolThreads + 2) := by
  obtain ⟨owner, order, chains, tasks, ho⟩ := ho
  have hq := ho.queue.le_cap
  have hsum : ∑ t, ((x.ghost t).length + if x.view t = none then 1 else 0) ≤
      ∑ t, ((spare (x.ghost t) (x.view t)).length + 1) := by
    refine Finset.sum_le_sum fun t _ => ?_
    split
    · rename_i hv
      rw [hv, spare_none]
    · exact length_le_spare (ho.nodup_thread t)
  rw [Finset.sum_add_distrib, Finset.sum_add_distrib, sum_tid] at hsum
  unfold held retained
  omega

/-- A thread that is about to take a block leaves one for it in the arena. -/
theorem freeStack_ne_nil {x : Tended} {t : Tid} (ho : PlaneInv x.shared x.ghost)
    (hr : retained x ≤ arenaSpare) (ht : x.view t = none) : x.shared.pool.freeStack ≠ [] := by
  intro hf
  have hcap := ho.arena_le
  have hheld := held_le ho
  have hone : 1 ≤ ∑ u, if x.view u = none then 1 else 0 := by
    have h := Finset.single_le_sum (f := fun u => if x.view u = none then 1 else 0)
      (fun u _ => Nat.zero_le _) (Finset.mem_univ t)
    simpa [ht] using h
  have hcount : taskCap + arenaSpare + (poolThreads + 2) = mpCount := by decide
  rw [hf, List.length_nil] at hcap
  omega

/-- **The arena suffices** in every run in which frames are parked, and blocks lost, only while fewer
than `arenaSpare` are retained. -/
theorem arena_suffices
    (h : Reach (dataPlane.watched tend) (retainsWithin arenaSpare)
      (Plane.init ifs routes rules proxy clz0 m).tended y) :
    retained y.shared ≤ arenaSpare ∧ y.shared.shared.pool.fallbacks = 0 := by
  induction h with
  | refl =>
      refine ⟨?_, rfl⟩
      have hp : (Plane.init ifs routes rules proxy clz0 m).parkedCount = 0 :=
        Finset.sum_eq_zero fun i _ => congrArg List.length ((PendRep.init m).frames_eq i)
      simp [retained, Config.shadow, Plane.start, hp]
  | @tail y z hy hs ih =>
      obtain ⟨hr, hf⟩ := ih
      cases hs with
      | start t ht => exact ⟨hr, hf⟩
      | @exec t β c k e ht hok =>
          obtain ⟨ho, hp⟩ := watched_inOrder hy ht
          obtain ⟨rfl, htake⟩ := works_none_of_reach hy ht
          refine ⟨?_, ?_⟩
          · have hle := retained_exec (e := e) ho hp htake
            change retained (Watched.exec dataPlane tend c.thread c.cmd e y.shared).2 ≤ _
            split at hle
            · rename_i hk
              have := hok (mayRetain_of_retains hk)
              omega
            · omega
          · refine (exec_fallbacks fun hc => ?_).trans hf
            exact freeStack_ne_nil ho hr (htake hc)
      | finish t ht => exact ⟨hr, hf⟩
      | @admin s ha =>
          obtain ⟨s, g, v⟩ := s
          obtain ⟨ha, rfl, rfl⟩ := ha
          dsimp only at ha ⊢
          cases ha <;> exact ⟨hr, hf⟩

end Runs

end LinuxRouter
