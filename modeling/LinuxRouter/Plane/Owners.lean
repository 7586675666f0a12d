import LinuxRouter.Pending.Slots
import LinuxRouter.Arp.Clock
import LinuxRouter.Model.Receive

/-!
# Plane — who owns a block

`Owned s g owner` says that every block has exactly one place: the hands of a thread, the task
queue, the chain of a pending slot, or the allocator; `owner` names it.  Every command keeps it, for
the owner it leads to, if it is run by a thread that has in hand the block it writes, frees or
hands on (`Owned.mpAlloc` … `Owned.pendSweep`).

The blocks in the queue have a null `next`, as `mp_alloc` left it: `pend_enqueue` counts on it.

The pool, the ring and the chains are three data structures, each with its own way of holding
blocks. `Owned` reads them as lists (`contents`) and asks that the lists and the owners say the
same.  A command takes a list of blocks from one place to another (`move`); what has to be shown of
it is that its data structure does with the list what the owners say, and that the blocks are
different from all that are there, which is so because each has one owner.
-/

namespace LinuxRouter

open Linked (IsChain)

/-- Where a block is. -/
inductive Place where
  | thread (t : Tid)
  | queue
  | slot (i : Slot)
  | free
  deriving DecidableEq

/-- The blocks `bs` go to the place `x`. -/
def move (owner : Block → Place) (bs : List Block) (x : Place) : Block → Place :=
  fun c => if c ∈ bs then x else owner c

/-- Who owns a place after a move to it. -/
theorem move_eq_self {owner : Block → Place} {bs : List Block} {x : Place} {c : Block} :
    move owner bs x c = x ↔ c ∈ bs ∨ owner c = x := by
  unfold move
  split <;> simp [*]

theorem move_eq_of_ne {owner : Block → Place} {bs : List Block} {x y : Place} {c : Block}
    (h : y ≠ x) : move owner bs x c = y ↔ c ∉ bs ∧ owner c = y := by
  unfold move
  split <;> simp [*, Ne.symm h]

/-! ### The allocator -/

/-- The allocator has exactly the blocks whose place it is, each once. -/
structure PoolOwns (p : Pool) (owner : Block → Place) : Prop where
  nodup : p.freeStack.Nodup
  free : ∀ i, i ∈ p.freeStack ↔ owner (.pool i) = .free
  live_nodup : p.live.Nodup
  live : ∀ a, a ∈ p.live ↔ owner (.heap a) ≠ .free

namespace PoolOwns

variable {p : Pool} {owner owner' : Block → Place} {b : Block} {x : Place}

/-- Between other places, blocks move without the allocator. -/
theorem congr (h : PoolOwns p owner) (ho : ∀ b, owner' b = .free ↔ owner b = .free) :
    PoolOwns p owner' where
  nodup := h.nodup
  free := fun i => (h.free i).trans (ho _).symm
  live_nodup := h.live_nodup
  live := fun a => (h.live a).trans (not_congr (ho _)).symm

/-- A move between two places that are not the pool. -/
theorem between (h : PoolOwns p owner) (bs : List Block) (hb : ∀ b ∈ bs, owner b ≠ .free)
    (hx : x ≠ .free) : PoolOwns p (move owner bs x) := by
  refine h.congr fun c => ?_
  rw [move_eq_of_ne hx.symm]
  exact ⟨And.right, fun hc => ⟨fun hcb => hb c hcb hc, hc⟩⟩

/-- `mp_alloc` takes a block out. -/
theorem alloc (h : PoolOwns p owner) {heap : Option ℕ} {m : Mem} (hx : x ≠ .free)
    (hb : (mpAlloc heap p m).1 = some b) :
    owner b = .free ∧ (mpAlloc heap p m).2.2 = Function.update m b (m b).fresh ∧
      PoolOwns (mpAlloc heap p m).2.1 (move owner [b] x) := by
  unfold mpAlloc at hb ⊢
  cases hs : p.freeStack with
  | cons i st =>
      simp only [hs, Option.some.injEq] at hb ⊢
      subst hb
      have hnd := h.nodup
      rw [hs, List.nodup_cons] at hnd
      have hf : ∀ j, j ∈ i :: st ↔ owner (.pool j) = .free := fun j => hs ▸ h.free j
      refine ⟨(hf i).mp (by simp), rfl, hnd.2, fun j => ?_, h.live_nodup, fun a => ?_⟩
      · rw [move_eq_of_ne hx.symm, ← hf]
        by_cases e : j = i
        · subst e
          simpa using hnd.1
        · simp [e]
      · simpa [move] using h.live a
  | nil =>
      simp only [hs] at hb ⊢
      cases heap with
      | none => cases hb
      | some a =>
          by_cases hl : a ∈ p.live
          · simp [hl] at hb
          · simp only [hl, if_false, Option.some.injEq] at hb ⊢
            subst hb
            have hfree : owner (.heap a) = .free := by
              by_contra e
              exact hl ((h.live a).mpr e)
            refine ⟨hfree, rfl, List.nodup_nil, fun j => by simpa [hs, move] using h.free j,
              List.nodup_cons.mpr ⟨hl, h.live_nodup⟩, fun a' => ?_⟩
            rw [Ne, move_eq_of_ne hx.symm]
            by_cases e : a' = a
            · simp [e]
            · simp [e, h.live]

/-- An `mp_alloc` that fails changes nothing the others see. -/
theorem alloc_none (h : PoolOwns p owner) {heap : Option ℕ} {m : Mem}
    (hb : (mpAlloc heap p m).1 = none) :
    (mpAlloc heap p m).2.2 = m ∧ PoolOwns (mpAlloc heap p m).2.1 owner := by
  unfold mpAlloc at hb ⊢
  cases hs : p.freeStack with
  | cons i st => simp [hs] at hb
  | nil =>
      have h' : PoolOwns { p with fallbacks := p.fallbacks + 1, allocs := p.allocs + 1 } owner :=
        ⟨h.nodup, h.free, h.live_nodup, h.live⟩
      rw [hs] at h'
      simp only [hs] at hb ⊢
      cases heap with
      | none => exact ⟨rfl, h'⟩
      | some a =>
          by_cases hl : a ∈ p.live
          · simp only [hl, if_true]
            exact ⟨trivial, h'⟩
          · simp [hl] at hb

/-- `mp_free` takes a block in that the allocator does not have: the free stack has room for it. -/
theorem free_block (h : PoolOwns p owner) (hb : owner b ≠ .free) :
    PoolOwns (mpFree b p) (move owner [b] .free) := by
  cases b with
  | pool i =>
      have hi : i ∉ p.freeStack := fun hm => hb ((h.free i).mp hm)
      have hnd : (i :: p.freeStack).Nodup := List.nodup_cons.mpr ⟨hi, h.nodup⟩
      have hlen : p.freeStack.length < mpCount := by
        have := hnd.length_le_card
        simpa using this
      refine ⟨?_, fun j => ?_, h.live_nodup, fun a => by simpa [mpFree, move] using h.live a⟩
      · simpa only [mpFree, hlen, if_true] using hnd
      · rw [move_eq_self]
        simp [mpFree, hlen, h.free]
  | heap a =>
      refine ⟨h.nodup, fun j => by simpa [mpFree, move] using h.free j, h.live_nodup.erase a,
        fun a' => ?_⟩
      rw [Ne, move_eq_self]
      simp [mpFree, h.live_nodup.mem_erase_iff, h.live]

/-- A chain freed. -/
theorem free_all {bs : List Block} (h : PoolOwns p owner) (hd : bs.Nodup)
    (hb : ∀ b ∈ bs, owner b ≠ .free) : PoolOwns (mpFreeAll bs p) (move owner bs .free) := by
  induction bs generalizing p owner with
  | nil => exact h.congr fun c => by simp [move]
  | cons b bs ih =>
      obtain ⟨hbb, hd⟩ := List.nodup_cons.mp hd
      have hne : ∀ c ∈ bs, move owner [b] .free c ≠ .free := by
        intro c hc
        have hcb : c ≠ b := ne_of_mem_of_not_mem hc hbb
        rw [Ne, move_eq_self]
        simpa [hcb] using hb c (by simp [hc])
      refine (ih (h.free_block (hb b (by simp))) hd hne).congr fun c => ?_
      simp only [move_eq_self, List.mem_cons]
      tauto

end PoolOwns

/-- At the start the pool owns all. -/
theorem PoolOwns.init : PoolOwns .init fun _ => .free where
  nodup := by
    simp only [Pool.init, List.nodup_reverse]
    exact List.nodup_finRange _
  free := by simp [Pool.init]
  live_nodup := List.nodup_nil
  live := by simp [Pool.init]

/-! ### The queue -/

/-- The ring holds `bs`. -/
structure QueueHolds (p : TaskQueue) (bs : List Block) : Prop where
  tasks : p.tasks = bs.map some
  tail : p.tail = ringAdd p.head p.count
  le_cap : p.count ≤ taskCap

/-- Places of the ring do not meet. -/
theorem ringAdd_inj {i : Fin taskCap} {m n : ℕ} (hm : m < taskCap) (hn : n < taskCap)
    (h : ringAdd i m = ringAdd i n) : m = n := by
  have hi := i.2
  have := congrArg Fin.val h
  simp only [ringAdd, taskCap] at *
  omega

theorem ringAdd_ringAdd (i : Fin taskCap) (m n : ℕ) : ringAdd (ringAdd i m) n = ringAdd i (m + n) := by
  apply Fin.ext
  simp only [ringAdd, Nat.mod_add_mod, Nat.add_assoc]

namespace QueueHolds

variable {p : TaskQueue} {bs : List Block} {b : Block}

theorem init : QueueHolds .init [] := ⟨rfl, rfl, Nat.zero_le _⟩

/-- A queue holds as many as it counts. -/
theorem length (h : QueueHolds p bs) : bs.length = p.count := by
  have := congrArg List.length h.tasks
  simpa [TaskQueue.tasks] using this.symm

/-- `tpool_submit` refuses, or appends. -/
theorem submit (h : QueueHolds p bs) (b : Block) :
    ((tpoolSubmit b p).1 = false ∧ QueueHolds (tpoolSubmit b p).2 bs) ∨
      ((tpoolSubmit b p).1 = true ∧ QueueHolds (tpoolSubmit b p).2 (bs ++ [b])) := by
  unfold tpoolSubmit
  split
  · refine .inl ⟨rfl, ?_⟩
    split
    · exact h
    · exact ⟨h.tasks, h.tail, h.le_cap⟩
  · rename_i hc
    rw [not_or] at hc
    have hlt : p.count < taskCap := lt_of_le_of_ne h.le_cap hc.1
    refine .inr ⟨rfl, ?_, ?_, hlt⟩
    · have hold : (List.range p.count).map
          (fun j => Function.update p.q p.tail (some b) (ringAdd p.head j)) = bs.map some := by
        rw [← h.tasks]
        refine List.map_congr_left fun j hj => Function.update_of_ne (fun e => ?_) _ _
        have hj := List.mem_range.mp hj
        have := ringAdd_inj (hj.trans hlt) hlt (e.trans h.tail)
        omega
      simp only [TaskQueue.tasks, List.range_succ, List.map_append, hold]
      simp [h.tail]
    · rw [h.tail, ringAdd_ringAdd]

/-- A worker finds an empty ring, or takes the oldest task. -/
theorem take (h : QueueHolds p bs) :
    ((tpoolTake p).2 = p ∧ ∀ o, (tpoolTake p).1 ≠ .task o) ∨
      ∃ b bs', bs = b :: bs' ∧ (tpoolTake p).1 = .task (some b) ∧
        QueueHolds (tpoolTake p).2 bs' := by
  unfold tpoolTake
  split
  · refine .inl ⟨rfl, fun o => ?_⟩
    dsimp only
    split <;> simp
  · rename_i hc
    obtain ⟨n, hn⟩ : ∃ n, p.count = n + 1 := ⟨p.count - 1, by omega⟩
    have ht := h.tasks
    simp only [TaskQueue.tasks, hn, List.range_succ_eq_map, List.map_cons, List.map_map] at ht
    cases bs with
    | nil => cases ht
    | cons b bs =>
        obtain ⟨h₀, h₁⟩ := List.cons.inj ht
        have hz : ringAdd p.head 0 = p.head := Fin.ext (Nat.mod_eq_of_lt p.head.2)
        rw [hz] at h₀
        refine .inr ⟨b, bs, rfl, by rw [h₀], ?_, ?_, ?_⟩
        · simp only [TaskQueue.tasks, hn, Nat.add_sub_cancel]
          rw [← h₁]
          refine List.map_congr_left fun j _ => ?_
          rw [ringAdd_ringAdd, Nat.add_comm 1 j]
          rfl
        · rw [ringAdd_ringAdd]
          simp only [hn, Nat.add_sub_cancel]
          rw [h.tail, hn, Nat.add_comm]
        · have := h.le_cap
          simp only
          omega

end QueueHolds

/-! ### The places -/

/-- What is at each place but the allocator. -/
def contents (g : Tid → List Block) (tasks : List Block) (chains : Slot → List Block) :
    Place → List Block
  | .thread t => g t
  | .queue => tasks
  | .slot i => chains i
  | .free => []

/-- A thread's blocks are no other place's. -/
theorem contents_thread_ne {g : Tid → List Block} {tasks bs : List Block}
    {chains : Slot → List Block} {t : Tid} {z : Place} (hz : z ≠ .thread t) :
    contents (Function.update g t bs) tasks chains z = contents g tasks chains z := by
  cases z with
  | thread t' => exact Function.update_of_ne (fun e => hz (congrArg Place.thread e)) _ _
  | _ => rfl

theorem contents_slot_ne {g : Tid → List Block} {tasks bs : List Block}
    {chains : Slot → List Block} {i : Slot} {z : Place} (hz : z ≠ .slot i) :
    contents g tasks (Function.update chains i bs) z = contents g tasks chains z := by
  cases z with
  | slot j => exact Function.update_of_ne (fun e => hz (congrArg Place.slot e)) _ _
  | _ => rfl

theorem contents_queue_ne {g : Tid → List Block} {tasks tasks' : List Block}
    {chains : Slot → List Block} {z : Place} (hz : z ≠ .queue) :
    contents g tasks' chains z = contents g tasks chains z := by
  cases z with
  | queue => exact absurd rfl hz
  | _ => rfl

/-- Each place has exactly the blocks whose place it is, each once. -/
def Holding (at_ : Place → List Block) (owner : Block → Place) : Prop :=
  ∀ x, x ≠ .free → (at_ x).Nodup ∧ ∀ b, b ∈ at_ x ↔ owner b = x

/-- Blocks that go from one place to another. -/
theorem Holding.move {at_ at' : Place → List Block} {owner : Block → Place} {bs : List Block}
    {x y : Place} (h : Holding at_ owner) (hd : bs.Nodup) (hb : ∀ b ∈ bs, owner b = x)
    (hxy : x ≠ y) (hx : x ≠ .free → (at' x).Nodup ∧ ∀ b, b ∈ at' x ↔ b ∈ at_ x ∧ b ∉ bs)
    (hy : y ≠ .free → (at' y).Perm (bs ++ at_ y))
    (ho : ∀ z, z ≠ x → z ≠ y → at' z = at_ z) : Holding at' (move owner bs y) := by
  intro z hz
  obtain ⟨hnd, hmem⟩ := h z hz
  by_cases ey : z = y
  · subst ey
    have hp := hy hz
    refine ⟨hp.nodup_iff.mpr (List.nodup_append.mpr ⟨hd, hnd, ?_⟩), fun b => ?_⟩
    · rintro b hbs c hc rfl
      exact hxy ((hb b hbs).symm.trans ((hmem b).mp hc))
    · rw [hp.mem_iff, move_eq_self, List.mem_append, hmem]
  · by_cases ex : z = x
    · subst ex
      obtain ⟨hnd', hmem'⟩ := hx hz
      refine ⟨hnd', fun b => ?_⟩
      rw [hmem', hmem, move_eq_of_ne ey, and_comm]
    · rw [ho z ex ey]
      refine ⟨hnd, fun b => ?_⟩
      rw [hmem, move_eq_of_ne ey]
      constructor
      · exact fun e => ⟨fun hbs => ex (e.symm.trans (hb b hbs)), e⟩
      · exact And.right

/-- A block leaves a thread's hands. -/
theorem Holding.give {g : Tid → List Block} {tasks tasks' : List Block}
    {chains chains' : Slot → List Block} {owner : Block → Place} {t : Tid} {b : Block} {y : Place}
    (h : Holding (contents g tasks chains) owner) (hb : b ∈ g t) (hxy : y ≠ .thread t)
    (hy : y ≠ .free → (contents g tasks' chains' y).Perm ([b] ++ contents g tasks chains y))
    (ho : ∀ z, z ≠ y → contents g tasks' chains' z = contents g tasks chains z) :
    Holding (contents (Function.update g t ((g t).erase b)) tasks' chains')
      (LinuxRouter.move owner [b] y) := by
  obtain ⟨hnd, hmem⟩ := h (.thread t) (by simp)
  refine h.move (x := .thread t) (by simp) ?_ (Ne.symm hxy) (fun _ => ⟨?_, fun c => ?_⟩)
    (fun hyf => ?_) fun z hz hzy => ?_
  · simpa using (hmem b).mp hb
  · simpa [contents] using List.Nodup.erase b hnd
  · simp [contents, List.Nodup.mem_erase_iff (l := g t) hnd, and_comm]
  · rw [contents_thread_ne hxy]
    exact hy hyf
  · rw [contents_thread_ne hz]
    exact ho z hzy

/-! ### The state -/

/-- Every block has one place, given by `owner`; `order` and `chains` are the pending table's, and
`tasks` the queue's. -/
structure Owned (s : Plane) (g : Tid → List Block) (owner : Block → Place) (order : List Slot)
    (chains : Slot → List Block) (tasks : List Block) : Prop where
  holding : Holding (contents g tasks chains) owner
  pool : PoolOwns s.pool owner
  rep : PendRep s.pend s.mem order chains
  queue : QueueHolds s.queue tasks
  next : ∀ b ∈ tasks, s.mem.next b = none
  arp : ArpSane s.arp

namespace Owned

variable {s : Plane} {g : Tid → List Block} {owner : Block → Place} {order : List Slot}
  {chains : Slot → List Block} {tasks : List Block} {t : Tid} {b : Block} {i : Slot}

/-- A thread has a block once. -/
theorem nodup_thread (h : Owned s g owner order chains tasks) (t : Tid) : (g t).Nodup :=
  (h.holding (.thread t) (by simp)).1

/-- A thread has the blocks it owns. -/
theorem mem_thread (h : Owned s g owner order chains tasks) : b ∈ g t ↔ owner b = .thread t :=
  (h.holding (.thread t) (by simp)).2 b

/-- The queue has the blocks it owns. -/
theorem mem_tasks (h : Owned s g owner order chains tasks) : b ∈ tasks ↔ owner b = .queue :=
  (h.holding .queue (by simp)).2 b

/-- A slot has the blocks it owns. -/
theorem mem_chain (h : Owned s g owner order chains tasks) : b ∈ chains i ↔ owner b = .slot i :=
  (h.holding (.slot i) (by simp)).2 b

/-- A slot has a block once. -/
theorem nodup_chain (h : Owned s g owner order chains tasks) (i : Slot) : (chains i).Nodup :=
  (h.holding (.slot i) (by simp)).1

/-- A thread may write to what it has in hand, and to what nobody has. -/
theorem remember (h : Owned s g owner order chains tasks) {m : Mem}
    (hm : ∀ b, (∀ t, owner b ≠ .thread t) → owner b ≠ .free → m.next b = s.mem.next b) :
    Owned { s with mem := m } g owner order chains tasks where
  holding := h.holding
  pool := h.pool
  rep := h.rep.congr_mem fun i b hb => by
    have e := h.mem_chain.mp hb
    exact hm b (by simp [e]) (by simp [e])
  queue := h.queue
  next := fun b hb => by
    have e := h.mem_tasks.mp hb
    exact (hm b (by simp [e]) (by simp [e])).trans (h.next b hb)
  arp := h.arp

/-- A write to a block in hand. -/
theorem write (h : Owned s g owner order chains tasks) (hb : b ∈ g t) (f : FwdFrame) :
    Owned { s with mem := Function.update s.mem b f } g owner order chains tasks := by
  refine h.remember fun c hc _ => ?_
  have e : c ≠ b := fun e => hc t (h.mem_thread.mp (e ▸ hb))
  simp [Mem.next, e]

/-- What a thread has is not with the allocator. -/
theorem owner_ne_free (h : Owned s g owner order chains tasks) (hb : b ∈ g t) :
    owner b ≠ .free := by
  rw [h.mem_thread.mp hb]
  simp

/-- A block in hand is in no chain. -/
theorem notMem_chain (h : Owned s g owner order chains tasks) (hb : b ∈ g t) (i : Slot) :
    b ∉ chains i := by
  intro hi
  cases (h.mem_chain.mp hi).symm.trans (h.mem_thread.mp hb)

/-- `mp_alloc`. -/
theorem alloc (h : Owned s g owner order chains tasks) {heap : Option ℕ} (t : Tid)
    (hb : (mpAlloc heap s.pool s.mem).1 = some b) :
    Owned
      { s with pool := (mpAlloc heap s.pool s.mem).2.1, mem := (mpAlloc heap s.pool s.mem).2.2 }
      (Function.update g t (b :: g t)) (move owner [b] (.thread t)) order chains tasks := by
  obtain ⟨hf, hm, hp⟩ := h.pool.alloc (x := .thread t) (by simp) hb
  have hr : Owned { s with mem := Function.update s.mem b (s.mem b).fresh } g owner order chains
      tasks := by
    refine h.remember fun c _ hc => ?_
    have e : c ≠ b := fun e => hc (e ▸ hf)
    simp [Mem.next, e]
  rw [hm]
  refine ⟨?_, hp, hr.rep, hr.queue, hr.next, hr.arp⟩
  exact h.holding.move (x := .free) (by simp) (by simpa using hf) (by simp) (by simp)
    (fun _ => by simp [contents]) fun z _ hz => contents_thread_ne hz

/-- `mp_free` of a block in hand. -/
theorem free (h : Owned s g owner order chains tasks) (hb : b ∈ g t) :
    Owned { s with pool := mpFree b s.pool } (Function.update g t ((g t).erase b))
      (move owner [b] .free) order chains tasks :=
  ⟨h.holding.give hb (by simp) (by simp) fun _ _ => rfl, h.pool.free_block (h.owner_ne_free hb), h.rep,
    h.queue, h.next, h.arp⟩

/-- `tpool_submit` of a block in hand. -/
theorem submit (h : Owned s g owner order chains tasks) (hb : b ∈ g t)
    (hn : s.mem.next b = none) (hok : (tpoolSubmit b s.queue).1 = true) :
    Owned { s with queue := (tpoolSubmit b s.queue).2 } (Function.update g t ((g t).erase b))
      (move owner [b] .queue) order chains (tasks ++ [b]) := by
  have hq := ((h.queue.submit b).resolve_left (by simp [hok])).2
  have hp : PoolOwns s.pool (move owner [b] .queue) :=
    h.pool.between [b] (by simpa using h.owner_ne_free hb) (by simp)
  refine ⟨h.holding.give hb (by simp) (fun _ => ?_) fun z hz => contents_queue_ne hz, hp, h.rep, hq,
    fun c hc => ?_, h.arp⟩
  · exact (List.perm_append_comm : (tasks ++ [b]).Perm ([b] ++ tasks))
  · rcases List.mem_append.mp hc with hc | hc
    · exact h.next c hc
    · rw [List.mem_singleton.mp hc]
      exact hn

/-- A worker takes a block from the queue. -/
theorem take (h : Owned s g owner order chains (b :: tasks)) (t : Tid)
    (hq : QueueHolds (tpoolTake s.queue).2 tasks) :
    Owned { s with queue := (tpoolTake s.queue).2 } (Function.update g t (b :: g t))
      (move owner [b] (.thread t)) order chains tasks := by
  have ho := h.mem_tasks.mp (by simp : b ∈ b :: tasks)
  obtain ⟨hbt, hnd⟩ := List.nodup_cons.mp (h.holding .queue (by simp)).1
  have hp : PoolOwns s.pool (move owner [b] (.thread t)) :=
    h.pool.between [b] (by simp [ho]) (by simp)
  refine ⟨?_, hp, h.rep, hq, fun c hc => h.next c (by simp [hc]), h.arp⟩
  refine h.holding.move (x := .queue) (by simp) (by simpa using ho) (by simp)
    (fun _ => ⟨hnd, fun c => ?_⟩) (fun _ => by simp [contents]) fun z hz hz' => ?_
  · by_cases e : c = b
    · subst e
      simp [contents, hbt]
    · simp [contents, e]
  · rw [contents_thread_ne hz', contents_queue_ne hz]

/-- A thread detaches a chain. -/
theorem detach (h : Owned s g owner order chains tasks) (t : Tid) (i : Slot) :
    Owned { s with pend := releaseNode s.pend i } (Function.update g t (chains i ++ g t))
      (move owner (chains i) (.thread t)) (order.erase i) (Function.update chains i []) tasks := by
  have ho : ∀ b ∈ chains i, owner b = .slot i := fun b hb => h.mem_chain.mp hb
  have hp : PoolOwns s.pool (move owner (chains i) (.thread t)) := by
    refine h.pool.between _ (fun b hb => ?_) (by simp)
    rw [ho b hb]
    simp
  refine ⟨?_, hp, h.rep.release_rep, h.queue, h.next, h.arp⟩
  refine h.holding.move (x := .slot i) (h.nodup_chain i) ho (by simp)
    (fun _ => ⟨by simp [contents], fun c => by simp [contents]⟩) (fun _ => by simp [contents])
    fun z hz hz' => ?_
  rw [contents_thread_ne hz', contents_slot_ne hz]

/-- The chains of the slots `is` are freed. -/
theorem expire (h : Owned s g owner order chains tasks) {is : List Slot} (hd : is.Nodup) :
    PoolOwns (mpFreeAll (is.flatMap chains) s.pool) (move owner (is.flatMap chains) .free) ∧
      Holding (contents g tasks fun i => if i ∈ is then [] else chains i)
        (move owner (is.flatMap chains) .free) := by
  have hmem : ∀ c, c ∈ is.flatMap chains ↔ ∃ i ∈ is, owner c = .slot i := by
    intro c
    simp only [List.mem_flatMap, h.mem_chain]
  refine ⟨h.pool.free_all ?_ fun c hc => ?_, fun z hz => ?_⟩
  · refine List.nodup_flatMap.mpr ⟨fun i _ => h.nodup_chain i, hd.pairwise_of_forall_ne ?_⟩
    exact fun i _ j _ e => h.rep.disjoint i j e
  · obtain ⟨i, -, e⟩ := (hmem c).mp hc
    simp [e]
  · have hmove : ∀ c, move owner (is.flatMap chains) .free c = z ↔
        (¬ ∃ i ∈ is, owner c = .slot i) ∧ owner c = z := by
      intro c
      rw [move_eq_of_ne hz, hmem]
    obtain ⟨hnd, hm⟩ := h.holding z hz
    cases z with
    | slot j =>
        by_cases hj : j ∈ is
        · refine ⟨by simp [contents, hj], fun c => ?_⟩
          rw [hmove]
          simp only [contents, hj, if_true, List.not_mem_nil, false_iff, not_and]
          exact fun hn e => hn ⟨j, hj, e⟩
        · refine ⟨by simpa [contents, hj] using hnd, fun c => ?_⟩
          rw [hmove]
          simp only [contents, hj, if_false, h.mem_chain]
          refine ⟨fun e => ⟨?_, e⟩, And.right⟩
          rintro ⟨i, hi, e'⟩
          obtain rfl : j = i := by simpa using e.symm.trans e'
          exact hj hi
    | _ =>
        refine ⟨hnd, fun c => ?_⟩
        rw [hmove]
        refine (hm c).trans ⟨fun e => ⟨?_, e⟩, And.right⟩
        rintro ⟨i, -, e'⟩
        rw [e] at e'
        cases e'

end Owned

/-- The invariant of the data plane. -/
def PlaneInv (s : Plane) (g : Tid → List Block) : Prop :=
  ∃ owner order chains tasks, Owned s g owner order chains tasks

namespace Owned

variable {s : Plane} {g : Tid → List Block} {owner : Block → Place} {order : List Slot}
  {chains : Slot → List Block} {tasks : List Block} {t : Tid} {b : Block} {k : Key}

/-- `pend_enqueue` of a block in hand: it goes into a chain, or stays in hand. -/
theorem enqueue (h : Owned s g owner order chains tasks) (hb : b ∈ g t)
    (hn : s.mem.next b = none) {now : ℕ} {r : Enqueued} {m : Mem} {p : PendTable}
    (hs : EnqueueStep now k b s.mem s.pend r m p) :
    PlaneInv { s with mem := m, pend := p, pool := mpFreeAll r.evicted s.pool }
      (Function.update g t (hold (.pendEnqueue k b) s r (g t))) := by
  have hbt := h.mem_thread.mp hb
  have hbc := h.notMem_chain hb
  have hbf : ∀ c ∈ [b], owner c ≠ .free := by simpa using h.owner_ne_free hb
  have hnext : ∀ c ∈ tasks, m.next c = none := by
    intro c hc
    have e : c ≠ b := by
      rintro rfl
      rw [h.mem_tasks, hbt] at hc
      cases hc
    exact (hs.next_ne e).trans (h.next c hc)
  obtain ⟨order', chains', hr, he⟩ := enqueue_rep h.rep hbc hn hs
  generalize (fun i => (s.pend.node i).key) = key, (fun i => (p.node i).key) = key' at he
  cases he with
  | joined i _ _ =>
      refine ⟨_, _, _, tasks, h.holding.give hb (y := .slot i) (by simp) (fun _ => ?_)
        (fun z hz => contents_slot_ne hz), h.pool.between _ hbf (by simp), hr, h.queue, hnext, h.arp⟩
      simp [contents]
  | full =>
      refine ⟨owner, _, _, tasks, ?_, h.pool, hr, h.queue, hnext, h.arp⟩
      simpa only [hold, Function.update_eq_self] using h.holding
  | noSlot =>
      refine ⟨owner, _, _, tasks, ?_, h.pool, hr, h.queue, hnext, h.arp⟩
      simpa only [hold, Function.update_eq_self] using h.holding
  | free i hi =>
      refine ⟨_, _, _, tasks, h.holding.give hb (y := .slot i) (by simp) (fun _ => ?_)
        (fun z hz => contents_slot_ne hz), h.pool.between _ hbf (by simp), hr, h.queue, hnext, h.arp⟩
      simp [contents, h.rep.idle i hi]
  | evict i _ =>
      -- the victim's chain goes to the allocator, then the block into the emptied slot
      have ho : ∀ c ∈ chains i, owner c = .slot i := fun c hc => h.mem_chain.mp hc
      have hp := h.pool.free_all (h.nodup_chain i) fun c hc => by
        rw [ho c hc]
        simp
      have hh : Holding (contents g tasks (Function.update chains i []))
          (move owner (chains i) .free) :=
        h.holding.move (x := .slot i) (h.nodup_chain i) ho (by simp)
          (fun _ => ⟨by simp [contents], fun c => by simp [contents]⟩) (by simp)
          fun z hz _ => contents_slot_ne hz
      have hbf' : ∀ c ∈ [b], move owner (chains i) .free c ≠ .free := by
        intro c hc
        rw [List.mem_singleton.mp hc, Ne, move_eq_self]
        simp [hbc, hbt]
      refine ⟨_, _, _, tasks, hh.give hb (y := .slot i) (by simp) (fun _ => ?_) (fun z hz => ?_),
        hp.between _ hbf' (by simp), hr, h.queue, hnext, h.arp⟩
      · simp [contents]
      · rw [contents_slot_ne hz, contents_slot_ne hz]

/-- The walk of `pend_tick`. -/
theorem sweep (h : Owned s g owner order chains tasks) (now : ℕ) :
    PlaneInv { s with
      pend := (pendSweep now s.mem s.pend).table
      pool := mpFreeAll ((pendSweep now s.mem s.pend).dead.flatMap (·.frames)) s.pool } g := by
  have hs := sweep_spec h.rep now
  have hd : (pendSweep now s.mem s.pend).dead.flatMap (·.frames) =
      (order.filter s.pend.expired).flatMap chains := by
    rw [hs.dead]
    simp [List.flatMap_map]
  obtain ⟨hp, hh⟩ := h.expire (h.rep.list.nodup.filter s.pend.expired)
  have hr := hs.rep
  simp only [← List.mem_filter] at hr
  rw [← hd] at hp hh
  exact ⟨_, _, _, tasks, hh, hp, hr, h.queue, h.next, h.arp⟩

end Owned

end LinuxRouter
