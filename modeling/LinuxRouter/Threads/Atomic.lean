import LinuxRouter.Plane.TaskPool
import LinuxRouter.Support.Simulation
import LinuxRouter.Threads.Pool

/-!
# Threads — the pool's critical sections are atomic

`thread_pool.c` statement by statement, against the task pool whose critical sections are one step
each.  `Tpool.settled` is the queue with the assignments that the owner of the mutex has still to
make; `Tracks` relates it, the workers and the calls to a task pool.

* `Tracks.step`: a statement is no step of the task pool, or one.
* `tpool_refines`: every run is a run of the task pool, with the same tasks queued, taken and run.

The task pool takes its step where a thread in a section has decided what to do: at the first
statement behind the decision, which is the read of a task, the store of one, or the unlock of a
thread that goes away with nothing.  From there on the assignments are bound to follow, and `settle`
makes them at once; since no other thread can look at the queue before the unlock (`Threads/Pool`),
the queue they see is the settled one.  Every other statement is no step: it moves a thread along, and
the settled queue is the same before and after it.

The count of the drops is the exception.  `tpool_submit` raises it after the unlock, where others
may run; it is left out of what the two levels agree on (`TaskQueue.ring`).
-/

namespace LinuxRouter

/-! ### A section as a whole -/

/-- The queue once a worker has made its assignments. -/
def WorkerAt.settle (q : TaskQueue) : WorkerAt → TaskQueue
  | .bump _ => { q with head := ringAdd q.head 1, count := q.count - 1 }
  | .decr _ => { q with count := q.count - 1 }
  | _ => q

/-- The queue once a caller has made its assignments. -/
def CallerAt.settle {n : ℕ} (q : TaskQueue) : CallerAt n → TaskQueue
  | .tail _ => { q with tail := ringAdd q.tail 1, count := q.count + 1, submitted := q.submitted + 1 }
  | .count _ => { q with count := q.count + 1, submitted := q.submitted + 1 }
  | .submitted _ => { q with submitted := q.submitted + 1 }
  | _ => q

/-- The queue without the count of its drops, which `tpool_submit` updates after the unlock. -/
def TaskQueue.ring (q : TaskQueue) : TaskQueue := { q with drops := 0 }

section Sections

variable {n : ℕ} {q q' : TaskQueue} {b : Block}

/-- What queues with one ring have in common. -/
theorem TaskQueue.ring_congr (h : q.ring = q'.ring) :
    q.tasks = q'.tasks ∧ q.shutdown = q'.shutdown ∧ q.submitted = q'.submitted ∧
      q.count = q'.count := by
  obtain ⟨r, head, tail, count, shutdown, submitted, d⟩ := q
  obtain ⟨r', head', tail', count', shutdown', submitted', d'⟩ := q'
  simp only [TaskQueue.ring, TaskQueue.mk.injEq, and_true] at h
  obtain ⟨rfl, rfl, rfl, rfl, rfl, rfl⟩ := h
  exact ⟨rfl, rfl, rfl, rfl⟩

/-- What a worker takes depends on the ring alone. -/
theorem tpoolTake_ring (h : q.ring = q'.ring) :
    (tpoolTake q).1 = (tpoolTake q').1 ∧ (tpoolTake q).2.ring = (tpoolTake q').2.ring := by
  obtain ⟨r, head, tail, count, shutdown, submitted, d⟩ := q
  obtain ⟨r', head', tail', count', shutdown', submitted', d'⟩ := q'
  simp only [TaskQueue.ring, TaskQueue.mk.injEq, and_true] at h
  obtain ⟨rfl, rfl, rfl, rfl, rfl, rfl⟩ := h
  unfold tpoolTake
  split
  · exact ⟨rfl, rfl⟩
  · exact ⟨rfl, rfl⟩

/-- Whether a task is accepted depends on the ring alone. -/
theorem tpoolSubmit_ring (h : q.ring = q'.ring) (b : Block) :
    (tpoolSubmit b q).1 = (tpoolSubmit b q').1 ∧
      (tpoolSubmit b q).2.ring = (tpoolSubmit b q').2.ring := by
  obtain ⟨r, head, tail, count, shutdown, submitted, d⟩ := q
  obtain ⟨r', head', tail', count', shutdown', submitted', d'⟩ := q'
  simp only [TaskQueue.ring, TaskQueue.mk.injEq, and_true] at h
  obtain ⟨rfl, rfl, rfl, rfl, rfl, rfl⟩ := h
  unfold tpoolSubmit
  split
  · refine ⟨rfl, ?_⟩
    cases shutdown <;> rfl
  · exact ⟨rfl, rfl⟩

theorem tpoolShutdown_ring (h : q.ring = q'.ring) :
    (tpoolShutdown q).ring = (tpoolShutdown q').ring := by
  obtain ⟨r, head, tail, count, shutdown, submitted, d⟩ := q
  obtain ⟨r', head', tail', count', shutdown', submitted', d'⟩ := q'
  simp only [TaskQueue.ring, TaskQueue.mk.injEq, and_true] at h
  obtain ⟨rfl, rfl, rfl, rfl, rfl, rfl⟩ := h
  rfl

/-- A worker that goes on to `t = g_pool.q[g_pool.head]`. -/
theorem tpoolTake_fetch (h : q.count ≠ 0) :
    tpoolTake q = (.task (q.q q.head), WorkerAt.settle q (.bump (q.q q.head))) := by
  simp only [tpoolTake, h, ↓reduceIte, WorkerAt.settle]

/-- A worker that goes on to its exit. -/
theorem tpoolTake_leave (h : q.count = 0 ∧ q.shutdown = true) : tpoolTake q = (.exit, q) := by
  simp only [tpoolTake, h, ↓reduceIte]

/-- A caller that goes on to `g_pool.q[g_pool.tail].fn = fn`. -/
theorem tpoolSubmit_store (h : ¬(q.count = taskCap ∨ q.shutdown = true)) (b : Block) :
    tpoolSubmit b q =
      (true, CallerAt.settle (n := n) { q with q := Function.update q.q q.tail (some b) } (.tail b)) := by
  simp only [tpoolSubmit, h, ↓reduceIte, CallerAt.settle]

/-- A caller that goes on to its refusal. -/
theorem tpoolSubmit_refuse (h : q.count = taskCap ∨ q.shutdown = true) (b : Block) :
    (tpoolSubmit b q).1 = false ∧ (tpoolSubmit b q).2.ring = q.ring := by
  simp only [tpoolSubmit, h, ↓reduceIte]
  refine ⟨trivial, ?_⟩
  split <;> rfl

end Sections

namespace Tpool

variable {n : ℕ} {κ : Type}

/-- The queue once the owner of the mutex has made its assignments. -/
def settled (x : Tpool n κ) : TaskQueue :=
  match x.lock with
  | none => x.queue
  | some (.inl w) => (x.worker w).settle x.queue
  | some (.inr c) => (x.caller c).settle x.queue

variable {x : Tpool n κ}

/-- With the mutex free there is nothing to settle. -/
theorem settled_none (h : x.lock = none) : x.settled = x.queue := by
  simp only [settled, h]

/-- With the mutex at a worker, the worker's assignments are to come. -/
theorem settled_worker {w : Fin n} (h : x.lock = some (.inl w)) :
    x.settled = (x.worker w).settle x.queue := by
  simp only [settled, h]

/-- With the mutex at a caller, the caller's. -/
theorem settled_caller {c : κ} (h : x.lock = some (.inr c)) :
    x.settled = (x.caller c).settle x.queue := by
  simp only [settled, h]

/-- The drops have no part in it. -/
theorem settled_drops {q : TaskQueue} (hq : q = { x.queue with drops := q.drops }) :
    Tpool.settled { x with queue := q } = { x.settled with drops := q.drops } := by
  rw [hq]
  cases hl : x.lock with
  | none => simp only [settled, hl]
  | some t =>
      cases t with
      | inl w =>
          simp only [settled, hl]
          cases x.worker w <;> rfl
      | inr c =>
          simp only [settled, hl]
          cases x.caller c <;> rfl

/-- A thread outside the sections has no part in it. -/
theorem settled_setWorker (he : x.Exclusive) {w : Fin n} (hw : (x.worker w).holds = false)
    (a : WorkerAt) : (x.setWorker w a).settled = x.settled := by
  cases hl : x.lock with
  | none => simp only [settled, setWorker, hl]
  | some t =>
      cases t with
      | inl v =>
          have hv : v ≠ w := by
            rintro rfl
            exact Bool.eq_false_iff.mp hw ((he (.inl v)).mp hl)
          simp only [settled, setWorker, hl, Function.update_of_ne hv]
      | inr c => simp only [settled, setWorker, hl]

/-- A caller outside the sections has no part in it. -/
theorem settled_setCaller [DecidableEq κ] (he : x.Exclusive) {c : κ} (hc : (x.caller c).holds = false)
    (a : CallerAt n) : (x.setCaller c a).settled = x.settled := by
  cases hl : x.lock with
  | none => simp only [settled, setCaller, hl]
  | some t =>
      cases t with
      | inl w => simp only [settled, setCaller, hl]
      | inr d =>
          have hd : d ≠ c := by
            rintro rfl
            exact Bool.eq_false_iff.mp hc ((he (.inr d)).mp hl)
          simp only [settled, setCaller, hl, Function.update_of_ne hd]

end Tpool

/-! ### The two levels -/

/-- The worker `w` of the task pool is where `a` says. -/
def WorkerAt.Tracked {n : ℕ} (s : TaskPool (Fin n)) (w : Fin n) : WorkerAt → Prop
  | .exited => s.worker w = .exited
  | .bump t => ∃ k, s.worker w = .running k ∧ s.taken[k]? = some (w, t)
  | .decr t => ∃ k, s.worker w = .running k ∧ s.taken[k]? = some (w, t)
  | .signal t => ∃ k, s.worker w = .running k ∧ s.taken[k]? = some (w, t)
  | .unlock t => ∃ k, s.worker w = .running k ∧ s.taken[k]? = some (w, t)
  | .run t => ∃ k, s.worker w = .running k ∧ s.taken[k]? = some (w, t)
  | .ran => ∃ k, s.worker w = .running k
  | _ => s.worker w = .idle

/-- A call that is decided, and how. -/
def CallerAt.decided {n : ℕ} : CallerAt n → Option (Block × Bool)
  | .tail b => some (b, true)
  | .count b => some (b, true)
  | .submitted b => some (b, true)
  | .signal b => some (b, true)
  | .unlock b => some (b, true)
  | .miss b => some (b, false)
  | .drop b => some (b, false)
  | .back b ok => some (b, ok)
  | _ => none

/-- The pool is where a run of the task pool is. -/
structure Tracks {n : ℕ} {κ : Type} (x : Tpool n κ) (s : TaskPool (Fin n)) : Prop where
  queue : x.settled.ring = s.queue.ring
  worker : ∀ w, (x.worker w).Tracked s w
  caller : ∀ c d, (x.caller c).decided = some d → d ∈ s.calls
  executed : x.executed = s.executed.length

section Tracked

variable {n : ℕ} {s s' : TaskPool (Fin n)} {w : Fin n} {a a' : WorkerAt} {q q' : TaskQueue}

/-- A worker stays tracked while the task pool leaves it alone. -/
theorem WorkerAt.Tracked.mono (h : a.Tracked s w) (hw : s'.worker w = s.worker w)
    (ht : s.taken <+: s'.taken) : a.Tracked s' w := by
  have hget : ∀ (k : ℕ) (t : Option Block), s.taken[k]? = some (w, t) → s'.taken[k]? = some (w, t) := by
    intro k t hk
    obtain ⟨l, hl⟩ := ht
    rw [← hl, List.getElem?_append_left (List.getElem?_eq_some_iff.mp hk).1, hk]
  cases a with
  | bump t | decr t | signal t | unlock t | run t =>
      obtain ⟨k, hk, htk⟩ := h
      exact ⟨k, hw.trans hk, hget k t htk⟩
  | ran =>
      obtain ⟨k, hk⟩ := h
      exact ⟨k, hw.trans hk⟩
  | exited | enter | loop | wait | asleep | relock | test | leave | fetch => exact hw.trans h

/-- A statement of a worker that takes no task. -/
theorem WorkerAt.Tracked.stmt (h : a.Tracked s w) (hs : a.stmt q = some (a', q')) (hf : a ≠ .fetch) :
    a'.Tracked s w ∧ a'.settle q' = a.settle q := by
  cases a <;> simp only [WorkerAt.stmt, Option.some.injEq, Prod.mk.injEq, reduceCtorEq] at hs <;>
    obtain ⟨rfl, rfl⟩ := hs
  case loop => split <;> exact ⟨h, rfl⟩
  case test => split <;> exact ⟨h, rfl⟩
  case fetch => exact absurd rfl hf
  all_goals exact ⟨h, rfl⟩

/-- A worker that unlocks, unless to exit. -/
theorem WorkerAt.Tracked.released (h : a.Tracked s w) (hs : a.released = some a') (hl : a ≠ .leave) :
    a'.Tracked s w ∧ a.settle q = q := by
  cases a <;> simp only [WorkerAt.released, Option.some.injEq, reduceCtorEq] at hs <;> subst hs
  case leave => exact absurd rfl hl
  all_goals exact ⟨h, rfl⟩

/-- A worker that takes the mutex. -/
theorem WorkerAt.Tracked.locked (h : a.Tracked s w) (hs : a.locked = some a') :
    a'.Tracked s w ∧ a'.settle q = q := by
  cases a <;> simp only [WorkerAt.locked, Option.some.injEq, reduceCtorEq] at hs <;> subst hs <;>
    exact ⟨h, rfl⟩

/-- A worker that is woken is tracked as before. -/
theorem WorkerAt.Tracked.woken (h : a.Tracked s w) : a.woken.Tracked s w := by
  cases a <;> exact h

variable {k k' : CallerAt n}

/-- A statement of a caller that decides nothing. -/
theorem CallerAt.decided_stmt (hs : k.stmt q = some (k', q')) (hb : ∀ b, k ≠ .store b) (hc : k ≠ .set) :
    k'.decided = k.decided ∧ k'.settle q' = k.settle q := by
  cases k <;> simp only [CallerAt.stmt, Option.some.injEq, Prod.mk.injEq, reduceCtorEq] at hs <;>
    obtain ⟨rfl, rfl⟩ := hs
  case guard => split <;> exact ⟨rfl, rfl⟩
  case store b => exact absurd rfl (hb b)
  case set => exact absurd rfl hc
  all_goals exact ⟨rfl, rfl⟩

/-- A caller that unlocks, unless after a refusal. -/
theorem CallerAt.decided_released (hs : k.released = some k') (hb : ∀ b, k ≠ .refuse b) :
    k'.decided = k.decided ∧ k.settle q = q := by
  cases k <;> simp only [CallerAt.released, Option.some.injEq, reduceCtorEq] at hs <;> subst hs
  case refuse b => exact absurd rfl (hb b)
  all_goals exact ⟨rfl, rfl⟩

/-- What follows the unlock decides nothing. -/
theorem CallerAt.decided_unlocked (hs : k.unlocked q = some (k', q')) : k'.decided = k.decided := by
  cases k <;> simp only [CallerAt.unlocked, Option.some.injEq, Prod.mk.injEq, reduceCtorEq] at hs <;>
    obtain ⟨rfl, rfl⟩ := hs
  case miss => split <;> rfl
  all_goals rfl

/-- With the mutex alone nothing is decided. -/
theorem CallerAt.decided_locked (hs : k.locked = some k') : k'.decided = none ∧ k'.settle q = q := by
  cases k <;> simp only [CallerAt.locked, Option.some.injEq, reduceCtorEq] at hs <;> subst hs <;>
    exact ⟨rfl, rfl⟩

end Tracked

namespace Tracks

variable {n : ℕ} {κ : Type} {x y : Tpool n κ} {s s' : TaskPool (Fin n)}

/-- What the task pool takes part in: one worker moves, or one caller. -/
theorem worker_moves {w : Fin n} {a : WorkerAt} (h : Tracks x s)
    (hw : y.worker = Function.update x.worker w a)
    (hc : y.caller = x.caller) (hq : y.settled.ring = s'.queue.ring) (ha : a.Tracked s' w)
    (hv : ∀ v, v ≠ w → s'.worker v = s.worker v) (ht : s.taken <+: s'.taken)
    (hcalls : s'.calls = s.calls)
    (he : y.executed = s'.executed.length) : Tracks y s' where
  queue := hq
  worker v := by
    rw [hw]
    by_cases e : v = w
    · subst e
      rwa [Function.update_self]
    · rw [Function.update_of_ne e]
      exact (h.worker v).mono (hv v e) ht
  caller c d hd := by
    rw [hc] at hd
    rw [hcalls]
    exact h.caller c d hd
  executed := he

/-- What the queue of the task pool is, while a worker is in a section. -/
theorem ring_worker (h : Tracks x s) (he : x.Exclusive) {w : Fin n} {a : WorkerAt}
    (hw : x.worker w = a) (ha : a.holds = true) : (a.settle x.queue).ring = s.queue.ring := by
  subst hw
  rw [← h.queue, Tpool.settled_worker ((he (.inl w)).mpr ha)]

/-- What the queue of the task pool is, while a caller is in a section. -/
theorem ring_caller (h : Tracks x s) (he : x.Exclusive) {c : κ} {k : CallerAt n}
    (hc : x.caller c = k) (hk : k.holds = true) : (k.settle x.queue).ring = s.queue.ring := by
  subst hc
  rw [← h.queue, Tpool.settled_caller ((he (.inr c)).mpr hk)]

/-- A worker that takes a task. -/
theorem fetch {w : Fin n} (h : Tracks x s) (he : x.Exclusive) (hk : x.Knows) (hw : x.worker w = .fetch) :
    PoolStep s (s.dequeue w) ∧
      Tracks (x.setWorker w (.bump (x.queue.q x.queue.head))) (s.dequeue w) := by
  have hc : x.queue.count ≠ 0 := by
    have hw' := hk.worker w
    rwa [hw] at hw'
  have hl : x.lock = some (.inl w) := (he (.inl w)).mpr (by simp [Tpool.holds, hw, WorkerAt.holds])
  have hidle : s.worker w = .idle := by
    have hw' := h.worker w
    rwa [hw] at hw'
  obtain ⟨ht, hr⟩ := tpoolTake_ring (h.ring_worker he hw rfl)
  rw [show WorkerAt.fetch.settle x.queue = x.queue from rfl, tpoolTake_fetch hc] at ht hr
  have hs : s.dequeue w = { s with
      queue := (tpoolTake s.queue).2
      worker := Function.update s.worker w (.running s.taken.length)
      taken := s.taken ++ [(w, x.queue.q x.queue.head)] } := by
    simp only [TaskPool.dequeue, ← ht]
  refine ⟨.dequeue w hidle, h.worker_moves (w := w) rfl rfl ?_ ?_ ?_ ?_ ?_ ?_⟩
  · rw [Tpool.settled_worker (w := w) (show (x.setWorker w _).lock = _ from hl), hs, ← hr]
    simp only [Tpool.setWorker, Function.update_self]
  · rw [hs]
    exact ⟨s.taken.length, by simp, by simp⟩
  · intro v e
    rw [hs]
    simp [e]
  · rw [hs]
    exact List.prefix_append _ _
  · rw [hs]
  · rw [hs]
    exact h.executed

/-- A worker that leaves. -/
theorem leave {w : Fin n} (h : Tracks x s) (he : x.Exclusive) (hk : x.Knows) (hw : x.worker w = .leave) :
    PoolStep s (s.dequeue w) ∧
      Tracks { x.setWorker w .exited with lock := none } (s.dequeue w) := by
  have hc : x.queue.count = 0 ∧ x.queue.shutdown = true := by
    have hw' := hk.worker w
    rwa [hw] at hw'
  have hidle : s.worker w = .idle := by
    have hw' := h.worker w
    rwa [hw] at hw'
  have hq : x.queue.ring = s.queue.ring := h.ring_worker he hw rfl
  obtain ⟨ht, -⟩ := tpoolTake_ring hq
  rw [tpoolTake_leave hc] at ht
  have hs : s.dequeue w = { s with worker := Function.update s.worker w .exited } := by
    simp only [TaskPool.dequeue, ← ht]
  refine ⟨.dequeue w hidle, h.worker_moves (w := w) rfl rfl ?_ ?_ ?_ ?_ ?_ ?_⟩
  · rw [Tpool.settled_none rfl, hs]
    exact hq
  · rw [hs]
    exact Function.update_self _ _ _
  · intro v e
    rw [hs]
    simp [e]
  · rw [hs]
  · rw [hs]
  · rw [hs]
    exact h.executed

/-- A worker whose task has run. -/
theorem finish {w : Fin n} (h : Tracks x s) (he : x.Exclusive) (hw : x.worker w = .ran) :
    ∃ s', PoolStep s s' ∧ Tracks { x.setWorker w .enter with executed := x.executed + 1 } s' := by
  obtain ⟨k, hk⟩ : ∃ k, s.worker w = .running k := by
    have hw' := h.worker w
    rwa [hw] at hw'
  have hset : Tpool.settled { x.setWorker w .enter with executed := x.executed + 1 } = x.settled :=
    Tpool.settled_setWorker he (by rw [hw]; rfl) .enter
  refine ⟨s.finish w k, .finish w k hk, h.worker_moves (w := w) rfl rfl ?_ ?_ ?_ ?_ rfl ?_⟩
  · rw [hset]
    exact h.queue
  · exact Function.update_self _ _ _
  · intro v e
    simp [TaskPool.finish, e]
  · exact List.prefix_rfl
  · simp [TaskPool.finish, h.executed]

open Relation (ReflTransGen)

/-- A worker moves within its section. -/
theorem worker_inside {w : Fin n} {a : WorkerAt} (h : Tracks x s)
    (hw : y.worker = Function.update x.worker w a) (hc : y.caller = x.caller)
    (hl : y.lock = some (.inl w)) (ha : a.Tracked s w) (hq : (a.settle y.queue).ring = s.queue.ring)
    (he : y.executed = x.executed) : Tracks y s := by
  refine h.worker_moves hw hc ?_ ha (fun _ _ => rfl) List.prefix_rfl rfl (he.trans h.executed)
  rw [Tpool.settled_worker hl, hw, Function.update_self]
  exact hq

/-- A worker moves without the mutex. -/
theorem worker_outside {w : Fin n} (h : Tracks x s) (he : x.Exclusive)
    (hw : (x.worker w).holds = false) {a : WorkerAt} (ha : a.Tracked s w) :
    Tracks (x.setWorker w a) s := by
  refine h.worker_moves (w := w) rfl rfl ?_ ha (fun _ _ => rfl) List.prefix_rfl rfl h.executed
  rw [Tpool.settled_setWorker he hw]
  exact h.queue

theorem worker_stmt {w : Fin n} {a : WorkerAt} {q : TaskQueue} (h : Tracks x s) (he : x.Exclusive)
    (hk : x.Knows) (ha : (x.worker w).stmt x.queue = some (a, q)) :
    ∃ s', ReflTransGen PoolStep s s' ∧ Tracks { x.setWorker w a with queue := q } s' := by
  by_cases hf : x.worker w = .fetch
  · rw [hf] at ha
    obtain ⟨rfl, rfl⟩ := Prod.mk.inj (Option.some.inj ha)
    obtain ⟨hp, ht⟩ := h.fetch he hk hf
    exact ⟨_, .single hp, ht⟩
  · obtain ⟨ht, hq⟩ := (h.worker w).stmt ha hf
    have hh := (WorkerAt.holds_stmt ha).1
    refine ⟨s, .refl, h.worker_inside (w := w) rfl rfl ((he (.inl w)).mpr hh) ht ?_ rfl⟩
    refine (congrArg TaskQueue.ring hq).trans ?_
    exact h.ring_worker he rfl hh

theorem worker_unlock {w : Fin n} {a : WorkerAt} (h : Tracks x s) (he : x.Exclusive) (hk : x.Knows)
    (ha : (x.worker w).released = some a) :
    ∃ s', ReflTransGen PoolStep s s' ∧ Tracks { x.setWorker w a with lock := none } s' := by
  by_cases hl : x.worker w = .leave
  · rw [hl] at ha
    obtain rfl := Option.some.inj ha
    obtain ⟨hp, ht⟩ := h.leave he hk hl
    exact ⟨_, .single hp, ht⟩
  · obtain ⟨ht, hq⟩ := (h.worker w).released (q := x.queue) ha hl
    refine ⟨s, .refl,
      h.worker_moves (w := w) rfl rfl ?_ ht (fun _ _ => rfl) List.prefix_rfl rfl h.executed⟩
    rw [Tpool.settled_none rfl, ← h.ring_worker he rfl (WorkerAt.holds_released ha).1, hq]
    rfl

/-- A worker that is signalled waits for the mutex. -/
theorem signalled {w : Fin n} (h : Tracks x s) (hw : x.worker w = .asleep) (v : Fin n) :
    (Function.update x.worker w .relock v).Tracked s v := by
  have hv := h.worker v
  by_cases e : v = w
  · subst e
    rw [hw] at hv
    rw [Function.update_self]
    exact hv
  · rw [Function.update_of_ne e]
    exact hv

variable [DecidableEq κ]

/-- One caller moves, and the task pool may take its step. -/
theorem caller_moves {c : κ} {a : CallerAt n} (h : Tracks x s) (hw : ∀ w, (y.worker w).Tracked s' w)
    (hc : y.caller = Function.update x.caller c a) (hq : y.settled.ring = s'.queue.ring)
    (ha : ∀ d, a.decided = some d → d ∈ s'.calls) (hcalls : s.calls ⊆ s'.calls)
    (he : y.executed = s'.executed.length) : Tracks y s' where
  queue := hq
  worker := hw
  caller d r hr := by
    rw [hc] at hr
    by_cases e : d = c
    · subst e
      rw [Function.update_self] at hr
      exact ha r hr
    · rw [Function.update_of_ne e] at hr
      exact hcalls (h.caller d r hr)
  executed := he

/-- A caller whose task is accepted. -/
theorem store {c : κ} {b : Block} (h : Tracks x s) (he : x.Exclusive) (hk : x.Knows)
    (hc : x.caller c = .store b) :
    Tracks { x.setCaller c (.tail b) with
      queue := { x.queue with q := Function.update x.queue.q x.queue.tail (some b) } } (s.submit b) := by
  have hroom : ¬(x.queue.count = taskCap ∨ x.queue.shutdown = true) := by
    have hc' := hk.caller c
    rwa [hc] at hc'
  have hl : x.lock = some (.inr c) := (he (.inr c)).mpr (by simp [Tpool.holds, hc, CallerAt.holds])
  obtain ⟨hr, hq⟩ := tpoolSubmit_ring (h.ring_caller he hc rfl) b
  rw [show (CallerAt.store b : CallerAt n).settle x.queue = x.queue from rfl,
    tpoolSubmit_store (n := n) hroom] at hr hq
  refine h.caller_moves (c := c) (fun w => ?_) rfl ?_ ?_ ?_ h.executed
  · exact (h.worker w).mono rfl List.prefix_rfl
  · refine (congrArg TaskQueue.ring (Tpool.settled_caller (c := c) (by exact hl))).trans ?_
    simp only [Tpool.setCaller, Function.update_self]
    exact hq
  · intro d hd
    cases hd
    simp [TaskPool.submit, ← hr]
  · exact List.subset_append_left _ _

/-- A caller whose task is refused. -/
theorem refuse {c : κ} {b : Block} (h : Tracks x s) (he : x.Exclusive) (hk : x.Knows)
    (hc : x.caller c = .refuse b) :
    Tracks { x.setCaller c (.miss b) with lock := none } (s.submit b) := by
  have hfull : x.queue.count = taskCap ∨ x.queue.shutdown = true := by
    have hc' := hk.caller c
    rwa [hc] at hc'
  have hq₀ : x.queue.ring = s.queue.ring := h.ring_caller he hc rfl
  obtain ⟨hr, hq⟩ := tpoolSubmit_ring hq₀ b
  rw [(tpoolSubmit_refuse hfull b).1] at hr
  rw [(tpoolSubmit_refuse hfull b).2] at hq
  refine h.caller_moves (c := c) (fun w => ?_) rfl ?_ ?_ ?_ h.executed
  · exact (h.worker w).mono rfl List.prefix_rfl
  · rw [Tpool.settled_none rfl]
    exact hq
  · intro d hd
    cases hd
    simp [TaskPool.submit, ← hr]
  · exact List.subset_append_left _ _

/-- `g_pool.shutdown = 1`. -/
theorem close {c : κ} (h : Tracks x s) (he : x.Exclusive) (hc : x.caller c = .set) :
    Tracks { x.setCaller c .broadcast with queue := { x.queue with shutdown := true } } s.shutdown := by
  have hl : x.lock = some (.inr c) := (he (.inr c)).mpr (by simp [Tpool.holds, hc, CallerAt.holds])
  refine h.caller_moves (c := c) (fun w => ?_) rfl ?_ ?_ ?_ h.executed
  · exact (h.worker w).mono rfl List.prefix_rfl
  · refine (congrArg TaskQueue.ring (Tpool.settled_caller (c := c) (by exact hl))).trans ?_
    simp only [Tpool.setCaller, Function.update_self]
    exact tpoolShutdown_ring (h.ring_caller he hc rfl)
  · intro d hd
    cases hd
  · exact List.Subset.refl _

/-- A caller moves within its section, and may wake workers. -/
theorem caller_inside {c : κ} {a : CallerAt n} (h : Tracks x s) (hw : ∀ w, (y.worker w).Tracked s w)
    (hc : y.caller = Function.update x.caller c a) (hl : y.lock = some (.inr c))
    (ha : ∀ d, a.decided = some d → (x.caller c).decided = some d)
    (hq : (a.settle y.queue).ring = s.queue.ring) (he : y.executed = x.executed) : Tracks y s := by
  refine h.caller_moves hw hc ?_ (fun d hd => h.caller c d (ha d hd)) (List.Subset.refl _)
    (he.trans h.executed)
  rw [Tpool.settled_caller hl, hc, Function.update_self]
  exact hq

/-- A caller moves without the mutex. -/
theorem caller_outside {c : κ} (h : Tracks x s) (he : x.Exclusive) (hc : (x.caller c).holds = false)
    {a : CallerAt n} (ha : ∀ d, a.decided = some d → (x.caller c).decided = some d) :
    Tracks (x.setCaller c a) s := by
  refine h.caller_moves (c := c) h.worker rfl ?_ (fun d hd => h.caller c d (ha d hd))
    (List.Subset.refl _) h.executed
  rw [Tpool.settled_setCaller he hc]
  exact h.queue

theorem caller_stmt {c : κ} {a : CallerAt n} {q : TaskQueue} (h : Tracks x s) (he : x.Exclusive)
    (hk : x.Knows) (ha : (x.caller c).stmt x.queue = some (a, q)) :
    ∃ s', ReflTransGen PoolStep s s' ∧ Tracks { x.setCaller c a with queue := q } s' := by
  by_cases hb : ∃ b, x.caller c = .store b
  · obtain ⟨b, hb⟩ := hb
    rw [hb] at ha
    obtain ⟨rfl, rfl⟩ := Prod.mk.inj (Option.some.inj ha)
    exact ⟨_, .single (.submit b), h.store he hk hb⟩
  by_cases hc : x.caller c = .set
  · rw [hc] at ha
    obtain ⟨rfl, rfl⟩ := Prod.mk.inj (Option.some.inj ha)
    exact ⟨_, .single .shutdown, h.close he hc⟩
  · obtain ⟨hd, hq⟩ := CallerAt.decided_stmt ha (fun b e => hb ⟨b, e⟩) hc
    have hh := (CallerAt.holds_stmt ha).1
    refine ⟨s, .refl, h.caller_inside (c := c) h.worker rfl ((he (.inr c)).mpr hh) ?_ ?_ rfl⟩
    · exact fun d hd' => hd ▸ hd'
    · refine (congrArg TaskQueue.ring hq).trans ?_
      exact h.ring_caller he rfl hh

theorem caller_unlock {c : κ} {a : CallerAt n} (h : Tracks x s) (he : x.Exclusive) (hk : x.Knows)
    (ha : (x.caller c).released = some a) :
    ∃ s', ReflTransGen PoolStep s s' ∧ Tracks { x.setCaller c a with lock := none } s' := by
  by_cases hb : ∃ b, x.caller c = .refuse b
  · obtain ⟨b, hb⟩ := hb
    rw [hb] at ha
    obtain rfl := Option.some.inj ha
    exact ⟨_, .single (.submit b), h.refuse he hk hb⟩
  · obtain ⟨hd, hq⟩ := CallerAt.decided_released (q := x.queue) ha (fun b e => hb ⟨b, e⟩)
    refine ⟨s, .refl, h.caller_moves (c := c) h.worker rfl ?_ ?_ (List.Subset.refl _) h.executed⟩
    · rw [Tpool.settled_none rfl, ← h.ring_caller he rfl (CallerAt.holds_released ha).1, hq]
      rfl
    · rw [hd]
      exact h.caller c

/-- What a caller does after its unlock changes the counter of drops alone. -/
theorem caller_unlocked {c : κ} {a : CallerAt n} {q : TaskQueue} (h : Tracks x s) (he : x.Exclusive)
    (hk : x.Knows) (ha : (x.caller c).unlocked x.queue = some (a, q)) :
    Tracks { x.setCaller c a with queue := q } s := by
  have hh := (CallerAt.holds_unlocked ha).1
  refine h.caller_moves (c := c) h.worker rfl ?_ ?_ (List.Subset.refl _) h.executed
  · have hq : Tpool.settled { x.setCaller c a with queue := q } =
        { (x.setCaller c a).settled with drops := q.drops } :=
      Tpool.settled_drops (CallerAt.knows_unlocked (h := hk.caller c) ha).2
    rw [hq, Tpool.settled_setCaller he hh]
    exact h.queue
  · rw [CallerAt.decided_unlocked ha]
    exact h.caller c

/-- A caller at its signal or its broadcast, with the workers that it wakes. -/
theorem caller_wakes {c : κ} {a : CallerAt n} {ws : Fin n → WorkerAt} (h : Tracks x s)
    (he : x.Exclusive) (hc : (x.caller c).holds = true)
    (hws : ∀ w, (ws w).Tracked s w)
    (ha : ∀ d, a.decided = some d → (x.caller c).decided = some d)
    (hq : a.settle x.queue = (x.caller c).settle x.queue) :
    Tracks { x.setCaller c a with worker := ws } s := by
  refine h.caller_inside (c := c) hws rfl ((he (.inr c)).mpr hc) ha ?_ rfl
  refine (congrArg TaskQueue.ring hq).trans ?_
  exact h.ring_caller he rfl hc

/-- **A statement of a thread is no step of the task pool, or one.** -/
theorem move (h : Tracks x s) (he : x.Exclusive) (hk : x.Knows) (hs : Tpool.Move x y) :
    ∃ s', ReflTransGen PoolStep s s' ∧ Tracks y s' := by
  cases hs with
  | workerLock w ha hl =>
      obtain ⟨ht, hq⟩ := (h.worker w).locked (q := x.queue) ha
      refine ⟨s, .refl, h.worker_inside (w := w) rfl rfl rfl ht ?_ rfl⟩
      refine (congrArg TaskQueue.ring hq).trans ?_
      rw [← Tpool.settled_none hl]
      exact h.queue
  | workerStmt w ha => exact h.worker_stmt he hk ha
  | workerUnlock w ha => exact h.worker_unlock he hk ha
  | @workerRun w t ha =>
      have hw := h.worker w
      rw [ha] at hw
      obtain ⟨k, hk, -⟩ := hw
      exact ⟨s, .refl, h.worker_outside he (by rw [ha]; rfl) ⟨k, hk⟩⟩
  | workerCount w ha =>
      obtain ⟨s', hp, ht⟩ := h.finish he ha
      exact ⟨s', .single hp, ht⟩
  | @callerLock c a ha hl =>
      obtain ⟨hd, hq⟩ := CallerAt.decided_locked (q := x.queue) ha
      refine ⟨s, .refl, h.caller_inside (c := c) h.worker rfl rfl ?_ ?_ rfl⟩
      · rw [hd]
        rintro d ⟨⟩
      · refine (congrArg TaskQueue.ring hq).trans ?_
        rw [← Tpool.settled_none hl]
        exact h.queue
  | callerStmt c ha => exact h.caller_stmt he hk ha
  | callerSignal c w ha hw =>
      exact ⟨s, .refl, h.caller_wakes he (by rw [ha]; rfl) (h.signalled hw) (by rw [ha]; exact fun _ => id)
        (by rw [ha]; rfl)⟩
  | callerSignalNone c ha hw =>
      exact ⟨s, .refl, h.caller_wakes he (by rw [ha]; rfl) h.worker (by rw [ha]; exact fun _ => id)
        (by rw [ha]; rfl)⟩
  | callerBroadcast c ha =>
      exact ⟨s, .refl, h.caller_wakes he (by rw [ha]; rfl) (fun w => (h.worker w).woken)
        (by rintro d ⟨⟩) (by rw [ha]; rfl)⟩
  | callerUnlock c ha => exact h.caller_unlock he hk ha
  | callerUnlocked c ha => exact ⟨s, .refl, h.caller_unlocked he hk ha⟩
  | callerJoin c i ha hw =>
      exact ⟨s, .refl, h.caller_outside he (by rw [ha]; rfl) (by rintro d ⟨⟩)⟩
  | callerClosed c ha => exact ⟨s, .refl, h.caller_outside he (by rw [ha]; rfl) (by rintro d ⟨⟩)⟩

/-- **One step of the pool**, new calls and spurious wakeups with it, is no step of the task pool,
or one. -/
theorem step (h : Tracks x s) (he : x.Exclusive) (hk : x.Knows) (hs : Tpool.Step x y) :
    ∃ s', ReflTransGen PoolStep s s' ∧ Tracks y s' := by
  cases hs with
  | move hm => exact h.move he hk hm
  | submit c b ha =>
      exact ⟨s, .refl, h.caller_outside he (CallerAt.holds_outside ha) (by rintro d ⟨⟩)⟩
  | shutdown c ha =>
      exact ⟨s, .refl, h.caller_outside he (CallerAt.holds_outside ha) (by rintro d ⟨⟩)⟩
  | spurious w ha =>
      have hw := h.worker w
      rw [ha] at hw
      exact ⟨s, .refl, h.worker_outside he (by rw [ha]; rfl) hw⟩

omit [DecidableEq κ] in
theorem init : Tracks (.init n κ) .init where
  queue := rfl
  worker _ := rfl
  caller _ _ h := by cases h
  executed := rfl

end Tracks

/-! ### Whole runs -/

variable {n : ℕ} {κ : Type} [DecidableEq κ] {x : Tpool n κ}

theorem tracks_simulates : Simulation.Simulates (Tpool.Step (n := n) (κ := κ)) PoolStep
    fun x s => x.Exclusive ∧ x.Knows ∧ Tracks x s := by
  rintro x y s ⟨he, hk, ht⟩ hs
  obtain ⟨s', hp, ht'⟩ := ht.step he hk hs
  exact ⟨s', hp, he.step hs, hk.step he hs, ht'⟩

/-- A run, as steps from the start. -/
theorem Tpool.Run.reach (h : Tpool.Run x) : Relation.ReflTransGen Tpool.Step (.init n κ) x := by
  induction h with
  | init => exact .refl
  | step _ hs ih => exact ih.tail hs

/-- A run of the task pool, continued. -/
theorem PoolRun.trans {s s' : TaskPool (Fin n)} (h : PoolRun s)
    (hs : Relation.ReflTransGen PoolStep s s') : PoolRun s' := by
  induction hs with
  | refl => exact h
  | tail _ hs ih => exact ih.step hs

/-- Every run of the pool is tracked by one of the task pool. -/
theorem Tpool.Run.tracks (h : Tpool.Run x) : ∃ s, PoolRun s ∧ Tracks x s := by
  obtain ⟨s, hs, -, -, ht⟩ := tracks_simulates.run ⟨.init, .init, Tracks.init⟩ h.reach
  exact ⟨s, PoolRun.init.trans hs, ht⟩

/-- **The critical sections of the pool are atomic.**  Every run of the pool's code, statement by
statement, with any workers, callers and wakeups, is a run of the task pool in which each critical
section is one step: when the mutex is free its ring holds the same tasks, with the same count of
those submitted; a worker runs the task that it took there; a call returns what was decided there;
and as many tasks have run. -/
theorem tpool_refines (h : Tpool.Run x) :
    ∃ s : TaskPool (Fin n), PoolRun s ∧
      (x.lock = none → x.queue.tasks = s.queue.tasks ∧ x.queue.shutdown = s.queue.shutdown ∧
        x.queue.submitted = s.queue.submitted) ∧
      (∀ w t, x.worker w = .run t → ∃ k, s.worker w = .running k ∧ s.taken[k]? = some (w, t)) ∧
      (∀ w, x.worker w = .exited → s.worker w = .exited) ∧
      (∀ c b ok, x.caller c = .back b ok → (b, ok) ∈ s.calls) ∧
      x.executed = s.executed.length := by
  obtain ⟨s, hs, ht⟩ := h.tracks
  refine ⟨s, hs, fun hl => ?_, fun w t hw => ?_, fun w hw => ?_, fun c b ok hc => ?_, ht.executed⟩
  · have hq := ht.queue
    rw [Tpool.settled_none hl] at hq
    obtain ⟨htasks, hshut, hsub, -⟩ := TaskQueue.ring_congr hq
    exact ⟨htasks, hshut, hsub⟩
  · have hw' := ht.worker w
    rw [hw] at hw'
    exact hw'
  · have hw' := ht.worker w
    rw [hw] at hw'
    exact hw'
  · exact ht.caller c (b, ok) (by rw [hc]; rfl)

/-- One worker, at the task that one caller has submitted. -/
def atTask : Tpool 1 Unit :=
  (((Tpool.init 1 Unit).setCaller () (.enter (.heap 0))).turns (List.replicate 8 (.inr ()))).turns
    (List.replicate 8 (.inl 0))

theorem atTask_run : Tpool.Run atTask :=
  ((Tpool.Run.init.step (.submit () (.heap 0) rfl)).turns _).turns _

theorem tpool_refines_atTask : ∃ s : TaskPool (Fin 1), PoolRun s ∧ (.heap 0, true) ∈ s.calls ∧
    ∃ k : ℕ, s.worker 0 = .running k ∧ s.taken[k]? = some (0, some (.heap 0)) := by
  obtain ⟨s, hs, -, hw, -, hc, -⟩ := tpool_refines atTask_run
  exact ⟨s, hs, hc () (.heap 0) true rfl, hw 0 (some (.heap 0)) rfl⟩

end LinuxRouter
