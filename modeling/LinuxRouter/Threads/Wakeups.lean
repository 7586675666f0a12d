import LinuxRouter.Threads.Atomic

/-!
# Threads — the pool neither sleeps on a task nor hangs

* `tpool_awake`: while a worker sleeps, there are as many workers on their way to the queue as there
  are tasks in it, but for one signal still to be sent.
* `tpool_settles`: without new calls the pool comes to rest after finitely many steps, and then every
  task is done, every call is over, and every worker sleeps, or has exited after a shutdown.
* `tpoolShutdown_drains`: when `tpool_shutdown` returns, every worker has exited, every accepted task
  has run, and nothing happens any more.

The signal that wakes a worker is sent before the unlock, but after the task has been counted, so
that the queue and the sleepers agree only up to the signals that are due.  The invariant is a
balance (`Tpool.Awake`): the tasks in the queue are no more than the workers on their way to it,
`coming`, and the callers about to signal, `waking`.  A statement takes as much out of it as it puts
in; a worker goes to sleep only where the queue is empty, and there the balance asks for nothing.

A pool without new calls comes to rest because every thread has a `weight`, how many statements it
is from its next sleep or return.  A task in the queue weighs as much as the way of a worker from
one sleep to the next, and a signal pays for the worker that it wakes, so that every step of any
thread makes the sum smaller.  Where no step is left, nobody holds the mutex (`Still.lock`); the
workers sleep or have exited, the callers are outside, and the balance leaves no task in the queue.

After a shutdown two more facts carry the argument: the sleepers are woken before the mutex is free
again (`Heard`), and a `tpool_shutdown` that is past a worker has seen it exit (`Joined`).
-/

namespace LinuxRouter

/-! ### Workers on their way -/

/-- A worker that will look into the queue before it sleeps, and has not taken a task from it. -/
def WorkerAt.coming : WorkerAt → ℕ
  | .enter => 1
  | .relock => 1
  | .loop => 1
  | .test => 1
  | .fetch => 1
  | .bump _ => 1
  | .decr _ => 1
  | _ => 0

/-- A caller that has counted its task and not yet signalled. -/
def CallerAt.waking {n : ℕ} : CallerAt n → ℕ
  | .submitted _ => 1
  | .signal _ => 1
  | _ => 0

section Places

variable {n : ℕ} {a a' : WorkerAt} {k k' : CallerAt n} {q q' : TaskQueue}

/-- A worker that gets the mutex is as far on its way as before. -/
theorem WorkerAt.coming_locked (h : a.locked = some a') : a'.coming = a.coming ∧ a' ≠ .asleep := by
  cases a <;> simp only [locked, Option.some.injEq, reduceCtorEq] at h <;> subst h <;>
    exact ⟨rfl, WorkerAt.noConfusion⟩

/-- A worker's statement leaves an empty queue, or takes a task with it. -/
theorem WorkerAt.coming_stmt (hk : a.knows q) (h : a.stmt q = some (a', q')) :
    a' ≠ .asleep ∧ (q'.count = 0 ∨ q'.count + a.coming = q.count + a'.coming) := by
  cases a <;> simp only [stmt, Option.some.injEq, Prod.mk.injEq, reduceCtorEq] at h <;>
    obtain ⟨rfl, rfl⟩ := h
  case loop =>
    split
    · rename_i hc
      exact ⟨WorkerAt.noConfusion, .inl hc.1⟩
    · exact ⟨WorkerAt.noConfusion, .inr rfl⟩
  case test =>
    split
    · rename_i hc
      exact ⟨WorkerAt.noConfusion, .inl hc.1⟩
    · exact ⟨WorkerAt.noConfusion, .inr rfl⟩
  case decr t =>
    refine ⟨WorkerAt.noConfusion, .inr ?_⟩
    simp only [coming]
    have hpos : q.count ≠ 0 := hk
    omega
  all_goals exact ⟨WorkerAt.noConfusion, .inr rfl⟩

/-- A worker goes to sleep only on an empty queue. -/
theorem WorkerAt.coming_released (hk : a.knows q) (h : a.released = some a') :
    q.count = 0 ∨ (a' ≠ .asleep ∧ a'.coming = a.coming) := by
  cases a <;> simp only [released, Option.some.injEq, reduceCtorEq] at h <;> subst h
  case wait => exact .inl hk.1
  case leave => exact .inl hk.1
  case unlock t => exact .inr ⟨WorkerAt.noConfusion, rfl⟩

/-- A signal leaves no worker asleep. -/
theorem WorkerAt.woken_ne (a : WorkerAt) : a.woken ≠ .asleep := by
  cases a <;> exact WorkerAt.noConfusion

/-- A caller's statement counts a task together with the signal for it. -/
theorem CallerAt.waking_stmt (h : k.stmt q = some (k', q')) :
    q'.count + k.waking = q.count + k'.waking := by
  cases k <;> simp only [stmt, Option.some.injEq, Prod.mk.injEq, reduceCtorEq] at h <;>
    obtain ⟨rfl, rfl⟩ := h
  case guard b => split <;> rfl
  all_goals rfl

/-- With the mutex alone no signal falls due. -/
theorem CallerAt.waking_locked (h : k.locked = some k') : k'.waking = k.waking := by
  cases k <;> simp only [locked, Option.some.injEq, reduceCtorEq] at h <;> subst h <;> rfl

/-- A caller unlocks only after its signal. -/
theorem CallerAt.waking_released (h : k.released = some k') : k'.waking = k.waking := by
  cases k <;> simp only [released, Option.some.injEq, reduceCtorEq] at h <;> subst h <;> rfl

/-- What a caller does after its unlock is of no task and no signal. -/
theorem CallerAt.waking_unlocked (h : k.unlocked q = some (k', q')) :
    q'.count = q.count ∧ k'.waking = k.waking := by
  cases k <;> simp only [unlocked, Option.some.injEq, Prod.mk.injEq, reduceCtorEq] at h <;>
    obtain ⟨rfl, rfl⟩ := h
  case miss b =>
    refine ⟨rfl, ?_⟩
    split <;> rfl
  case drop b => exact ⟨rfl, rfl⟩

/-- The statements that the shutdown shows in. -/
theorem WorkerAt.shutdown_stmt (h : a.stmt q = some (a', q')) : q'.shutdown = q.shutdown := by
  cases a <;> simp only [stmt, Option.some.injEq, Prod.mk.injEq, reduceCtorEq] at h <;>
    obtain ⟨rfl, rfl⟩ := h <;> rfl

/-- A worker falls asleep from its wait and from nowhere else. -/
theorem WorkerAt.released_asleep (h : a.released = some .asleep) : a = .wait := by
  cases a <;> simp only [released, Option.some.injEq, reduceCtorEq] at h
  rfl

/-- A caller that shuts the queue down comes to its broadcast next. -/
theorem CallerAt.shutdown_stmt (h : k.stmt q = some (k', q')) :
    (q'.shutdown = true → q.shutdown = true ∨ k' = .broadcast) ∧ k ≠ .broadcast := by
  cases k <;> simp only [stmt, Option.some.injEq, Prod.mk.injEq, reduceCtorEq] at h <;>
    obtain ⟨rfl, rfl⟩ := h <;> refine ⟨?_, by simp⟩
  case set => exact fun _ => .inr rfl
  all_goals exact .inl

/-- After its unlock a caller leaves the flag alone. -/
theorem CallerAt.shutdown_unlocked (h : k.unlocked q = some (k', q')) :
    q'.shutdown = q.shutdown ∧ k ≠ .broadcast := by
  cases k <;> simp only [unlocked, Option.some.injEq, Prod.mk.injEq, reduceCtorEq] at h <;>
    obtain ⟨rfl, rfl⟩ := h <;> exact ⟨rfl, by simp⟩

/-- A caller at its broadcast has the mutex already. -/
theorem CallerAt.locked_ne (h : k.locked = some k') : k ≠ .broadcast := by
  rintro rfl
  cases h

/-- A caller does not unlock before its broadcast. -/
theorem CallerAt.released_ne (h : k.released = some k') : k ≠ .broadcast := by
  rintro rfl
  cases h

/-- A caller outside both functions has no broadcast to make. -/
theorem CallerAt.outside_ne (h : k.outside = true) : k ≠ .broadcast := by
  rintro rfl
  cases h

/-- Only an unlock leads to the joins, and only to the first. -/
theorem CallerAt.released_apart (h : k.released = some k') :
    (∀ i, k' = .join i → i = 0) ∧ k' ≠ .closed := by
  cases k <;> simp only [released, Option.some.injEq, reduceCtorEq] at h <;> subst h <;> simp [eq_comm]

/-- Nobody comes to the joins by taking the mutex. -/
theorem CallerAt.locked_apart (h : k.locked = some k') : (∀ i, k' ≠ .join i) ∧ k' ≠ .closed := by
  cases k <;> simp only [locked, Option.some.injEq, reduceCtorEq] at h <;> subst h <;> simp

/-- Nor by a statement within the section. -/
theorem CallerAt.stmt_apart (h : k.stmt q = some (k', q')) : (∀ i, k' ≠ .join i) ∧ k' ≠ .closed := by
  cases k <;> simp only [stmt, Option.some.injEq, Prod.mk.injEq, reduceCtorEq] at h <;>
    obtain ⟨rfl, rfl⟩ := h
  case guard b => split <;> simp
  all_goals simp

/-- Nor by what follows a refusal. -/
theorem CallerAt.unlocked_apart (h : k.unlocked q = some (k', q')) :
    (∀ i, k' ≠ .join i) ∧ k' ≠ .closed := by
  cases k <;> simp only [unlocked, Option.some.injEq, Prod.mk.injEq, reduceCtorEq] at h <;>
    obtain ⟨rfl, rfl⟩ := h
  case miss b => split <;> simp
  all_goals simp

/-- An exited worker takes no step. -/
theorem WorkerAt.locked_ne (h : a.locked = some a') : a ≠ .exited := by
  rintro rfl
  cases h

/-- An exited worker makes no statement. -/
theorem WorkerAt.stmt_ne (h : a.stmt q = some (a', q')) : a ≠ .exited := by
  rintro rfl
  cases h

theorem WorkerAt.released_ne (h : a.released = some a') : a ≠ .exited := by
  rintro rfl
  cases h

/-- After a shutdown no statement changes the ring. -/
theorem CallerAt.stmt_closed (hk : k.knows q) (hs : q.shutdown = true) (h : k.stmt q = some (k', q')) :
    q'.ring = q.ring ∧ q'.shutdown = true := by
  cases k <;> simp only [stmt, Option.some.injEq, Prod.mk.injEq, reduceCtorEq] at h <;>
    obtain ⟨rfl, rfl⟩ := h
  case guard b => exact ⟨rfl, hs⟩
  case store b => exact absurd (.inr hs) hk
  case set => exact ⟨by simp only [TaskQueue.ring, hs], rfl⟩
  all_goals exact Bool.noConfusion (hs.symm.trans hk)

/-- A caller with assignments to make has found the queue open. -/
theorem CallerAt.settle_closed (hk : k.knows q) (hs : q.shutdown = true) : k.settle q = q := by
  cases k with
  | tail | count | submitted => exact Bool.noConfusion (hs.symm.trans hk)
  | _ => rfl

/-- A worker in a section has a statement, or unlocks. -/
theorem WorkerAt.goes_on (h : a.holds = true) :
    (∃ a' q', a.stmt q = some (a', q')) ∨ ∃ a', a.released = some a' := by
  cases a with
  | loop | test | fetch | bump | decr | signal => exact .inl ⟨_, _, rfl⟩
  | wait | leave | unlock => exact .inr ⟨_, rfl⟩
  | enter | asleep | relock | exited | run | ran => cases h

/-- A caller in a section has a statement, an unlock, a signal or the broadcast before it. -/
theorem CallerAt.goes_on (h : k.holds = true) :
    (∃ k' q', k.stmt q = some (k', q')) ∨ (∃ k', k.released = some k') ∨ (∃ b, k = .signal b) ∨
      k = .broadcast := by
  cases k with
  | guard | store | tail | count | submitted | set => exact .inl ⟨_, _, rfl⟩
  | unlock | refuse | unlockClose => exact .inr (.inl ⟨_, rfl⟩)
  | signal b => exact .inr (.inr (.inl ⟨b, rfl⟩))
  | broadcast => exact .inr (.inr (.inr rfl))
  | out | enter | miss | drop | back | close | join | closed => cases h

/-- What a worker outside the sections waits for. -/
theorem WorkerAt.waits (h : a.holds = false) :
    (∃ a', a.locked = some a') ∨ (∃ t, a = .run t) ∨ a = .ran ∨ a = .asleep ∨ a = .exited := by
  cases a with
  | enter | relock => exact .inl ⟨_, rfl⟩
  | run t => exact .inr (.inl ⟨t, rfl⟩)
  | ran => exact .inr (.inr (.inl rfl))
  | asleep => exact .inr (.inr (.inr (.inl rfl)))
  | exited => exact .inr (.inr (.inr (.inr rfl)))
  | loop | wait | test | leave | fetch | bump | decr | signal | unlock => cases h

/-- What a caller outside the sections waits for. -/
theorem CallerAt.waits (h : k.holds = false) :
    (∃ k', k.locked = some k') ∨ (∃ k' q', k.unlocked q = some (k', q')) ∨ (∃ i, k = .join i) ∨
      k.outside = true ∨ k = .closed := by
  cases k with
  | enter | close => exact .inl ⟨_, rfl⟩
  | miss | drop => exact .inr (.inl ⟨_, _, rfl⟩)
  | join i => exact .inr (.inr (.inl ⟨i, rfl⟩))
  | out | back => exact .inr (.inr (.inr (.inl rfl)))
  | closed => exact .inr (.inr (.inr (.inr rfl)))
  | guard | store | tail | count | submitted | signal | unlock | refuse | set | broadcast
  | unlockClose => cases h

/-- Outside the two functions no signal is due. -/
theorem CallerAt.waking_outside (h : k.outside = true) : k.waking = 0 := by
  cases k <;> first | rfl | cases h

end Places

namespace Tpool

variable {n : ℕ} {κ : Type} [Fintype κ] {x y : Tpool n κ}

/-- The workers on their way to the queue. -/
def coming (x : Tpool n κ) : ℕ := ∑ w, (x.worker w).coming

/-- The signals that are due. -/
def waking (x : Tpool n κ) : ℕ := ∑ c, (x.caller c).waking

/-- No worker sleeps while there is a task that nobody is on the way to. -/
def Awake (x : Tpool n κ) : Prop :=
  (∃ w, x.worker w = .asleep) → x.queue.count ≤ x.coming + x.waking

theorem Awake.of_empty (h : y.queue.count = 0) : y.Awake := fun _ => by
  rw [h]
  exact Nat.zero_le _

/-- What falls out of the balance must come into it. -/
theorem Awake.of_balance (h : x.Awake) (hs : ∀ w, y.worker w = .asleep → ∃ v, x.worker v = .asleep)
    (hb : y.queue.count + x.coming + x.waking ≤ x.queue.count + y.coming + y.waking) : y.Awake := by
  rintro ⟨w, hw⟩
  have hx := h (hs w hw)
  omega

omit [Fintype κ] in
/-- One worker moves. -/
theorem coming_update {w : Fin n} {a : WorkerAt} (hw : y.worker = Function.update x.worker w a) :
    y.coming + (x.worker w).coming = x.coming + a.coming := by
  unfold coming
  rw [hw]
  exact sum_update WorkerAt.coming x.worker w a

omit [Fintype κ] in
/-- A worker that moves, and not to sleep, wakes nobody and puts nobody to sleep. -/
theorem asleep_update {w : Fin n} {a : WorkerAt} (hw : y.worker = Function.update x.worker w a)
    (ha : a ≠ .asleep) (v : Fin n) (hv : y.worker v = .asleep) : ∃ v, x.worker v = .asleep := by
  rw [hw] at hv
  by_cases e : v = w
  · subst e
    rw [Function.update_self] at hv
    exact absurd hv ha
  · rw [Function.update_of_ne e] at hv
    exact ⟨v, hv⟩

/-- A worker moves: what it takes out of the queue pays for its being off the way. -/
theorem Awake.worker_moves (h : x.Awake) {w : Fin n} {a : WorkerAt}
    (hw : y.worker = Function.update x.worker w a) (hc : y.caller = x.caller) (ha : a ≠ .asleep)
    (hb : y.queue.count + (x.worker w).coming ≤ x.queue.count + a.coming) : y.Awake := by
  refine h.of_balance (asleep_update hw ha) ?_
  have hsum := coming_update hw
  have hwake : y.waking = x.waking := by
    unfold waking
    rw [hc]
  omega

variable [DecidableEq κ]

theorem waking_update {c : κ} {a : CallerAt n} (hc : y.caller = Function.update x.caller c a) :
    y.waking + (x.caller c).waking = x.waking + a.waking := by
  unfold waking
  rw [hc]
  exact sum_update CallerAt.waking x.caller c a

/-- A caller moves: what it puts into the queue comes with the signal for it. -/
theorem Awake.caller_moves (h : x.Awake) {c : κ} {a : CallerAt n}
    (hc : y.caller = Function.update x.caller c a) (hw : y.worker = x.worker)
    (hb : y.queue.count + (x.caller c).waking ≤ x.queue.count + a.waking) : y.Awake := by
  refine h.of_balance (fun w e => ⟨w, hw ▸ e⟩) ?_
  have hsum := waking_update hc
  have hcome : y.coming = x.coming := by
    unfold coming
    rw [hw]
  omega

/-- A statement of any thread keeps the balance. -/
theorem Awake.move (h : x.Awake) (hk : x.Knows) (hs : Move x y) : y.Awake := by
  cases hs with
  | workerLock w ha hl =>
      obtain ⟨hc, hn⟩ := WorkerAt.coming_locked ha
      exact h.worker_moves (w := w) rfl rfl hn (by rw [hc]; exact le_rfl)
  | workerStmt w ha =>
      obtain ⟨hn, h₀ | hb⟩ := WorkerAt.coming_stmt (hk.worker w) ha
      · exact .of_empty h₀
      · exact h.worker_moves (w := w) rfl rfl hn hb.le
  | workerUnlock w ha =>
      rcases WorkerAt.coming_released (hk.worker w) ha with h₀ | ⟨hn, hc⟩
      · exact .of_empty h₀
      · exact h.worker_moves (w := w) rfl rfl hn (by rw [hc]; exact le_rfl)
  | workerRun w ha => exact h.worker_moves (w := w) rfl rfl WorkerAt.noConfusion (by rw [ha]; exact le_rfl)
  | workerCount w ha =>
      refine h.worker_moves (w := w) rfl rfl WorkerAt.noConfusion ?_
      rw [ha]
      exact Nat.le_succ _
  | callerLock c ha hl =>
      exact h.caller_moves (c := c) rfl rfl (by rw [CallerAt.waking_locked ha]; exact le_rfl)
  | callerStmt c ha => exact h.caller_moves (c := c) rfl rfl (CallerAt.waking_stmt ha).le
  | @callerSignal c b w ha hw =>
      -- the signal that was due has its worker on the way
      refine h.of_balance (asleep_update (w := w) rfl WorkerAt.noConfusion) ?_
      have hcome := coming_update (x := x) (w := w) (a := .relock)
        (y := { x.setCaller c (.unlock b) with worker := Function.update x.worker w .relock }) rfl
      have hwake := waking_update (x := x) (c := c) (a := .unlock b)
        (y := { x.setCaller c (.unlock b) with worker := Function.update x.worker w .relock }) rfl
      rw [hw] at hcome
      rw [ha] at hwake
      simp only [WorkerAt.coming, CallerAt.waking] at hcome hwake
      simp only [setCaller] at hcome hwake ⊢
      omega
  | callerSignalNone c ha hw => 
      rintro ⟨w, e⟩
      exact absurd e (hw w)
  | callerBroadcast c ha =>
      rintro ⟨w, hw⟩
      exact absurd hw (WorkerAt.woken_ne _)
  | callerUnlock c ha =>
      exact h.caller_moves (c := c) rfl rfl (by rw [CallerAt.waking_released ha]; exact le_rfl)
  | callerUnlocked c ha =>
      obtain ⟨hq, hc⟩ := CallerAt.waking_unlocked ha
      exact h.caller_moves (c := c) rfl rfl (by rw [hc]; exact (Nat.add_le_add_right hq.le _))
  | callerJoin c i ha hw => exact h.caller_moves (c := c) rfl rfl (by rw [ha]; exact le_rfl)
  | callerClosed c ha => exact h.caller_moves (c := c) rfl rfl (by rw [ha]; exact le_rfl)

/-- **One step** keeps the balance; a new call and a spurious wakeup add nothing to the queue. -/
theorem Awake.step (h : x.Awake) (hk : x.Knows) (hs : Step x y) : y.Awake := by
  cases hs with
  | move hm => exact h.move hk hm
  | submit c b ha => exact h.caller_moves (c := c) rfl rfl (by rw [CallerAt.waking_outside ha]; exact le_rfl)
  | shutdown c ha => exact h.caller_moves (c := c) rfl rfl (by rw [CallerAt.waking_outside ha]; exact le_rfl)
  | spurious w ha =>
      refine h.worker_moves (w := w) rfl rfl WorkerAt.noConfusion ?_
      rw [ha]
      exact Nat.le_succ _

/-- The balance holds in every run. -/
theorem Run.awake (h : Run x) : x.Awake := by
  induction h with
  | init => exact .of_empty rfl
  | step hr hs ih => exact ih.step hr.knows hs

end Tpool

/-! ### After a shutdown -/

namespace Tpool

variable {n : ℕ} {κ : Type} [DecidableEq κ] {x y : Tpool n κ}

/-- Once the pool is shut down, the sleeping workers are woken before the mutex is free. -/
def Heard (x : Tpool n κ) : Prop :=
  x.queue.shutdown = true → (∃ w, x.worker w = .asleep) → ∃ c, x.caller c = .broadcast

omit [DecidableEq κ] in
/-- After a shutdown a worker may move anywhere but to sleep. -/
theorem Heard.worker_moves (h : x.Heard) {w : Fin n} {a : WorkerAt}
    (hw : y.worker = Function.update x.worker w a) (hc : y.caller = x.caller)
    (hq : y.queue.shutdown = x.queue.shutdown) (ha : x.queue.shutdown = true → a ≠ .asleep) :
    y.Heard := by
  rintro hs ⟨v, hv⟩
  rw [hq] at hs
  rw [hc]
  exact h hs (asleep_update hw (ha hs) v hv)

/-- The caller that shuts the pool down is at its broadcast as long as somebody sleeps. -/
theorem Heard.caller_moves (h : x.Heard) {c : κ} {a : CallerAt n}
    (hc : y.caller = Function.update x.caller c a) (hw : y.worker = x.worker)
    (hq : y.queue.shutdown = true → x.queue.shutdown = true ∨ a = .broadcast)
    (ha : x.caller c ≠ .broadcast) : y.Heard := by
  rintro hs ⟨v, hv⟩
  rw [hc]
  rcases hq hs with hx | rfl
  · rw [hw] at hv
    obtain ⟨d, hd⟩ := h hx ⟨v, hv⟩
    have e : d ≠ c := by
      rintro rfl
      exact ha hd
    exact ⟨d, by rw [Function.update_of_ne e, hd]⟩
  · exact ⟨c, Function.update_self _ _ _⟩

/-- A statement of any thread keeps the sleepers accounted for. -/
theorem Heard.move (h : x.Heard) (hk : x.Knows) (hs : Move x y) : y.Heard := by
  cases hs with
  | workerLock w ha hl =>
      exact h.worker_moves (w := w) rfl rfl rfl fun _ => (WorkerAt.coming_locked ha).2
  | workerStmt w ha =>
      refine h.worker_moves (w := w) rfl rfl ?_ fun _ => (WorkerAt.coming_stmt (hk.worker w) ha).1
      exact WorkerAt.shutdown_stmt ha
  | @workerUnlock w a ha =>
      refine h.worker_moves (w := w) rfl rfl rfl fun hs => ?_
      rintro rfl
      have hw := hk.worker w
      rw [WorkerAt.released_asleep ha] at hw
      exact Bool.noConfusion (hw.2.symm.trans hs)
  | workerRun w ha => exact h.worker_moves (w := w) rfl rfl rfl fun _ => WorkerAt.noConfusion
  | workerCount w ha => exact h.worker_moves (w := w) rfl rfl rfl fun _ => WorkerAt.noConfusion
  | callerLock c ha hl => exact h.caller_moves (c := c) rfl rfl .inl (CallerAt.locked_ne ha)
  | callerStmt c ha =>
      obtain ⟨hq, hn⟩ := CallerAt.shutdown_stmt ha
      exact h.caller_moves (c := c) rfl rfl hq hn
  | @callerSignal c b w ha hw =>
      have hc : (x.setCaller c (.unlock b)).Heard :=
        h.caller_moves (c := c) rfl rfl .inl (by simp [ha])
      exact hc.worker_moves (w := w) (a := .relock) rfl rfl rfl fun _ => WorkerAt.noConfusion
  | callerSignalNone c ha hw =>
      exact h.caller_moves (c := c) rfl rfl .inl (by simp [ha])
  | callerBroadcast c ha =>
      rintro - ⟨w, hw⟩
      exact absurd hw (WorkerAt.woken_ne _)
  | callerUnlock c ha => exact h.caller_moves (c := c) rfl rfl .inl (CallerAt.released_ne ha)
  | callerUnlocked c ha =>
      obtain ⟨hq, hn⟩ := CallerAt.shutdown_unlocked ha
      exact h.caller_moves (c := c) rfl rfl (fun hs => .inl (hq ▸ hs)) hn
  | callerJoin c i ha hw =>
      exact h.caller_moves (c := c) rfl rfl .inl (by simp [ha])
  | callerClosed c ha =>
      exact h.caller_moves (c := c) rfl rfl .inl (by simp [ha])

/-- **One step** keeps them so. -/
theorem Heard.step (h : x.Heard) (hk : x.Knows) (hs : Step x y) : y.Heard := by
  cases hs with
  | move hm => exact h.move hk hm
  | submit c b ha => exact h.caller_moves (c := c) rfl rfl .inl (CallerAt.outside_ne ha)
  | shutdown c ha => exact h.caller_moves (c := c) rfl rfl .inl (CallerAt.outside_ne ha)
  | spurious w ha => exact h.worker_moves (w := w) rfl rfl rfl fun _ => WorkerAt.noConfusion

/-- In every run a shutdown wakes the sleepers before the mutex is free. -/
theorem Run.heard (h : Run x) : x.Heard := by
  induction h with
  | init =>
      intro hs
      cases hs
  | step hr hs ih => exact ih.step hr.knows hs

/-- A `tpool_shutdown` has waited for the workers that it has passed. -/
structure Joined (x : Tpool n κ) : Prop where
  join : ∀ c i, x.caller c = .join i → i ≤ n ∧ ∀ w : Fin n, w < i → x.worker w = .exited
  closed : ∀ c, x.caller c = .closed → ∀ w, x.worker w = .exited

omit [DecidableEq κ] in
/-- No worker comes back. -/
theorem Joined.worker_moves (h : x.Joined) (hc : y.caller = x.caller)
    (hw : ∀ w, x.worker w = .exited → y.worker w = .exited) : y.Joined where
  join c i hi := (h.join c i (hc ▸ hi)).imp_right fun hx w hlt => hw w (hx w hlt)
  closed c hcl w := hw w (h.closed c (hc ▸ hcl) w)

/-- A caller goes on to the next join only when the worker has exited. -/
theorem Joined.caller_moves (h : x.Joined) {c : κ} {a : CallerAt n}
    (hc : y.caller = Function.update x.caller c a)
    (hw : ∀ w, x.worker w = .exited → y.worker w = .exited)
    (hj : ∀ i, a = .join i → i ≤ n ∧ ∀ w : Fin n, w < i → x.worker w = .exited)
    (hcl : a = .closed → ∀ w, x.worker w = .exited) : y.Joined where
  join d i hi := by
    rw [hc] at hi
    by_cases e : d = c
    · subst e
      rw [Function.update_self] at hi
      exact (hj i hi).imp_right fun hx w hlt => hw w (hx w hlt)
    · rw [Function.update_of_ne e] at hi
      exact (h.join d i hi).imp_right fun hx w hlt => hw w (hx w hlt)
  closed d hd w := by
    rw [hc] at hd
    by_cases e : d = c
    · subst e
      rw [Function.update_self] at hd
      exact hw w (hcl hd w)
    · rw [Function.update_of_ne e] at hd
      exact hw w (h.closed d hd w)

omit [DecidableEq κ] in
/-- A worker that moves has not exited, and the others stay where they are. -/
theorem exited_update {w : Fin n} {a : WorkerAt} (hw : x.worker w ≠ .exited) (v : Fin n)
    (hv : x.worker v = .exited) : Function.update x.worker w a v = .exited := by
  have e : v ≠ w := by
    rintro rfl
    exact hw hv
  rw [Function.update_of_ne e, hv]

/-- A statement of any thread keeps what the joins have seen. -/
theorem Joined.move (h : x.Joined) (hs : Move x y) : y.Joined := by
  cases hs with
  | workerLock w ha hl => exact h.worker_moves rfl (exited_update (WorkerAt.locked_ne ha))
  | workerStmt w ha => exact h.worker_moves rfl (exited_update (WorkerAt.stmt_ne ha))
  | workerUnlock w ha => exact h.worker_moves rfl (exited_update (WorkerAt.released_ne ha))
  | workerRun w ha => exact h.worker_moves rfl (exited_update (by simp [ha]))
  | workerCount w ha => exact h.worker_moves rfl (exited_update (by simp [ha]))
  | callerLock c ha hl =>
      obtain ⟨hj, hcl⟩ := CallerAt.locked_apart ha
      exact h.caller_moves (c := c) rfl (fun _ => id) (fun i e => absurd e (hj i)) fun e => absurd e hcl
  | callerStmt c ha =>
      obtain ⟨hj, hcl⟩ := CallerAt.stmt_apart ha
      exact h.caller_moves (c := c) rfl (fun _ => id) (fun i e => absurd e (hj i)) fun e => absurd e hcl
  | callerSignal c w ha hw =>
      exact h.caller_moves (c := c) rfl (exited_update (by simp [hw])) (by simp) (by simp)
  | callerSignalNone c ha hw => exact h.caller_moves (c := c) rfl (fun _ => id) (by simp) (by simp)
  | callerBroadcast c ha =>
      refine h.caller_moves (c := c) rfl (fun w hw => ?_) (by simp) (by simp)
      simp [hw, WorkerAt.woken]
  | callerUnlock c ha =>
      obtain ⟨hj, hcl⟩ := CallerAt.released_apart ha
      refine h.caller_moves (c := c) rfl (fun _ => id) (fun i e => ?_) fun e => absurd e hcl
      rw [hj i e]
      exact ⟨Nat.zero_le n, fun w hlt => absurd hlt (Nat.not_lt_zero _)⟩
  | callerUnlocked c ha =>
      obtain ⟨hj, hcl⟩ := CallerAt.unlocked_apart ha
      exact h.caller_moves (c := c) rfl (fun _ => id) (fun i e => absurd e (hj i)) fun e => absurd e hcl
  | callerJoin c i ha hw =>
      refine h.caller_moves (c := c) rfl (fun _ => id) (fun j e => ?_) (by simp)
      obtain rfl := CallerAt.join.inj e
      refine ⟨i.2, fun w hlt => ?_⟩
      rcases Nat.lt_succ_iff_lt_or_eq.mp hlt with hlt | heq
      · exact (h.join c i ha).2 w hlt
      · rwa [Fin.ext heq]
  | callerClosed c ha =>
      exact h.caller_moves (c := c) rfl (fun _ => id) (by simp) fun _ w => (h.join c n ha).2 w w.2

/-- **One step** keeps it. -/
theorem Joined.step (h : x.Joined) (hs : Step x y) : y.Joined := by
  cases hs with
  | move hm => exact h.move hm
  | submit c b ha => exact h.caller_moves (c := c) rfl (fun _ => id) (by simp) (by simp)
  | shutdown c ha => exact h.caller_moves (c := c) rfl (fun _ => id) (by simp) (by simp)
  | spurious w ha => exact h.worker_moves rfl (exited_update (by simp [ha]))

/-- In every run a join that is over has seen its worker exit. -/
theorem Run.joined (h : Run x) : x.Joined := by
  induction h with
  | init =>
      constructor
      · intro c i e
        cases e
      · intro c e
        cases e
  | step _ hs ih => exact ih.step hs

end Tpool

/-! ### Coming to rest -/

/-- How far a worker is from its next sleep; the tasks in the queue pay for its way from one to the
next. -/
def WorkerAt.weight : WorkerAt → ℕ
  | .asleep => 0
  | .exited => 0
  | .wait => 1
  | .leave => 1
  | .decr _ => 1
  | .bump _ => 2
  | .fetch => 3
  | .test => 4
  | .loop => 5
  | .enter => 6
  | .relock => 6
  | .ran => 7
  | .run _ => 8
  | .unlock _ => 9
  | .signal _ => 10

/-- How far a caller is from its return; a signal pays for the worker that it wakes. -/
def CallerAt.weight {n : ℕ} : CallerAt n → ℕ
  | .out => 0
  | .back _ _ => 0
  | .closed => 0
  | .unlock _ => 1
  | .drop _ => 1
  | .miss _ => 2
  | .refuse _ => 3
  | .signal _ => 8
  | .submitted _ => 9
  | .count _ => 20
  | .tail _ => 21
  | .store _ => 22
  | .guard _ => 23
  | .enter _ => 24
  | .join i => n - i + 1
  | .unlockClose => n + 2
  | .broadcast => 7 * n + 3
  | .set => 7 * n + 4
  | .close => 7 * n + 5

section Weights

variable {n : ℕ} {a a' : WorkerAt} {k k' : CallerAt n} {q q' : TaskQueue}

/-- The mutex taken, a worker has less before it. -/
theorem WorkerAt.weight_locked (h : a.locked = some a') : a'.weight < a.weight := by
  cases a <;> simp only [locked, Option.some.injEq, reduceCtorEq] at h <;> subst h <;> simp [weight]

/-- The same for its unlock, and for its falling asleep. -/
theorem WorkerAt.weight_released (h : a.released = some a') : a'.weight < a.weight := by
  cases a <;> simp only [released, Option.some.injEq, reduceCtorEq] at h <;> subst h <;> simp [weight]

/-- A worker's statement, with the task that it may take out of the queue. -/
theorem WorkerAt.weight_stmt (hk : a.knows q) (h : a.stmt q = some (a', q')) :
    a'.weight + 10 * q'.count < a.weight + 10 * q.count := by
  cases a <;> simp only [stmt, Option.some.injEq, Prod.mk.injEq, reduceCtorEq] at h <;>
    obtain ⟨rfl, rfl⟩ := h
  case loop => split <;> simp [weight]
  case test => split <;> simp [weight]
  case decr t =>
    have hpos : q.count ≠ 0 := hk
    simp only [weight]
    omega
  all_goals simp [weight]

theorem WorkerAt.weight_woken (a : WorkerAt) : a.woken.weight ≤ a.weight + 6 := by
  cases a <;> simp [woken, weight]

/-- The mutex taken, a caller has less before it. -/
theorem CallerAt.weight_locked (h : k.locked = some k') : k'.weight < k.weight := by
  cases k <;> simp only [locked, Option.some.injEq, reduceCtorEq] at h <;> subst h <;> simp [weight]

theorem CallerAt.weight_released (h : k.released = some k') : k'.weight < k.weight := by
  cases k <;> simp only [released, Option.some.injEq, reduceCtorEq] at h <;> subst h <;> simp [weight]

/-- A caller's statement, with the task that it may put into the queue. -/
theorem CallerAt.weight_stmt (h : k.stmt q = some (k', q')) :
    k'.weight + 10 * q'.count < k.weight + 10 * q.count := by
  cases k <;> simp only [stmt, Option.some.injEq, Prod.mk.injEq, reduceCtorEq] at h <;>
    obtain ⟨rfl, rfl⟩ := h
  case guard b => split <;> simp [weight]
  case count b =>
    simp only [weight]
    omega
  all_goals simp [weight]

/-- The same for what follows its unlock. -/
theorem CallerAt.weight_unlocked (h : k.unlocked q = some (k', q')) :
    k'.weight + 10 * q'.count < k.weight + 10 * q.count := by
  cases k <;> simp only [unlocked, Option.some.injEq, Prod.mk.injEq, reduceCtorEq] at h <;>
    obtain ⟨rfl, rfl⟩ := h
  case miss b => split <;> simp [weight]
  all_goals simp [weight]

end Weights

namespace Tpool

variable {n : ℕ} {κ : Type} [Fintype κ] {x y : Tpool n κ}

/-- What is left to do, without new calls. -/
def weight (x : Tpool n κ) : ℕ :=
  ∑ w, (x.worker w).weight + ∑ c, (x.caller c).weight + 10 * x.queue.count

/-- A worker's step makes the whole lighter if it makes the worker and the queue lighter. -/
theorem weight_worker {w : Fin n} {a : WorkerAt} (hw : y.worker = Function.update x.worker w a)
    (hc : y.caller = x.caller)
    (h : a.weight + 10 * y.queue.count < (x.worker w).weight + 10 * x.queue.count) :
    y.weight < x.weight := by
  have hsum := sum_update WorkerAt.weight x.worker w a
  unfold weight
  rw [hw, hc]
  omega

variable [DecidableEq κ]

/-- A caller's step, which may make the workers heavier by what its signal wakes. -/
theorem weight_caller {c : κ} {a : CallerAt n} {m : ℕ} (hc : y.caller = Function.update x.caller c a)
    (hw : ∑ w, (y.worker w).weight ≤ ∑ w, (x.worker w).weight + m)
    (h : a.weight + m + 10 * y.queue.count < (x.caller c).weight + 10 * x.queue.count) :
    y.weight < x.weight := by
  have hsum := sum_update CallerAt.weight x.caller c a
  unfold weight
  rw [hc]
  omega

/-- **Every step makes the pool lighter.** -/
theorem move_weight (hk : x.Knows) (hs : Move x y) : y.weight < x.weight := by
  cases hs with
  | workerLock w ha hl =>
      exact weight_worker (w := w) rfl rfl (Nat.add_lt_add_right (WorkerAt.weight_locked ha) _)
  | workerStmt w ha => exact weight_worker (w := w) rfl rfl (WorkerAt.weight_stmt (hk.worker w) ha)
  | workerUnlock w ha =>
      exact weight_worker (w := w) rfl rfl (Nat.add_lt_add_right (WorkerAt.weight_released ha) _)
  | workerRun w ha =>
      refine weight_worker (w := w) rfl rfl ?_
      rw [ha]
      exact Nat.add_lt_add_right (by simp [WorkerAt.weight]) _
  | workerCount w ha =>
      refine weight_worker (w := w) rfl rfl ?_
      rw [ha]
      exact Nat.add_lt_add_right (by simp [WorkerAt.weight]) _
  | callerLock c ha hl =>
      exact weight_caller (c := c) (m := 0) rfl le_rfl (Nat.add_lt_add_right (CallerAt.weight_locked ha) _)
  | callerStmt c ha => exact weight_caller (c := c) (m := 0) rfl le_rfl (CallerAt.weight_stmt ha)
  | callerSignal c w ha hw =>
      refine weight_caller (c := c) (m := 6) rfl ?_ ?_
      · have hsum := sum_update WorkerAt.weight x.worker w .relock
        rw [hw] at hsum
        exact hsum.le
      · rw [ha]
        exact Nat.add_lt_add_right (by simp [CallerAt.weight]) _
  | callerSignalNone c ha hw =>
      refine weight_caller (c := c) (m := 0) rfl le_rfl ?_
      rw [ha]
      exact Nat.add_lt_add_right (by simp [CallerAt.weight]) _
  | callerBroadcast c ha =>
      refine weight_caller (c := c) (m := 6 * n) rfl ?_ ?_
      · have hsum := Finset.sum_le_sum fun w (_ : w ∈ Finset.univ) => WorkerAt.weight_woken (x.worker w)
        rw [Finset.sum_add_distrib] at hsum
        simpa [Nat.mul_comm] using hsum
      · rw [ha]
        refine Nat.add_lt_add_right ?_ _
        simp only [CallerAt.weight]
        omega
  | callerUnlock c ha =>
      exact weight_caller (c := c) (m := 0) rfl le_rfl (Nat.add_lt_add_right (CallerAt.weight_released ha) _)
  | callerUnlocked c ha => exact weight_caller (c := c) (m := 0) rfl le_rfl (CallerAt.weight_unlocked ha)
  | callerJoin c i ha hw =>
      refine weight_caller (c := c) (m := 0) rfl le_rfl ?_
      rw [ha]
      refine Nat.add_lt_add_right ?_ _
      have hi := i.2
      simp only [CallerAt.weight]
      omega
  | callerClosed c ha =>
      refine weight_caller (c := c) (m := 0) rfl le_rfl ?_
      rw [ha]
      exact Nat.add_lt_add_right (by simp [CallerAt.weight]) _

/-- The weight as a measure on the steps of a run. -/
theorem move_descends : Simulation.Descends Move (fun x : Tpool n κ => Run x) (· < ·) weight := by
  intro x y hr hs
  exact ⟨hr.step (.move hs), move_weight hr.knows hs⟩

end Tpool

/-! ### At rest -/

namespace Tpool

variable {n : ℕ} {κ : Type} [DecidableEq κ] {x y : Tpool n κ}

/-- The owner of the mutex can go on. -/
theorem exists_move {t : Fin n ⊕ κ} (ht : x.holds t = true) : ∃ y, Move x y := by
  cases t with
  | inl w =>
      rcases WorkerAt.goes_on (q := x.queue) ht with ⟨a, q, ha⟩ | ⟨a, ha⟩
      · exact ⟨_, .workerStmt w ha⟩
      · exact ⟨_, .workerUnlock w ha⟩
  | inr c =>
      rcases CallerAt.goes_on (q := x.queue) ht with ⟨a, q, ha⟩ | ⟨a, ha⟩ | ⟨b, hb⟩ | hb
      · exact ⟨_, .callerStmt c ha⟩
      · exact ⟨_, .callerUnlock c ha⟩
      · by_cases hw : ∃ w, x.worker w = .asleep
        · obtain ⟨w, hw⟩ := hw
          exact ⟨_, .callerSignal c w hb hw⟩
        · exact ⟨_, .callerSignalNone c hb fun w e => hw ⟨w, e⟩⟩
      · exact ⟨_, .callerBroadcast c hb⟩

/-- No thread can take a step. -/
def Still (x : Tpool n κ) : Prop := ∀ y, ¬Move x y

/-- Where nobody can go on the mutex is free. -/
theorem Still.lock (hs : x.Still) (he : x.Exclusive) : x.lock = none := by
  rw [Option.eq_none_iff_forall_ne_some]
  intro t ht
  obtain ⟨y, hy⟩ := exists_move ((he t).mp ht)
  exact hs y hy

/-- Where nobody can go on a worker sleeps or has exited. -/
theorem Still.worker (hs : x.Still) (he : x.Exclusive) (w : Fin n) :
    x.worker w = .asleep ∨ x.worker w = .exited := by
  have hl := hs.lock he
  rcases WorkerAt.waits ((he.free hl (.inl w))) with ⟨a, ha⟩ | ⟨t, ht⟩ | hr | hr
  · exact absurd (.workerLock w ha hl) (hs _)
  · exact absurd (.workerRun w ht) (hs _)
  · exact absurd (.workerCount w hr) (hs _)
  · exact hr

/-- After a shutdown nobody sleeps. -/
theorem Still.exited (hs : x.Still) (hr : Run x) (hq : x.queue.shutdown = true) (w : Fin n) :
    x.worker w = .exited := by
  refine (hs.worker hr.exclusive w).resolve_left fun hw => ?_
  obtain ⟨c, hc⟩ := hr.heard hq ⟨w, hw⟩
  exact hs _ (.callerBroadcast c hc)

/-- Where nobody can go on every call is over. -/
theorem Still.caller (hs : x.Still) (hr : Run x) (c : κ) :
    (x.caller c).outside = true ∨ x.caller c = .closed := by
  have hl := hs.lock hr.exclusive
  rcases CallerAt.waits (q := x.queue) (hr.exclusive.free hl (.inr c)) with
    ⟨a, ha⟩ | ⟨a, q, ha⟩ | ⟨i, hi⟩ | ho
  · exact absurd (.callerLock c ha hl) (hs _)
  · exact absurd (.callerUnlocked c ha) (hs _)
  · have hq : x.queue.shutdown = true := by
      have hk := hr.knows.caller c
      rw [hi] at hk
      exact hk
    rcases (hr.joined.join c i hi).1.lt_or_eq with hlt | rfl
    · exact absurd (.callerJoin c ⟨i, hlt⟩ hi (hs.exited hr hq _)) (hs _)
    · exact absurd (.callerClosed c hi) (hs _)
  · exact ho

/-- The pool at rest: every call is over, every accepted task has run, and every worker sleeps, or has
exited if the pool is shut down. -/
structure Rested (x : Tpool n κ) : Prop where
  lock : x.lock = none
  caller : ∀ c, (x.caller c).outside = true ∨ x.caller c = .closed
  worker : ∀ w, x.worker w = if x.queue.shutdown then .exited else .asleep
  count : x.queue.count = 0
  executed : x.executed = x.queue.submitted

end Tpool

/-! ### What has run -/

section Pool

variable {n : ℕ} {s s' : TaskPool (Fin n)}

/-- `submitted` counts the accepted tasks. -/
theorem PoolRun.submitted (h : PoolRun s) : s.queue.submitted = s.accepted.length := by
  induction h with
  | init => rfl
  | @step s s' _ hs ih =>
      cases hs with
      | submit b =>
          simp only [TaskPool.submit, TaskPool.accepted, List.filter_append, List.map_append,
            List.length_append]
          unfold TaskPool.accepted at ih
          rw [← ih]
          unfold tpoolSubmit
          split
          · simp only [List.filter_cons, Bool.false_eq_true, ↓reduceIte, List.filter_nil, List.map_nil,
              List.length_nil, Nat.add_zero]
            split <;> rfl
          · rfl
      | dequeue w hw =>
          unfold TaskPool.dequeue
          split
          · exact ih
          · exact ih
          · unfold tpoolTake
            split <;> exact ih
      | finish w k hw => exact ih
      | shutdown => exact ih

/-- Once no worker is at a task, all that were taken have run. -/
theorem Handover.executed_all (h : Handover s) (hw : ∀ w k, s.worker w ≠ .running k) :
    s.executed.length = s.taken.length := by
  have hmem : ∀ k, k ∈ s.executed ↔ k ∈ List.range s.taken.length := by
    intro k
    rw [List.mem_range]
    refine ⟨h.executed_lt k, fun hk => (h.done k hk).resolve_right ?_⟩
    rintro ⟨w, e⟩
    exact hw w k e
  have hperm := (List.perm_ext_iff_of_nodup h.nodup List.nodup_range).mpr hmem
  rw [hperm.length_eq, List.length_range]

end Pool

namespace Tpool

variable {n : ℕ} {κ : Type} {x y : Tpool n κ}

/-- The counts agree when the queue is empty and no worker is at a task. -/
theorem Run.executed [DecidableEq κ] (h : Run x) (hl : x.settled = x.queue) (hc : x.queue.count = 0)
    (hw : ∀ w, x.worker w = .asleep ∨ x.worker w = .exited) : x.executed = x.queue.submitted := by
  obtain ⟨s, hs, ht⟩ := h.tracks
  have hq := ht.queue
  rw [hl] at hq
  obtain ⟨-, -, hsub, hcount⟩ := TaskQueue.ring_congr hq
  have hrun : ∀ w k, s.worker w ≠ .running k := by
    intro w k e
    have hw' := ht.worker w
    rcases hw w with hx | hx
    · rw [hx] at hw'
      exact Worker.noConfusion (hw'.symm.trans e)
    · rw [hx] at hw'
      exact Worker.noConfusion (hw'.symm.trans e)
  obtain ⟨bs, hbs, hd⟩ := hs.handover.ring
  have hnil : bs = [] := List.length_eq_zero_iff.mp (hbs.length.trans (hcount.symm.trans hc))
  have hlen : s.accepted.length = s.taken.length := by
    simpa [hnil] using congrArg List.length hd
  rw [ht.executed, hsub, hs.submitted, hs.handover.executed_all hrun, hlen]

variable [Fintype κ] [DecidableEq κ]

/-- The pool is at rest when nobody can take a step, if it has a worker. -/
theorem Still.rested (hs : x.Still) (hr : Run x) (hn : 0 < n) : x.Rested := by
  have hl := hs.lock hr.exclusive
  have hworker : ∀ w, x.worker w = if x.queue.shutdown then .exited else .asleep := by
    intro w
    split
    · rename_i hq
      exact hs.exited hr hq w
    · rename_i hq
      refine (hs.worker hr.exclusive w).resolve_right fun hw => ?_
      have hk := hr.knows.worker w
      rw [hw] at hk
      exact hq hk.2
  have hcount : x.queue.count = 0 := by
    have h₀ := hworker ⟨0, hn⟩
    split at h₀
    · have hk := hr.knows.worker ⟨0, hn⟩
      rw [h₀] at hk
      exact hk.1
    · rename_i hq
      -- all sleep, so nobody is on the way and no signal is due
      have hawake := hr.awake ⟨_, h₀⟩
      have hcome : x.coming = 0 := by
        refine Finset.sum_eq_zero fun w _ => ?_
        rw [hworker w, if_neg hq]
        rfl
      have hwake : x.waking = 0 := by
        refine Finset.sum_eq_zero fun c _ => ?_
        rcases hs.caller hr c with ho | hcl
        · exact CallerAt.waking_outside ho
        · rw [hcl]
          rfl
      omega
  refine ⟨hl, hs.caller hr, hworker, hcount, hr.executed (settled_none hl) hcount fun w => ?_⟩
  have hw := hworker w
  split at hw
  · exact .inr hw
  · exact .inl hw

end Tpool

/-! ### The results -/

/-- `tpool_init` starts a worker at least, and no more than there is room for. -/
theorem clampThreads_bounds (nthreads : CInt) :
    0 < clampThreads nthreads ∧ clampThreads nthreads ≤ poolThreads := by
  have hmax : (Int32.ofNat poolThreads).toInt = 4 := rfl
  unfold clampThreads
  split
  · exact ⟨poolThreads_pos, le_rfl⟩
  · rename_i hpos
    split
    · exact ⟨poolThreads_pos, le_rfl⟩
    · rename_i hle
      rw [gt_iff_lt, Int32.lt_iff_toInt_lt, hmax] at hle
      rw [Int32.le_iff_toInt_le, Int32.toInt_zero] at hpos
      unfold poolThreads
      omega

section Results

open Relation (ReflTransGen)

variable {κ : Type} [Fintype κ] [DecidableEq κ] {nthreads : CInt} {x y : Tpool (clampThreads nthreads) κ}

/-- **No worker sleeps on a task.**  In every state of every run, while some worker sleeps in
`pthread_cond_wait`, the tasks in the queue are no more than the workers that are on their way to it
and the signals that are due; and once the pool is shut down, a worker still sleeps only before the
broadcast. -/
theorem tpool_awake (h : Tpool.Run x) (hw : ∃ w, x.worker w = .asleep) :
    x.queue.count ≤ ∑ w, (x.worker w).coming + ∑ c, (x.caller c).waking ∧
      (x.queue.shutdown = true → ∃ c, x.caller c = .broadcast) :=
  ⟨h.awake hw, fun hs => h.heard hs hw⟩

/-- The one worker of a small pool. -/
def soleWorker : Fin (clampThreads 1) := ⟨0, (clampThreads_bounds 1).1⟩

/-- The worker has gone to sleep, and a caller has put a task into the queue and not yet signalled. -/
def dozing : Tpool (clampThreads 1) Unit :=
  (((Tpool.init _ _).turns (List.replicate 3 (.inl soleWorker))).setCaller () (.enter (.heap 0))).turns
    (List.replicate 6 (.inr ()))

theorem dozing_run : Tpool.Run dozing :=
  ((Tpool.Run.init.turns _).step (.submit () (.heap 0) rfl)).turns _

theorem tpool_awake_dozing :
    1 ≤ ∑ w, (dozing.worker w).coming + ∑ c, (dozing.caller c).waking :=
  (tpool_awake dozing_run ⟨soleWorker, rfl⟩).1

/-- **The pool does not hang.**  From every state of every run, without new calls, the pool comes to
rest after finitely many steps, whatever their order.  When no thread can take a step, every call has
returned, every accepted task has run, and every worker sleeps, or has exited if the pool is shut
down.

The run before may have any number of spurious wakeups; among the steps that are counted (`Move`) there
are none, for a system that woke a sleeping worker again and again for no reason would never rest. -/
theorem tpool_settles (h : Tpool.Run x) :
    Acc (fun z y => Tpool.Move y z) x ∧
      ∀ y, ReflTransGen Tpool.Move x y → (∀ z, ¬Tpool.Move y z) → y.Rested :=
  ⟨Tpool.move_descends.acc wellFounded_lt h, fun _ hy hs =>
    Tpool.Still.rested hs (Tpool.move_descends.run h hy) (clampThreads_bounds nthreads).1⟩

theorem tpool_settles_dozing : Acc (fun z y => Tpool.Move y z) dozing :=
  (tpool_settles dozing_run).1

end Results

/-! ### After `tpool_shutdown` -/

namespace Tpool

variable {n : ℕ} {κ : Type} [DecidableEq κ] {x y : Tpool n κ}

/-- A pool whose workers have all exited. -/
structure Over (x : Tpool n κ) : Prop where
  run : Run x
  shutdown : x.queue.shutdown = true
  worker : ∀ w, x.worker w = .exited

/-- Without workers the ring stays as it is, and no task is run. -/
theorem Over.step (h : x.Over) (hs : Step x y) :
    y.Over ∧ y.queue.ring = x.queue.ring ∧ y.executed = x.executed := by
  have hr := h.run.step hs
  have hno : ∀ w a, x.worker w = a → a ≠ .exited → False := fun w a ha hn => hn (ha.symm.trans (h.worker w))
  cases hs with
  | move hm =>
      cases hm with
      | workerLock w ha hl => exact absurd (h.worker w) (WorkerAt.locked_ne ha)
      | workerStmt w ha => exact absurd (h.worker w) (WorkerAt.stmt_ne ha)
      | workerUnlock w ha => exact absurd (h.worker w) (WorkerAt.released_ne ha)
      | workerRun w ha => exact (hno w _ ha WorkerAt.noConfusion).elim
      | workerCount w ha => exact (hno w _ ha WorkerAt.noConfusion).elim
      | callerLock c ha hl => exact ⟨⟨hr, h.shutdown, h.worker⟩, rfl, rfl⟩
      | callerStmt c ha =>
          obtain ⟨hq, hsd⟩ := CallerAt.stmt_closed (h.run.knows.caller c) h.shutdown ha
          exact ⟨⟨hr, hsd, h.worker⟩, hq, rfl⟩
      | callerSignal c w ha hw => exact (hno w _ hw WorkerAt.noConfusion).elim
      | callerSignalNone c ha hw => exact ⟨⟨hr, h.shutdown, h.worker⟩, rfl, rfl⟩
      | callerBroadcast c ha =>
          refine ⟨⟨hr, h.shutdown, fun w => ?_⟩, rfl, rfl⟩
          simp [h.worker w, WorkerAt.woken]
      | callerUnlock c ha => exact ⟨⟨hr, h.shutdown, h.worker⟩, rfl, rfl⟩
      | callerUnlocked c ha =>
          have hq := (CallerAt.knows_unlocked (h.run.knows.caller c) ha).2
          refine ⟨⟨hr, ?_, h.worker⟩, ?_, rfl⟩
          · rw [hq]
            exact h.shutdown
          · rw [hq]
            rfl
      | callerJoin c i ha hw => exact ⟨⟨hr, h.shutdown, h.worker⟩, rfl, rfl⟩
      | callerClosed c ha => exact ⟨⟨hr, h.shutdown, h.worker⟩, rfl, rfl⟩
  | submit c b ha => exact ⟨⟨hr, h.shutdown, h.worker⟩, rfl, rfl⟩
  | shutdown c ha => exact ⟨⟨hr, h.shutdown, h.worker⟩, rfl, rfl⟩
  | spurious w ha => exact (hno w _ ha WorkerAt.noConfusion).elim

/-- The same for any number of steps. -/
theorem Over.steps (h : x.Over) (hs : Relation.ReflTransGen Step x y) :
    y.Over ∧ y.queue.ring = x.queue.ring ∧ y.executed = x.executed := by
  induction hs with
  | refl => exact ⟨h, rfl, rfl⟩
  | tail _ hs ih =>
      obtain ⟨ho, hq, he⟩ := ih
      obtain ⟨ho', hq', he'⟩ := ho.step hs
      exact ⟨ho', hq'.trans hq, he'.trans he⟩

/-- Without workers the queue has no assignments to come. -/
theorem Over.settled (h : x.Over) : x.settled = x.queue := by
  cases hl : x.lock with
  | none => exact settled_none hl
  | some t =>
      cases t with
      | inl w =>
          rw [settled_worker hl, h.worker w]
          rfl
      | inr c => rw [settled_caller hl, CallerAt.settle_closed (h.run.knows.caller c) h.shutdown]

end Tpool

section Results

open Relation (ReflTransGen)

variable {κ : Type} [DecidableEq κ] {nthreads : CInt} {x : Tpool (clampThreads nthreads) κ}

/-- **`tpool_shutdown` drains the pool.**  When it has returned, in any run, every worker has exited,
the queue is empty and every task that was accepted has run; and from then on, whatever is called,
no task is accepted, taken or run. -/
theorem tpoolShutdown_drains (h : Tpool.Run x) {c : κ} (hc : x.caller c = .closed) :
    (∀ w, x.worker w = .exited) ∧ x.queue.count = 0 ∧ x.executed = x.queue.submitted ∧
      ∀ y, ReflTransGen Tpool.Step x y →
        y.queue.ring = x.queue.ring ∧ y.executed = x.executed ∧ ∀ w, y.worker w = .exited := by
  have hw := h.joined.closed c hc
  have hshut : x.queue.shutdown = true := by
    have hk := h.knows.caller c
    rw [hc] at hk
    exact hk
  have hover : x.Over := ⟨h, hshut, hw⟩
  have hcount : x.queue.count = 0 := by
    have hk := h.knows.worker ⟨0, (clampThreads_bounds nthreads).1⟩
    rw [hw] at hk
    exact hk.1
  refine ⟨hw, hcount, h.executed hover.settled hcount fun w => .inr (hw w), fun y hy => ?_⟩
  obtain ⟨ho, hq, he⟩ := hover.steps hy
  exact ⟨hq, he, ho.worker⟩

/-- A pool whose worker runs a task and leaves, while its caller waits in `tpool_shutdown`. -/
def drainedPool : Tpool (clampThreads 1) Unit :=
  (((((Tpool.init _ _).setCaller () (.enter (.heap 0))).turns (List.replicate 8 (.inr ()))).setCaller ()
    .close).turns (List.replicate 4 (.inr ()))).turns
    (List.replicate 15 (.inl soleWorker) ++ List.replicate 2 (.inr ()))

theorem drainedPool_run : Tpool.Run drainedPool :=
  ((((Tpool.Run.init.step (.submit () (.heap 0) rfl)).turns _).step (.shutdown () rfl)).turns _).turns _

theorem tpoolShutdown_drains_drainedPool :
    drainedPool.queue.submitted = 1 ∧ drainedPool.executed = drainedPool.queue.submitted :=
  ⟨rfl, (tpoolShutdown_drains (c := ()) drainedPool_run rfl).2.2.1⟩

end Results

end LinuxRouter
