import LinuxRouter.Plane.Owners

/-!
# Plane — the task pool

Any number of threads that call `tpool_submit`, workers and a `tpool_shutdown`, each critical
section one step.  The run keeps what `tpool_submit` returned, which worker took what, and which of
the tasks taken have run.

* `queue_lossless`: the workers take the accepted tasks, each once and in the order of their
  submission, and have run all of them when the last one exits;
* `accepted_taken`: while the workers keep looking, every accepted task is taken.

The ring is an array with a head, a tail and a count, and the list it holds is what `Owners` reads
off it.  `Handover` then speaks of lists only: what was accepted is what has been taken and what is
in the queue, in this order.  Every step adds to the end of one of them or moves the front of the
queue over. Since a shutdown refuses what comes later, and a worker exits only when the queue is
empty, nothing is left when the last one has gone.
-/

namespace LinuxRouter

/-- Where a worker is: before its critical section, in the task it took as the `n`-th, or gone. -/
inductive Worker where
  | idle
  | running (n : ℕ)
  | exited

/-- The pool and its history: the calls of `tpool_submit` with whether they returned 0, the tasks
taken with their workers, and the places in `taken` of the tasks that have run. -/
structure TaskPool (ω : Type*) where
  queue : TaskQueue
  worker : ω → Worker
  calls : List (Block × Bool)
  taken : List (ω × Option Block)
  executed : List ℕ

variable {ω : Type*} [DecidableEq ω]

namespace TaskPool

/-- `tpool_init`. -/
def init : TaskPool ω where
  queue := .init
  worker := fun _ => .idle
  calls := []
  taken := []
  executed := []

/-- The tasks for which `tpool_submit` returned 0, in order. -/
def accepted (s : TaskPool ω) : List Block := (s.calls.filter (·.2)).map (·.1)

/-- `tpool_submit(forward_task, b)`. -/
def submit (s : TaskPool ω) (b : Block) : TaskPool ω :=
  { s with
    queue := (tpoolSubmit b s.queue).2
    calls := s.calls ++ [(b, (tpoolSubmit b s.queue).1)] }

/-- The critical section of the worker `w`. -/
def dequeue (s : TaskPool ω) (w : ω) : TaskPool ω :=
  match (tpoolTake s.queue).1 with
  | .wait => s
  | .exit => { s with worker := Function.update s.worker w .exited }
  | .task b =>
      { s with
        queue := (tpoolTake s.queue).2
        worker := Function.update s.worker w (.running s.taken.length)
        taken := s.taken ++ [(w, b)] }

/-- `t.fn(t.arg)` returns. -/
def finish (s : TaskPool ω) (w : ω) (n : ℕ) : TaskPool ω :=
  { s with
    worker := Function.update s.worker w .idle
    executed := s.executed ++ [n] }

/-- The critical section of `tpool_shutdown`. -/
def shutdown (s : TaskPool ω) : TaskPool ω := { s with queue := tpoolShutdown s.queue }

end TaskPool

/-- The steps of the threads. -/
inductive PoolStep (s : TaskPool ω) : TaskPool ω → Prop where
  | submit (b : Block) : PoolStep s (s.submit b)
  | dequeue (w : ω) (h : s.worker w = .idle) : PoolStep s (s.dequeue w)
  | finish (w : ω) (n : ℕ) (h : s.worker w = .running n) : PoolStep s (s.finish w n)
  | shutdown : PoolStep s s.shutdown

/-- The states of a run. -/
inductive PoolRun : TaskPool ω → Prop where
  | init : PoolRun .init
  | step {s s' : TaskPool ω} (h : PoolRun s) (hs : PoolStep s s') : PoolRun s'

/-! ### The ring after a shutdown -/

/-- After a shutdown nothing is accepted. -/
theorem tpoolSubmit_closed {p : TaskQueue} (b : Block) (h : p.shutdown = true) :
    tpoolSubmit b p = (false, p) := by
  simp [tpoolSubmit, h]

/-- A worker exits only from an empty queue. -/
theorem tpoolTake_exit {p : TaskQueue} (h : (tpoolTake p).1 = .exit) :
    p.count = 0 ∧ p.shutdown = true := by
  unfold tpoolTake at h
  split at h
  · rename_i h₀
    refine ⟨h₀, ?_⟩
    by_contra hn
    simp [hn] at h
  · cases h

/-! ### The invariant -/

/-- The ring holds what was accepted and not yet taken; a task that was taken has run, or its worker
is at it; and a worker leaves only a ring that stays empty. -/
structure Handover (s : TaskPool ω) : Prop where
  ring : ∃ bs, QueueHolds s.queue bs ∧
    s.accepted.map some = s.taken.map (·.2) ++ bs.map some
  running : ∀ w n, s.worker w = .running n → n ∉ s.executed ∧ (s.taken[n]?).map (·.1) = some w
  done : ∀ n < s.taken.length, n ∈ s.executed ∨ ∃ w, s.worker w = .running n
  executed_lt : ∀ n ∈ s.executed, n < s.taken.length
  nodup : s.executed.Nodup
  exited : ∀ w, s.worker w = .exited → s.queue.shutdown = true ∧ s.queue.count = 0

namespace Handover

variable {s s' : TaskPool ω} {b : Block} {w : ω} {n : ℕ}

omit [DecidableEq ω] in
/-- At the start there is nothing. -/
theorem init : Handover (.init : TaskPool ω) where
  ring := ⟨[], .init, rfl⟩
  running := fun _ _ h => nomatch h
  done := fun _ h => nomatch h
  executed_lt := fun _ h => nomatch h
  nodup := List.nodup_nil
  exited := fun _ h => nomatch h

omit [DecidableEq ω] in
theorem submit (h : Handover s) (b : Block) : Handover (s.submit b) where
  ring := by
    obtain ⟨bs, hq, hd⟩ := h.ring
    rcases hq.submit b with ⟨hr, hq'⟩ | ⟨hr, hq'⟩
    · refine ⟨bs, hq', ?_⟩
      simpa [TaskPool.submit, TaskPool.accepted, hr] using hd
    · refine ⟨bs ++ [b], hq', ?_⟩
      simp only [TaskPool.accepted] at hd
      simp [TaskPool.submit, TaskPool.accepted, hr, hd]
  running := h.running
  done := h.done
  executed_lt := h.executed_lt
  nodup := h.nodup
  exited := fun w hw => by
    obtain ⟨hs, hc⟩ := h.exited w hw
    simp only [TaskPool.submit, tpoolSubmit_closed b hs]
    exact ⟨hs, hc⟩

/-- A worker that has found the ring empty, after the shutdown. -/
theorem exit (h : Handover s) (w : ω) (hw : s.worker w = .idle)
    (he : s.queue.count = 0 ∧ s.queue.shutdown = true) :
    Handover { s with worker := Function.update s.worker w .exited } where
  ring := h.ring
  running := fun v n hv => by
    by_cases e : v = w
    · subst e
      simp at hv
    · exact h.running v n (by simpa [e] using hv)
  done := fun n hn => by
    refine (h.done n hn).imp_right fun ⟨v, hv⟩ => ⟨v, ?_⟩
    have e : v ≠ w := by
      rintro rfl
      rw [hw] at hv
      cases hv
    simpa [e] using hv
  executed_lt := h.executed_lt
  nodup := h.nodup
  exited := fun v _ => he.symm

/-- A worker that has taken the oldest task. -/
theorem task (h : Handover s) (w : ω) (hw : s.worker w = .idle) {bs : List Block} {p : TaskQueue}
    (hd : s.accepted.map some = s.taken.map (·.2) ++ (b :: bs).map some) (hq : QueueHolds p bs)
    (hc : s.queue.count ≠ 0) :
    Handover { s with
      queue := p
      worker := Function.update s.worker w (.running s.taken.length)
      taken := s.taken ++ [(w, some b)] } where
  ring := ⟨bs, hq, by simpa [TaskPool.accepted] using hd⟩
  running := fun v n hv => by
    by_cases e : v = w
    · subst e
      obtain rfl : s.taken.length = n := by simpa using hv
      exact ⟨fun hn => (h.executed_lt _ hn).false, by simp⟩
    · obtain ⟨hn, ht⟩ := h.running v n (by simpa [e] using hv)
      refine ⟨hn, ?_⟩
      obtain ⟨x, hx, rfl⟩ := Option.map_eq_some_iff.mp ht
      rw [List.getElem?_append_left (List.getElem?_eq_some_iff.mp hx).1, hx]
      rfl
  done := fun n hn => by
    have hn : n < s.taken.length ∨ n = s.taken.length := by
      simp only [List.length_append, List.length_singleton] at hn
      omega
    rcases hn with hn | rfl
    · refine (h.done n hn).imp_right fun ⟨v, hv⟩ => ⟨v, ?_⟩
      have e : v ≠ w := by
        rintro rfl
        rw [hw] at hv
        cases hv
      simpa [e] using hv
    · exact .inr ⟨w, by simp⟩
  executed_lt := fun n hn => by
    have := h.executed_lt n hn
    simp only [List.length_append, List.length_singleton]
    omega
  nodup := h.nodup
  exited := fun v hv => by
    by_cases e : v = w
    · subst e
      simp at hv
    · exact absurd (h.exited v (by simpa [e] using hv)).2 hc

theorem dequeue (h : Handover s) (hw : s.worker w = .idle) : Handover (s.dequeue w) := by
  unfold TaskPool.dequeue
  split
  · exact h
  · rename_i he
    exact h.exit w hw (tpoolTake_exit he)
  · rename_i o he
    obtain ⟨bs, hq, hd⟩ := h.ring
    rcases hq.take with ⟨-, hn⟩ | ⟨b, bs', rfl, hb, hq'⟩
    · exact absurd he (hn o)
    · obtain rfl : some b = o := by
        rw [hb] at he
        exact Dequeued.task.inj he
      refine h.task w hw hd hq' fun hc => ?_
      have := hq.length
      simp [hc] at this

theorem finish (h : Handover s) (hw : s.worker w = .running n) : Handover (s.finish w n) where
  ring := h.ring
  running := fun v m hv => by
    by_cases e : v = w
    · subst e
      simp [TaskPool.finish] at hv
    · obtain ⟨hm, ht⟩ := h.running v m (by simpa [TaskPool.finish, e] using hv)
      refine ⟨?_, ht⟩
      -- another worker is at another task
      have hne : m ≠ n := by
        rintro rfl
        exact e (Option.some.inj (ht.symm.trans (h.running w m hw).2))
      simp [TaskPool.finish, hm, hne]
  done := fun m hm => by
    by_cases e : m = n
    · exact .inl (by simp [TaskPool.finish, e])
    · refine (h.done m hm).imp (fun hm => by simp [TaskPool.finish, hm]) fun ⟨v, hv⟩ => ⟨v, ?_⟩
      have e' : v ≠ w := by
        rintro rfl
        rw [hw] at hv
        exact e (Worker.running.inj hv).symm
      simpa [TaskPool.finish, e'] using hv
  executed_lt := fun m hm => by
    rcases List.mem_append.mp hm with hm | hm
    · exact h.executed_lt m hm
    · obtain rfl := List.mem_singleton.mp hm
      obtain ⟨x, hx, -⟩ := Option.map_eq_some_iff.mp (h.running w m hw).2
      exact (List.getElem?_eq_some_iff.mp hx).1
  nodup := by
    simpa [TaskPool.finish, List.nodup_append] using ⟨h.nodup, fun m hm e =>
      (h.running w n hw).1 (e ▸ hm)⟩
  exited := fun v hv => by
    by_cases e : v = w
    · subst e
      simp [TaskPool.finish] at hv
    · exact h.exited v (by simpa [TaskPool.finish, e] using hv)

omit [DecidableEq ω] in
theorem shutdown (h : Handover s) : Handover s.shutdown where
  ring := by
    obtain ⟨bs, hq, hd⟩ := h.ring
    exact ⟨bs, ⟨hq.tasks, hq.tail, hq.le_cap⟩, hd⟩
  running := h.running
  done := h.done
  executed_lt := h.executed_lt
  nodup := h.nodup
  exited := fun w hw => ⟨rfl, (h.exited w hw).2⟩

/-- **One step** keeps the order. -/
theorem step (h : Handover s) (hs : PoolStep s s') : Handover s' := by
  cases hs with
  | submit b => exact h.submit b
  | dequeue w hw => exact h.dequeue hw
  | finish w n hw => exact h.finish hw
  | shutdown => exact h.shutdown

end Handover

/-- **Every run** keeps it. -/
theorem PoolRun.handover {s : TaskPool ω} (h : PoolRun s) : Handover s := by
  induction h with
  | init => exact .init
  | step _ hs ih => exact ih.step hs

/-! ### Nothing lost, nothing twice -/

/-- **The task queue loses and duplicates nothing.**  In every state of every run the ring has its
shape; the tasks taken, and after them the tasks in the ring, are the tasks for which `tpool_submit`
returned 0, each as often as it was accepted and in that order; no task taken runs twice, and it
runs on the worker that took it; and when all workers have exited, each accepted task was taken and
has run. -/
theorem queue_lossless [Nonempty ω] {s : TaskPool ω} (h : PoolRun s) :
    (s.queue.tail = ringAdd s.queue.head s.queue.count ∧ s.queue.count ≤ taskCap) ∧
    s.accepted.map some = s.taken.map (·.2) ++ s.queue.tasks ∧
    (s.executed.Nodup ∧ ∀ n ∈ s.executed, n < s.taken.length) ∧
    (∀ w n, s.worker w = .running n → n ∉ s.executed ∧ (s.taken[n]?).map (·.1) = some w) ∧
    ((∀ w, s.worker w = .exited) → s.queue.shutdown = true ∧
      s.accepted.map some = s.taken.map (·.2) ∧ ∀ n < s.taken.length, n ∈ s.executed) := by
  have hi := h.handover
  obtain ⟨bs, hq, hd⟩ := hi.ring
  refine ⟨⟨hq.tail, hq.le_cap⟩, hq.tasks ▸ hd, ⟨hi.nodup, hi.executed_lt⟩, hi.running,
    fun he => ?_⟩
  obtain ⟨w⟩ := ‹Nonempty ω›
  obtain ⟨hs, hc⟩ := hi.exited w (he w)
  have hn : bs = [] := List.length_eq_zero_iff.mp (hq.length.trans hc)
  refine ⟨hs, by simpa [hn] using hd, fun n hl => ?_⟩
  refine (hi.done n hl).resolve_right fun ⟨v, hv⟩ => ?_
  rw [he v] at hv
  cases hv

/-- Two workers: the first takes a task, runs it during the shutdown and finds the ring empty. -/
def drained (b : Block) : TaskPool (Fin 2) :=
  ((((((TaskPool.init.submit b).dequeue 0).shutdown).finish 0 0).dequeue 0).dequeue 1)

theorem poolRun_drained (b : Block) : PoolRun (drained b) :=
  (((((PoolRun.init.step (.submit b)).step (.dequeue 0 rfl)).step .shutdown).step
    (.finish 0 0 rfl)).step (.dequeue 0 rfl)).step (.dequeue 1 rfl)

theorem queue_lossless_drained :
    (∀ w, (drained (.heap 0)).worker w = .exited) ∧
    (drained (.heap 0)).accepted.map some = (drained (.heap 0)).taken.map (·.2) ∧
    ∀ n < (drained (.heap 0)).taken.length, n ∈ (drained (.heap 0)).executed := by
  have he : ∀ w, (drained (.heap 0)).worker w = .exited :=
    Fin.forall_fin_two.mpr ⟨rfl, rfl⟩
  exact ⟨he, ((queue_lossless (poolRun_drained _)).2.2.2.2 he).2⟩

/-! ### Every accepted task is taken -/

theorem PoolStep.accepted_grows {s s' : TaskPool ω} (h : PoolStep s s') :
    s.accepted.length ≤ s'.accepted.length := by
  cases h with
  | submit b => simp [TaskPool.submit, TaskPool.accepted, List.filter_append]
  | dequeue w hw =>
      unfold TaskPool.dequeue
      split <;> exact le_rfl
  | finish w n hw => exact le_rfl
  | shutdown => exact le_rfl

theorem PoolStep.taken_grows {s s' : TaskPool ω} (h : PoolStep s s') :
    s.taken.length ≤ s'.taken.length := by
  cases h with
  | submit b => exact le_rfl
  | dequeue w hw =>
      unfold TaskPool.dequeue
      split
      · exact le_rfl
      · exact le_rfl
      · simp
  | finish w n hw => exact le_rfl
  | shutdown => exact le_rfl

/-- A worker that finds a task takes it. -/
theorem Handover.dequeue_length {s : TaskPool ω} (h : Handover s) (w : ω)
    (hl : s.taken.length < s.accepted.length) :
    (s.dequeue w).taken.length = s.taken.length + 1 := by
  obtain ⟨bs, hq, hd⟩ := h.ring
  have hbs : s.accepted.length = s.taken.length + bs.length := by
    simpa using congrArg List.length hd
  rcases hq.take with ⟨-, hn⟩ | ⟨b, bs', -, hb, -⟩
  · have hc : s.queue.count ≠ 0 := by
      rw [← hq.length]
      omega
    exact absurd (by simp [tpoolTake, hc]) (hn (s.queue.q s.queue.head))
  · simp [TaskPool.dequeue, hb]

/-- **Every accepted task is taken**, if the workers never stop looking for tasks. -/
theorem accepted_taken {σ : ℕ → TaskPool ω} (h₀ : PoolRun (σ 0))
    (hs : ∀ t, PoolStep (σ t) (σ (t + 1)))
    (hf : ∀ t, ∃ u ≥ t, ∃ w, σ (u + 1) = (σ u).dequeue w) (t : ℕ) :
    ∃ u ≥ t, (σ t).accepted.length ≤ (σ u).taken.length := by
  have hrun : ∀ u, PoolRun (σ u) := fun u => by
    induction u with
    | zero => exact h₀
    | succ u ih => exact ih.step (hs u)
  have hacc : Monotone fun u => (σ u).accepted.length :=
    monotone_nat_of_le_succ fun u => (hs u).accepted_grows
  have htaken : Monotone fun u => (σ u).taken.length :=
    monotone_nat_of_le_succ fun u => (hs u).taken_grows
  -- one more of them is taken at the next look
  have hmore : ∀ m ≤ (σ t).accepted.length, ∃ u ≥ t, m ≤ (σ u).taken.length := by
    intro m
    induction m with
    | zero => exact fun _ => ⟨t, le_rfl, Nat.zero_le _⟩
    | succ m ih =>
        intro hm
        obtain ⟨u, hu, hmu⟩ := ih (Nat.le_of_succ_le hm)
        obtain ⟨v, hv, w, hw⟩ := hf u
        have hmv : m ≤ (σ v).taken.length := hmu.trans (htaken hv)
        rcases Nat.lt_or_ge m (σ v).taken.length with hlt | hge
        · exact ⟨v, hu.trans hv, hlt⟩
        · have hav : (σ t).accepted.length ≤ (σ v).accepted.length := hacc (hu.trans hv)
          refine ⟨v + 1, (hu.trans hv).trans (Nat.le_succ v), ?_⟩
          rw [hw, (hrun v).handover.dequeue_length w (by omega)]
          omega
  exact hmore _ le_rfl

end LinuxRouter
