import LinuxRouter.Model.Workers
import LinuxRouter.Support.Mutex

/-!
# Threads — the pool's critical sections

`thread_pool.c` statement by statement: who is in a critical section, and what it relies on there.

* `Tpool.Run.exclusive`: one thread at most is between lock and unlock, the owner of the mutex.
* `Tpool.Run.knows`: what a thread in a section has found out about the queue still holds at the
  statements that rely on it; a worker that has exited, and a caller that waits for the workers, know
  what nobody can undo.

Both are invariants over the run, one step at a time.  A thread's place says whether it is between
lock and unlock (`holds`) and what it may take for granted there (`knows`): that a task is in the
queue, that there is room, that the pool is not shut down.  Such a fact survives the steps of the
others for one of two reasons.  Either its thread is in the section, and by `exclusive` nobody else
touches the queue; or nobody can undo it, because a queue that is shut down stays shut down and
accepts nothing (`TaskQueue.Later`).
-/

namespace LinuxRouter

open Mutex (Guards)

/-! ### Mutual exclusion -/

/-- Between lock and unlock. -/
def WorkerAt.holds : WorkerAt → Bool
  | .loop => true
  | .wait => true
  | .test => true
  | .leave => true
  | .fetch => true
  | .bump _ => true
  | .decr _ => true
  | .signal _ => true
  | .unlock _ => true
  | _ => false

def CallerAt.holds {n : ℕ} : CallerAt n → Bool
  | .guard _ => true
  | .store _ => true
  | .tail _ => true
  | .count _ => true
  | .submitted _ => true
  | .signal _ => true
  | .unlock _ => true
  | .refuse _ => true
  | .set => true
  | .broadcast => true
  | .unlockClose => true
  | _ => false

section Places

variable {n : ℕ} {a a' : WorkerAt} {k k' : CallerAt n} {q q' : TaskQueue}

/-- The lock leads a worker into the section, to the head of its loop. -/
theorem WorkerAt.holds_locked (h : a.locked = some a') : a.holds = false ∧ a' = .loop := by
  cases a <;> simp only [locked, Option.some.injEq, reduceCtorEq] at h <;> exact ⟨rfl, h.symm⟩

theorem WorkerAt.holds_stmt (h : a.stmt q = some (a', q')) : a.holds = true ∧ a'.holds = true := by
  cases a <;> simp only [stmt, Option.some.injEq, Prod.mk.injEq, reduceCtorEq] at h <;>
    obtain ⟨rfl, rfl⟩ := h <;> refine ⟨rfl, ?_⟩
  case loop => split <;> rfl
  case test => split <;> rfl
  all_goals rfl

/-- The unlock, or the wait, leads out of it. -/
theorem WorkerAt.holds_released (h : a.released = some a') : a.holds = true ∧ a'.holds = false := by
  cases a <;> simp only [released, Option.some.injEq, reduceCtorEq] at h <;> subst h <;> exact ⟨rfl, rfl⟩

/-- A wakeup leads into no section. -/
@[simp] theorem WorkerAt.holds_woken (a : WorkerAt) : a.woken.holds = a.holds := by
  cases a <;> rfl

/-- The lock leads a caller into the section. -/
theorem CallerAt.holds_locked (h : k.locked = some k') : k'.holds = true := by
  cases k <;> simp only [locked, Option.some.injEq, reduceCtorEq] at h <;> subst h <;> rfl

theorem CallerAt.holds_stmt (h : k.stmt q = some (k', q')) : k.holds = true ∧ k'.holds = true := by
  cases k <;> simp only [stmt, Option.some.injEq, Prod.mk.injEq, reduceCtorEq] at h <;>
    obtain ⟨rfl, rfl⟩ := h <;> refine ⟨rfl, ?_⟩
  case guard => split <;> rfl
  all_goals rfl

/-- The unlock leads out of it. -/
theorem CallerAt.holds_released (h : k.released = some k') : k.holds = true ∧ k'.holds = false := by
  cases k <;> simp only [released, Option.some.injEq, reduceCtorEq] at h <;> subst h <;> exact ⟨rfl, rfl⟩

/-- What follows the unlock stays outside. -/
theorem CallerAt.holds_unlocked (h : k.unlocked q = some (k', q')) :
    k.holds = false ∧ k'.holds = false := by
  cases k <;> simp only [unlocked, Option.some.injEq, Prod.mk.injEq, reduceCtorEq] at h <;>
    obtain ⟨rfl, rfl⟩ := h <;> refine ⟨rfl, ?_⟩
  case miss => split <;> rfl
  all_goals rfl

/-- A caller outside both functions is outside the sections. -/
theorem CallerAt.holds_outside (h : k.outside = true) : k.holds = false := by
  cases k <;> first | rfl | cases h

end Places

namespace Tpool

variable {n : ℕ} {κ : Type} {x y : Tpool n κ}

/-- Which threads are between lock and unlock. -/
def holds (x : Tpool n κ) : Fin n ⊕ κ → Bool :=
  Sum.elim (fun w => (x.worker w).holds) fun c => (x.caller c).holds

/-- The mutex guards the sections. -/
def Exclusive (x : Tpool n κ) : Prop := Guards x.lock x.holds

/-- While a worker is in a section, no other thread is. -/
theorem Exclusive.worker_alone (h : x.Exclusive) {w : Fin n} (hw : (x.worker w).holds = true) :
    (∀ v, v ≠ w → (x.worker v).holds = false) ∧ ∀ c, (x.caller c).holds = false := by
  have hu : ∀ t, x.holds t = true → t = .inl w := fun t ht => Guards.unique h ht hw
  constructor
  · intro v hv
    by_contra hn
    exact hv (Sum.inl.inj (hu (.inl v) (Bool.eq_true_of_not_eq_false hn)))
  · intro c
    by_contra hn
    exact Sum.inr_ne_inl (hu (.inr c) (Bool.eq_true_of_not_eq_false hn))

/-- While a caller is in a section, no other thread is. -/
theorem Exclusive.caller_alone (h : x.Exclusive) {c : κ} (hc : (x.caller c).holds = true) :
    (∀ d, d ≠ c → (x.caller d).holds = false) ∧ ∀ w, (x.worker w).holds = false := by
  have hu : ∀ t, x.holds t = true → t = .inr c := fun t ht => Guards.unique h ht hc
  constructor
  · intro d hd
    by_contra hn
    exact hd (Sum.inr.inj (hu (.inr d) (Bool.eq_true_of_not_eq_false hn)))
  · intro w
    by_contra hn
    exact Sum.inl_ne_inr (hu (.inl w) (Bool.eq_true_of_not_eq_false hn))

variable [DecidableEq κ]

/-- Who is in a section after a worker has moved. -/
theorem holds_setWorker (x : Tpool n κ) (w : Fin n) (a : WorkerAt) :
    (x.setWorker w a).holds = Function.update x.holds (.inl w) a.holds := by
  ext (v | c)
  · by_cases e : v = w
    · subst e
      simp [holds, setWorker]
    · simp [holds, setWorker, e]
  · simp [holds, setWorker]

/-- Who is in a section after a caller has moved. -/
theorem holds_setCaller (x : Tpool n κ) (c : κ) (a : CallerAt n) :
    (x.setCaller c a).holds = Function.update x.holds (.inr c) a.holds := by
  ext (w | d)
  · simp [holds, setCaller]
  · by_cases e : d = c
    · subst e
      simp [holds, setCaller]
    · simp [holds, setCaller, e]

/-- A worker that moves within the sections, or outside them. -/
theorem Exclusive.setWorker (h : x.Exclusive) {w : Fin n} {a : WorkerAt}
    (ha : a.holds = (x.worker w).holds) : (x.setWorker w a).Exclusive := by
  unfold Exclusive
  rw [holds_setWorker]
  exact Guards.keep h ha

/-- A caller that moves within the sections, or outside them. -/
theorem Exclusive.setCaller (h : x.Exclusive) {c : κ} {a : CallerAt n}
    (ha : a.holds = (x.caller c).holds) : (x.setCaller c a).Exclusive := by
  unfold Exclusive
  rw [holds_setCaller]
  exact Guards.keep h ha

omit [DecidableEq κ] in
/-- Only the sections matter. -/
theorem Exclusive.of_holds (h : x.Exclusive) (hl : y.lock = x.lock) (hh : y.holds = x.holds) :
    y.Exclusive := by
  unfold Exclusive
  rw [hl, hh]
  exact h

/-- A statement of any thread keeps the sections apart. -/
theorem Exclusive.move (h : x.Exclusive) (hs : Move x y) : y.Exclusive := by
  cases hs with
  | workerLock w ha hl =>
      obtain ⟨-, rfl⟩ := WorkerAt.holds_locked ha
      have hg := Guards.take h hl (.inl w)
      rw [← show WorkerAt.loop.holds = true from rfl, ← holds_setWorker] at hg
      exact hg
  | workerStmt w ha =>
      obtain ⟨hb, hb'⟩ := WorkerAt.holds_stmt ha
      exact (h.setWorker (hb'.trans hb.symm)).of_holds rfl rfl
  | @workerUnlock w a ha =>
      obtain ⟨hb, hb'⟩ := WorkerAt.holds_released ha
      have hg := Guards.release h (show x.holds (.inl w) = true from hb)
      rw [← hb', ← holds_setWorker] at hg
      exact hg
  | workerRun w ha => exact h.setWorker (by rw [ha]; rfl)
  | workerCount w ha =>
      have hk : (x.setWorker w .enter).Exclusive := h.setWorker (by rw [ha]; rfl)
      exact hk.of_holds rfl rfl
  | @callerLock c a ha hl =>
      have hg := Guards.take h hl (.inr c)
      rw [← CallerAt.holds_locked ha, ← holds_setCaller] at hg
      exact hg
  | callerStmt c ha =>
      obtain ⟨hb, hb'⟩ := CallerAt.holds_stmt ha
      exact (h.setCaller (hb'.trans hb.symm)).of_holds rfl rfl
  | @callerSignal c b w ha hw =>
      have hk : (x.setCaller c (.unlock b)).Exclusive := h.setCaller (by rw [ha]; rfl)
      have hw' : WorkerAt.relock.holds = ((x.setCaller c (.unlock b)).worker w).holds := by
        rw [show (x.setCaller c (.unlock b)).worker w = .asleep from hw]
        rfl
      exact hk.setWorker hw'
  | callerSignalNone c ha hw => exact h.setCaller (by rw [ha]; rfl)
  | callerBroadcast c ha =>
      have hk : (x.setCaller c .unlockClose).Exclusive := h.setCaller (by rw [ha]; rfl)
      refine hk.of_holds rfl (funext fun t => ?_)
      cases t with
      | inl w => exact WorkerAt.holds_woken _
      | inr d => rfl
  | @callerUnlock c a ha =>
      obtain ⟨hb, hb'⟩ := CallerAt.holds_released ha
      have hg := Guards.release h (show x.holds (.inr c) = true from hb)
      rw [← hb', ← holds_setCaller] at hg
      exact hg
  | callerUnlocked c ha =>
      obtain ⟨hb, hb'⟩ := CallerAt.holds_unlocked ha
      exact (h.setCaller (hb'.trans hb.symm)).of_holds rfl rfl
  | callerJoin c i ha hw => exact h.setCaller (by rw [ha]; rfl)
  | callerClosed c ha => exact h.setCaller (by rw [ha]; rfl)

/-- **One step** keeps them apart; new calls and spurious wakeups are outside. -/
theorem Exclusive.step (h : x.Exclusive) (hs : Step x y) : y.Exclusive := by
  cases hs with
  | move hm => exact h.move hm
  | submit c b ha => exact h.setCaller (CallerAt.holds_outside ha).symm
  | shutdown c ha => exact h.setCaller (CallerAt.holds_outside ha).symm
  | spurious w ha => exact h.setWorker (by rw [ha]; rfl)

omit [DecidableEq κ] in
/-- In the beginning nobody is in a section. -/
theorem Exclusive.init : (Tpool.init n κ).Exclusive := by
  rintro (w | c)
  · simp [Tpool.init, holds, WorkerAt.holds]
  · simp [Tpool.init, holds, CallerAt.holds]

/-- One thread at most is in a section, in every run. -/
theorem Run.exclusive (h : Run x) : x.Exclusive := by
  induction h with
  | init => exact .init
  | step _ hs ih => exact ih.step hs

end Tpool

/-! ### What a thread in a section knows -/

/-- What a worker has found out about the queue, and relies on. -/
def WorkerAt.knows (q : TaskQueue) : WorkerAt → Prop
  | .wait => q.count = 0 ∧ q.shutdown = false
  | .test => q.count = 0 → q.shutdown = true
  | .leave => q.count = 0 ∧ q.shutdown = true
  | .exited => q.count = 0 ∧ q.shutdown = true
  | .fetch => q.count ≠ 0
  | .bump _ => q.count ≠ 0
  | .decr _ => q.count ≠ 0
  | _ => True

/-- What a caller has found out about the queue, and relies on. -/
def CallerAt.knows {n : ℕ} (q : TaskQueue) : CallerAt n → Prop
  | .refuse _ => q.count = taskCap ∨ q.shutdown = true
  | .store _ => ¬(q.count = taskCap ∨ q.shutdown = true)
  | .tail _ => q.shutdown = false
  | .count _ => q.shutdown = false
  | .submitted _ => q.shutdown = false
  | .broadcast => q.shutdown = true
  | .unlockClose => q.shutdown = true
  | .join _ => q.shutdown = true
  | .closed => q.shutdown = true
  | _ => True

/-- A queue that is shut down stays so, and stays empty. -/
def TaskQueue.Later (q q' : TaskQueue) : Prop :=
  q.shutdown = true → q'.shutdown = true ∧ (q.count = 0 → q'.count = 0)

/-- A queue is its own successor. -/
theorem TaskQueue.Later.refl (q : TaskQueue) : q.Later q := fun h => ⟨h, id⟩

section Knows

variable {n : ℕ} {a a' : WorkerAt} {k k' : CallerAt n} {q q' : TaskQueue}

/-- Outside the sections a thread knows only what stays. -/
theorem WorkerAt.knows_later (h : a.knows q) (hh : a.holds = false) (hq : q.Later q') : a.knows q' := by
  cases a with
  | exited => exact ⟨(hq h.2).2 h.1, (hq h.2).1⟩
  | enter | asleep | relock | run | ran => trivial
  | loop | wait | test | leave | fetch | bump | decr | signal | unlock => cases hh

/-- Outside the sections a caller knows only what stays. -/
theorem CallerAt.knows_later (h : k.knows q) (hh : k.holds = false) (hq : q.Later q') :
    k.knows q' := by
  cases k with
  | join i => exact (hq h).1
  | closed => exact (hq h).1
  | out | enter | miss | drop | back | close => trivial
  | guard | store | tail | count | submitted | signal | unlock | refuse | set | broadcast
  | unlockClose => cases hh

/-- A worker's statement, in what it finds out and in what it leaves to the others. -/
theorem WorkerAt.knows_stmt (h : a.knows q) (hs : a.stmt q = some (a', q')) :
    a'.knows q' ∧ q.Later q' := by
  cases a <;> simp only [stmt, Option.some.injEq, Prod.mk.injEq, reduceCtorEq] at hs <;>
    obtain ⟨rfl, rfl⟩ := hs
  case loop =>
    refine ⟨?_, .refl _⟩
    split
    · rename_i hc
      exact ⟨hc.1, Bool.eq_false_of_not_eq_true hc.2⟩
    · rename_i hc
      intro h₀
      by_contra hn
      exact hc ⟨h₀, hn⟩
  case test =>
    refine ⟨?_, .refl _⟩
    split
    · assumption
    · rename_i hc
      exact fun h₀ => hc ⟨h₀, h h₀⟩
  case fetch => exact ⟨h, .refl _⟩
  case bump t => exact ⟨h, fun hs => ⟨hs, id⟩⟩
  case decr t => exact ⟨trivial, fun hs => ⟨hs, fun h₀ => absurd h₀ h⟩⟩
  case signal t => exact ⟨trivial, .refl _⟩

theorem CallerAt.knows_stmt (h : k.knows q) (hs : k.stmt q = some (k', q')) :
    k'.knows q' ∧ q.Later q' := by
  cases k <;> simp only [stmt, Option.some.injEq, Prod.mk.injEq, reduceCtorEq] at hs <;>
    obtain ⟨rfl, rfl⟩ := hs
  case guard b =>
    refine ⟨?_, .refl _⟩
    split <;> assumption
  case store b =>
    exact ⟨Bool.eq_false_of_not_eq_true fun hs => h (.inr hs), fun hs => ⟨hs, id⟩⟩
  case tail b => exact ⟨h, fun hs => ⟨hs, id⟩⟩
  case count b =>
    refine ⟨h, fun hs => ?_⟩
    rw [show q.shutdown = false from h] at hs
    cases hs
  case submitted b => exact ⟨trivial, fun hs => ⟨hs, id⟩⟩
  case set => exact ⟨rfl, fun _ => ⟨rfl, id⟩⟩

/-- After the unlock, only the count of the drops may change. -/
theorem CallerAt.knows_unlocked (h : k.knows q) (hs : k.unlocked q = some (k', q')) :
    k'.knows q' ∧ q' = { q with drops := q'.drops } := by
  cases k <;> simp only [unlocked, Option.some.injEq, Prod.mk.injEq, reduceCtorEq] at hs <;>
    obtain ⟨rfl, rfl⟩ := hs
  case miss b =>
    refine ⟨?_, rfl⟩
    split <;> exact h
  case drop b => exact ⟨h, rfl⟩

/-- What a thread knows is not about the drops. -/
theorem WorkerAt.knows_congr (h : a.knows q) (hq : q' = { q with drops := q'.drops }) : a.knows q' := by
  rw [hq]
  cases a <;> exact h

/-- What a caller knows is not about the drops. -/
theorem CallerAt.knows_congr (h : k.knows q) (hq : q' = { q with drops := q'.drops }) : k.knows q' := by
  rw [hq]
  cases k <;> exact h

/-- At its unlock a worker keeps what it knows. -/
theorem WorkerAt.knows_released (h : a.knows q) (hs : a.released = some a') : a'.knows q := by
  cases a <;> simp only [released, Option.some.injEq, reduceCtorEq] at hs <;> subst hs
  case leave => exact h
  all_goals trivial

/-- At its unlock a caller keeps what it knows. -/
theorem CallerAt.knows_released (h : k.knows q) (hs : k.released = some k') : k'.knows q := by
  cases k <;> simp only [released, Option.some.injEq, reduceCtorEq] at hs <;> subst hs
  case unlockClose => exact h
  all_goals trivial

/-- With the lock a caller knows nothing yet. -/
theorem CallerAt.knows_locked (hs : k.locked = some k') : k'.knows q := by
  cases k <;> simp only [locked, Option.some.injEq, reduceCtorEq] at hs <;> subst hs <;> trivial

/-- A wakeup tells a worker nothing. -/
theorem WorkerAt.knows_woken (h : a.knows q) : a.woken.knows q := by
  cases a with
  | asleep => trivial
  | _ => exact h

end Knows

namespace Tpool

variable {n : ℕ} {κ : Type} {x y : Tpool n κ}

/-- What the threads rely on holds. -/
structure Knows (x : Tpool n κ) : Prop where
  worker : ∀ w, (x.worker w).knows x.queue
  caller : ∀ c, (x.caller c).knows x.queue

/-- Only the queue and the places of the threads matter. -/
theorem Knows.congr (h : x.Knows) (hq : y.queue = x.queue) (hw : y.worker = x.worker)
    (hc : y.caller = x.caller) : y.Knows := by
  refine ⟨?_, ?_⟩
  · rw [hq, hw]
    exact h.worker
  · rw [hq, hc]
    exact h.caller

/-- A worker moves, with a change of the queue that all others can live with. -/
theorem Knows.worker_moves {w : Fin n} {a : WorkerAt} {q : TaskQueue} (ha : a.knows q)
    (hv : ∀ v, v ≠ w → (x.worker v).knows q) (hc : ∀ c, (x.caller c).knows q) :
    Knows { x.setWorker w a with queue := q } where
  worker v := by
    by_cases e : v = w
    · subst e
      simpa [Tpool.setWorker] using ha
    · simpa [Tpool.setWorker, e] using hv v e
  caller := hc

/-- A worker moves, and leaves the queue alone. -/
theorem Knows.setWorker (h : x.Knows) {w : Fin n} {a : WorkerAt} (ha : a.knows x.queue) :
    (x.setWorker w a).Knows :=
  Knows.worker_moves ha (fun v _ => h.worker v) h.caller

variable [DecidableEq κ]

/-- A caller moves, with a change of the queue that all others can live with. -/
theorem Knows.caller_moves {c : κ} {a : CallerAt n} {q : TaskQueue} (ha : a.knows q)
    (hd : ∀ d, d ≠ c → (x.caller d).knows q) (hw : ∀ w, (x.worker w).knows q) :
    Knows { x.setCaller c a with queue := q } where
  worker := hw
  caller d := by
    by_cases e : d = c
    · subst e
      simpa [Tpool.setCaller] using ha
    · simpa [Tpool.setCaller, e] using hd d e

/-- A caller moves, and leaves the queue alone. -/
theorem Knows.setCaller (h : x.Knows) {c : κ} {a : CallerAt n} (ha : a.knows x.queue) :
    (x.setCaller c a).Knows :=
  Knows.caller_moves ha (fun d _ => h.caller d) h.worker

/-- A statement of any thread keeps what the threads know. -/
theorem Knows.move (h : x.Knows) (he : x.Exclusive) (hs : Move x y) : y.Knows := by
  cases hs with
  | workerLock w ha hl =>
      obtain ⟨-, rfl⟩ := WorkerAt.holds_locked ha
      exact (h.setWorker trivial : (x.setWorker w .loop).Knows).congr rfl rfl rfl
  | workerStmt w ha =>
      obtain ⟨hk, hq⟩ := WorkerAt.knows_stmt (h.worker w) ha
      obtain ⟨hv, hc⟩ := he.worker_alone (WorkerAt.holds_stmt ha).1
      exact Knows.worker_moves hk (fun v e => WorkerAt.knows_later (h.worker v) (hv v e) hq)
        fun c => CallerAt.knows_later (h.caller c) (hc c) hq
  | workerUnlock w ha =>
      exact (h.setWorker (WorkerAt.knows_released (h.worker w) ha)).congr rfl rfl rfl
  | workerRun w ha => exact h.setWorker trivial
  | workerCount w ha => exact (h.setWorker trivial : (x.setWorker w .enter).Knows).congr rfl rfl rfl
  | callerLock c ha hl => exact (h.setCaller (CallerAt.knows_locked ha)).congr rfl rfl rfl
  | callerStmt c ha =>
      obtain ⟨hk, hq⟩ := CallerAt.knows_stmt (h.caller c) ha
      obtain ⟨hd, hw⟩ := he.caller_alone (CallerAt.holds_stmt ha).1
      exact Knows.caller_moves hk (fun d e => CallerAt.knows_later (h.caller d) (hd d e) hq)
        fun w => WorkerAt.knows_later (h.worker w) (hw w) hq
  | @callerSignal c b w ha hw =>
      have hk : (x.setCaller c (.unlock b)).Knows := h.setCaller trivial
      exact hk.setWorker (w := w) (a := .relock) trivial
  | callerSignalNone c ha hw => exact h.setCaller trivial
  | callerBroadcast c ha =>
      have hc : (CallerAt.unlockClose : CallerAt n).knows x.queue := by
        have hk := h.caller c
        rw [ha] at hk
        exact hk
      exact ⟨fun w => WorkerAt.knows_woken (h.worker w), (h.setCaller hc).caller⟩
  | callerUnlock c ha =>
      exact (h.setCaller (CallerAt.knows_released (h.caller c) ha)).congr rfl rfl rfl
  | callerUnlocked c ha =>
      obtain ⟨hk, hq⟩ := CallerAt.knows_unlocked (h.caller c) ha
      exact Knows.caller_moves hk (fun d _ => CallerAt.knows_congr (h.caller d) hq)
        fun w => WorkerAt.knows_congr (h.worker w) hq
  | callerJoin c i ha hw =>
      refine h.setCaller (?_ : x.queue.shutdown = true)
      have hk := h.caller c
      rw [ha] at hk
      exact hk
  | callerClosed c ha =>
      refine h.setCaller (?_ : x.queue.shutdown = true)
      have hk := h.caller c
      rw [ha] at hk
      exact hk

/-- **One step** keeps it. -/
theorem Knows.step (h : x.Knows) (he : x.Exclusive) (hs : Step x y) : y.Knows := by
  cases hs with
  | move hm => exact h.move he hm
  | submit c b ha => exact h.setCaller trivial
  | shutdown c ha => exact h.setCaller trivial
  | spurious w ha => exact h.setWorker trivial

omit [DecidableEq κ] in
/-- In the beginning nothing is relied on. -/
theorem Knows.init : (Tpool.init n κ).Knows := ⟨fun _ => trivial, fun _ => trivial⟩

/-- What the threads rely on holds in every run. -/
theorem Run.knows (h : Run x) : x.Knows := by
  induction h with
  | init => exact .init
  | step hr hs ih => exact ih.step hr.exclusive hs

/-! ### Schedules -/

/-- The next step of a worker, if it has one, is a step of the run. -/
theorem Run.workerNext (h : Run x) (w : Fin n) : Run (x.workerNext w) := by
  unfold Tpool.workerNext
  split
  · exact h.step (.move (.workerStmt w (by assumption)))
  · exact h.step (.move (.workerUnlock w (by assumption)))
  · split
    · exact h.step (.move (.workerLock w (by assumption) (Option.isNone_iff_eq_none.mp (by assumption))))
    · exact h
  · exact h.step (.move (.workerRun w (by assumption)))
  · exact h.step (.move (.workerCount w (by assumption)))
  · exact h

omit [DecidableEq κ] in
/-- The test of a schedule for a sleeping worker. -/
theorem isAsleep_iff {w : Fin n} : (x.worker w).isAsleep = true ↔ x.worker w = .asleep := by
  cases x.worker w <;> simp [WorkerAt.isAsleep]

/-- The next step of a caller, if it has one, is a step of the run. -/
theorem Run.callerNext (h : Run x) (c : κ) : Run (x.callerNext c) := by
  unfold Tpool.callerNext
  split
  · exact h.step (.move (.callerStmt c (by assumption)))
  · exact h.step (.move (.callerUnlock c (by assumption)))
  · split
    · exact h.step (.move (.callerLock c (by assumption) (Option.isNone_iff_eq_none.mp (by assumption))))
    · exact h
  · exact h.step (.move (.callerUnlocked c (by assumption)))
  · rename_i hb
    split
    · rename_i w hw
      have hw' := List.find?_some hw
      exact h.step (.move (.callerSignal c w hb (isAsleep_iff.mp hw')))
    · rename_i hn
      refine h.step (.move (.callerSignalNone c hb fun w hw => ?_))
      exact List.find?_eq_none.mp hn w (List.mem_finRange w) (isAsleep_iff.mpr hw)
  · exact h.step (.move (.callerBroadcast c (by assumption)))
  · rename_i i _ _ _ _ hj
    split
    · rename_i hlt
      split
      · exact h.step (.move (.callerJoin c ⟨i, hlt⟩ hj (by assumption)))
      · exact h
    · split
      · rename_i hi
        subst hi
        exact h.step (.move (.callerClosed c hj))
      · exact h
  · exact h

/-- What a schedule reaches is a state of a run. -/
theorem Run.turns (h : Run x) (ts : List (Fin n ⊕ κ)) : Run (x.turns ts) := by
  induction ts generalizing x with
  | nil => exact h
  | cons t ts ih =>
      cases t with
      | inl w => exact ih (h.workerNext w)
      | inr c => exact ih (h.callerNext c)

end Tpool

end LinuxRouter
