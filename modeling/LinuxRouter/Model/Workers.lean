import Mathlib.Data.Finset.Card
import Mathlib.Data.Fintype.Sum
import LinuxRouter.Model.ThreadPool

/-!
# Model — Workers

`thread_pool.c` at the level of its mutex and its condition variable: where each thread is in
`worker_main`, `tpool_submit` or `tpool_shutdown`, one statement a step.

`pthread_cond_wait` is three steps: it releases the mutex and sleeps at once, it is woken, and it
takes the mutex again.  A signal wakes one of the workers that sleep, if there is one, and a worker
may also wake without any.  Nobody waits for `not_full`.

Where a thread is, is an element of a finite type with the data that the thread still carries; what
it does next is a function of that and of the queue, and the one relation `Move` says which of these
steps can be taken with the mutex as it is.  The workers are there from the start, each before its
first lock.  The functions `workerNext` and `callerNext` compute the step of a given thread, for
runs that are to be evaluated.
-/

namespace LinuxRouter

/-- `tpool_init`'s number of workers. -/
def clampThreads (nthreads : CInt) : ℕ :=
  if nthreads ≤ 0 then poolThreads
  else if nthreads > Int32.ofNat poolThreads then poolThreads
  else nthreads.toInt.toNat

/-- Where a worker is in `worker_main`: at the statement that the constructor names. -/
inductive WorkerAt where
  | enter
  | loop
  | wait
  | asleep
  | relock
  | test
  | leave
  | exited
  | fetch
  | bump (t : Option Block)
  | decr (t : Option Block)
  | signal (t : Option Block)
  | unlock (t : Option Block)
  | run (t : Option Block)
  | ran

/-- Where a caller is: in `tpool_submit`, in `tpool_shutdown`, or outside with what the last call
returned. -/
inductive CallerAt (n : ℕ) where
  | out
  | enter (b : Block)
  | guard (b : Block)
  | store (b : Block)
  | tail (b : Block)
  | count (b : Block)
  | submitted (b : Block)
  | signal (b : Block)
  | unlock (b : Block)
  | refuse (b : Block)
  | miss (b : Block)
  | drop (b : Block)
  | back (b : Block) (ok : Bool)
  | close
  | set
  | broadcast
  | unlockClose
  | join (i : ℕ)
  | closed

/-- `g_pool`, with its mutex and its threads. -/
structure Tpool (n : ℕ) (κ : Type) where
  queue : TaskQueue
  lock : Option (Fin n ⊕ κ)
  worker : Fin n → WorkerAt
  caller : κ → CallerAt n
  executed : ℕ

/-- After `tpool_init`: every worker at the start of its loop. -/
def Tpool.init (n : ℕ) (κ : Type) : Tpool n κ where
  queue := .init
  lock := none
  worker := fun _ => .enter
  caller := fun _ => .out
  executed := 0

/-- A worker's statements under the mutex, but for the wait and the unlocks: where it is next, and
what it leaves of the queue. -/
def WorkerAt.stmt (q : TaskQueue) : WorkerAt → Option (WorkerAt × TaskQueue)
  | .loop => some (if q.count = 0 ∧ ¬ q.shutdown then .wait else .test, q)
  | .test => some (if q.count = 0 ∧ q.shutdown then .leave else .fetch, q)
  | .fetch => some (.bump (q.q q.head), q)
  | .bump t => some (.decr t, { q with head := ringAdd q.head 1 })
  | .decr t => some (.signal t, { q with count := q.count - 1 })
  | .signal t => some (.unlock t, q)
  | _ => none

/-- A caller's statements under the mutex, but for the signals and the unlocks. -/
def CallerAt.stmt {n : ℕ} (q : TaskQueue) : CallerAt n → Option (CallerAt n × TaskQueue)
  | .guard b => some (if q.count = taskCap ∨ q.shutdown then .refuse b else .store b, q)
  | .store b => some (.tail b, { q with q := Function.update q.q q.tail (some b) })
  | .tail b => some (.count b, { q with tail := ringAdd q.tail 1 })
  | .count b => some (.submitted b, { q with count := q.count + 1 })
  | .submitted b => some (.signal b, { q with submitted := q.submitted + 1 })
  | .set => some (.broadcast, { q with shutdown := true })
  | _ => none

/-- The statements of `tpool_submit` after its unlock, when it has refused the task. -/
def CallerAt.unlocked {n : ℕ} (q : TaskQueue) : CallerAt n → Option (CallerAt n × TaskQueue)
  | .miss b => some (if q.shutdown then .back b false else .drop b, q)
  | .drop b => some (.back b false, { q with drops := q.drops + 1 })
  | _ => none

/-- Where a thread that waits for the mutex is once it has it. -/
def WorkerAt.locked : WorkerAt → Option WorkerAt
  | .enter => some .loop
  | .relock => some .loop
  | _ => none

def CallerAt.locked {n : ℕ} : CallerAt n → Option (CallerAt n)
  | .enter b => some (.guard b)
  | .close => some .set
  | _ => none

/-- Where it is once it has released it. -/
def WorkerAt.released : WorkerAt → Option WorkerAt
  | .wait => some .asleep
  | .leave => some .exited
  | .unlock t => some (.run t)
  | _ => none

def CallerAt.released {n : ℕ} : CallerAt n → Option (CallerAt n)
  | .refuse b => some (.miss b)
  | .unlock b => some (.back b true)
  | .unlockClose => some (.join 0)
  | _ => none

/-- A sleeping worker is woken. -/
def WorkerAt.woken : WorkerAt → WorkerAt
  | .asleep => .relock
  | a => a

def WorkerAt.isAsleep : WorkerAt → Bool
  | .asleep => true
  | _ => false

/-- A caller is not in a call. -/
def CallerAt.outside {n : ℕ} : CallerAt n → Bool
  | .out => true
  | .back _ _ => true
  | _ => false

namespace Tpool

variable {n : ℕ} {κ : Type} [DecidableEq κ]

def setWorker (x : Tpool n κ) (w : Fin n) (a : WorkerAt) : Tpool n κ :=
  { x with worker := Function.update x.worker w a }

def setCaller (x : Tpool n κ) (c : κ) (a : CallerAt n) : Tpool n κ :=
  { x with caller := Function.update x.caller c a }

/-- A step of a thread that is in the pool's code. -/
inductive Move (x : Tpool n κ) : Tpool n κ → Prop where
  | workerLock (w : Fin n) {a : WorkerAt} (h : (x.worker w).locked = some a) (hl : x.lock = none) :
      Move x { x.setWorker w a with lock := some (.inl w) }
  | workerStmt (w : Fin n) {a : WorkerAt} {q : TaskQueue}
      (h : (x.worker w).stmt x.queue = some (a, q)) :
      Move x { x.setWorker w a with queue := q }
  | workerUnlock (w : Fin n) {a : WorkerAt} (h : (x.worker w).released = some a) :
      Move x { x.setWorker w a with lock := none }
  | workerRun (w : Fin n) {t : Option Block} (h : x.worker w = .run t) : Move x (x.setWorker w .ran)
  | workerCount (w : Fin n) (h : x.worker w = .ran) :
      Move x { x.setWorker w .enter with executed := x.executed + 1 }
  | callerLock (c : κ) {a : CallerAt n} (h : (x.caller c).locked = some a) (hl : x.lock = none) :
      Move x { x.setCaller c a with lock := some (.inr c) }
  | callerStmt (c : κ) {a : CallerAt n} {q : TaskQueue}
      (h : (x.caller c).stmt x.queue = some (a, q)) :
      Move x { x.setCaller c a with queue := q }
  | callerSignal (c : κ) {b : Block} (w : Fin n) (h : x.caller c = .signal b)
      (hw : x.worker w = .asleep) :
      Move x { x.setCaller c (.unlock b) with worker := Function.update x.worker w .relock }
  | callerSignalNone (c : κ) {b : Block} (h : x.caller c = .signal b)
      (hw : ∀ w, x.worker w ≠ .asleep) : Move x (x.setCaller c (.unlock b))
  | callerBroadcast (c : κ) (h : x.caller c = .broadcast) :
      Move x { x.setCaller c .unlockClose with worker := fun w => (x.worker w).woken }
  | callerUnlock (c : κ) {a : CallerAt n} (h : (x.caller c).released = some a) :
      Move x { x.setCaller c a with lock := none }
  | callerUnlocked (c : κ) {a : CallerAt n} {q : TaskQueue}
      (h : (x.caller c).unlocked x.queue = some (a, q)) :
      Move x { x.setCaller c a with queue := q }
  | callerJoin (c : κ) (i : Fin n) (h : x.caller c = .join i) (hw : x.worker i = .exited) :
      Move x (x.setCaller c (.join (i + 1)))
  | callerClosed (c : κ) (h : x.caller c = .join n) : Move x (x.setCaller c .closed)

/-- A step of the pool: of a thread in its code, a new call, or a worker that wakes by itself. -/
inductive Step (x : Tpool n κ) : Tpool n κ → Prop where
  | move {y : Tpool n κ} (h : Move x y) : Step x y
  | submit (c : κ) (b : Block) (h : (x.caller c).outside = true) : Step x (x.setCaller c (.enter b))
  | shutdown (c : κ) (h : (x.caller c).outside = true) : Step x (x.setCaller c .close)
  | spurious (w : Fin n) (h : x.worker w = .asleep) : Step x (x.setWorker w .relock)

/-- The next step of the worker `w`, if it can take one. -/
def workerNext (x : Tpool n κ) (w : Fin n) : Tpool n κ :=
  match (x.worker w).stmt x.queue, (x.worker w).released, (x.worker w).locked, x.worker w with
  | some (a, q), _, _, _ => { x.setWorker w a with queue := q }
  | none, some a, _, _ => { x.setWorker w a with lock := none }
  | none, none, some a, _ =>
      if x.lock.isNone then { x.setWorker w a with lock := some (.inl w) } else x
  | none, none, none, .run _ => x.setWorker w .ran
  | none, none, none, .ran => { x.setWorker w .enter with executed := x.executed + 1 }
  | none, none, none, _ => x

/-- The next step of the caller `c`, if it is in a call and can take one. -/
def callerNext (x : Tpool n κ) (c : κ) : Tpool n κ :=
  match (x.caller c).stmt x.queue, (x.caller c).released, (x.caller c).locked,
    (x.caller c).unlocked x.queue, x.caller c with
  | some (a, q), _, _, _, _ => { x.setCaller c a with queue := q }
  | none, some a, _, _, _ => { x.setCaller c a with lock := none }
  | none, none, some a, _, _ =>
      if x.lock.isNone then { x.setCaller c a with lock := some (.inr c) } else x
  | none, none, none, some (a, q), _ => { x.setCaller c a with queue := q }
  | none, none, none, none, .signal b =>
      match (List.finRange n).find? fun w => (x.worker w).isAsleep with
      | some w => { x.setCaller c (.unlock b) with worker := Function.update x.worker w .relock }
      | none => x.setCaller c (.unlock b)
  | none, none, none, none, .broadcast =>
      { x.setCaller c .unlockClose with worker := fun w => (x.worker w).woken }
  | none, none, none, none, .join i =>
      if h : i < n then
        match x.worker ⟨i, h⟩ with
        | .exited => x.setCaller c (.join (i + 1))
        | _ => x
      else if i = n then x.setCaller c .closed else x
  | none, none, none, none, _ => x

/-- The threads take their turns, in this order. -/
def turns (x : Tpool n κ) (ts : List (Fin n ⊕ κ)) : Tpool n κ :=
  ts.foldl (fun y t => t.elim y.workerNext y.callerNext) x

/-- The states of a run. -/
inductive Run : Tpool n κ → Prop where
  | init : Run (.init n κ)
  | step {x y : Tpool n κ} (h : Run x) (hs : Step x y) : Run y

end Tpool

end LinuxRouter
