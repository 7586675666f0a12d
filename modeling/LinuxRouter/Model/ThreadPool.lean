import LinuxRouter.Model.Router

/-!
# Model — ThreadPool

`thread_pool.c`: the bounded ring of tasks.  Every task runs `forward_task`, so a task is its
argument.

`tpool_submit`, the taking of a task and `tpool_shutdown` are one critical section each here;
`Workers` has them statement by statement.

The array of the ring is a function on its places, and the two ends are places of it, so that no
index can leave the array.  A task may be a null pointer, as in the source; that none is ever
queued, and that the ring holds what was submitted in its order, is proved in `Plane.TaskPool`.
What a worker finds is one of three things, a task, nothing yet, or the end, on which its loop then
branches.
-/

namespace LinuxRouter

/-- `tpool_t`'s queue.  The counters of what was submitted and refused do not wrap (`Counter`); `count`
never exceeds `TASK_CAP`. -/
structure TaskQueue where
  q : Fin taskCap → Option Block
  head : Fin taskCap
  tail : Fin taskCap
  count : ℕ
  shutdown : Bool
  submitted : ℕ
  drops : ℕ

/-- `(i + n) % TASK_CAP`. -/
def ringAdd (i : Fin taskCap) (n : ℕ) : Fin taskCap :=
  ⟨(i.1 + n) % taskCap, Nat.mod_lt _ (by decide)⟩

def TaskQueue.init : TaskQueue where
  q := fun _ => none
  head := ⟨0, by decide⟩
  tail := ⟨0, by decide⟩
  count := 0
  shutdown := false
  submitted := 0
  drops := 0

/-- `tpool_submit`: whether it returned 0. -/
def tpoolSubmit (b : Block) (p : TaskQueue) : Bool × TaskQueue :=
  if p.count = taskCap ∨ p.shutdown = true then
    (false, if p.shutdown then p else { p with drops := p.drops + 1 })
  else
    (true, { p with
      q := Function.update p.q p.tail (some b)
      tail := ringAdd p.tail 1
      count := p.count + 1
      submitted := p.submitted + 1 })

/-- What a worker finds under the lock. -/
inductive Dequeued where
  | wait
  | exit
  | task (b : Option Block)

/-- `worker_main`'s critical section. -/
def tpoolTake (p : TaskQueue) : Dequeued × TaskQueue :=
  if p.count = 0 then (if p.shutdown then .exit else .wait, p)
  else (.task (p.q p.head), { p with head := ringAdd p.head 1, count := p.count - 1 })

/-- `tpool_shutdown`'s critical section. -/
def tpoolShutdown (p : TaskQueue) : TaskQueue := { p with shutdown := true }

/-- The queued tasks, in order. -/
def TaskQueue.tasks (p : TaskQueue) : List (Option Block) :=
  (List.range p.count).map fun j => p.q (ringAdd p.head j)

end LinuxRouter
