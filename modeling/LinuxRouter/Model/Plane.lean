import LinuxRouter.Support.Program
import LinuxRouter.Model.ThreadPool
import LinuxRouter.Model.Pending
import LinuxRouter.Model.ArpTable
import LinuxRouter.Model.Route
import LinuxRouter.Model.Firewall

/-!
# Model — Plane

The shared state of the data plane, and the commands its threads run on it.  A command is a system
call, one access to shared memory, or one critical section: every lock of the source is taken and
released within one command, and a function that reads the clock before it takes its lock reads it
in that command.

The trace is no part of the program.  It records when a pending slot is created or removed, when an
ARP request is sent, and when a frame is passed to `forward_send`.
-/

namespace LinuxRouter

/-- What `recvfrom` returns when it returns more than 0. -/
structure Rx where
  bytes : List Byte
  ne_nil : bytes ≠ []
  le_payload : bytes.length ≤ mpPayload
  outgoing : Bool
  ifindex : CInt

instance clock_neZero : NeZero (2 ^ 63) := ⟨by decide⟩

/-- An answer of the outside world: the clock, `malloc`, `recvfrom` and `sendto`. -/
structure Env where
  clock : Fin (2 ^ 63)
  heap : Option ℕ
  recv : Option Rx
  sent : Bool

inductive Event where
  | created (k : Key)
  | removed (k : Key)
  | request (k : Key)
  | send (b : Block) (mac : Mac)
  deriving DecidableEq

/-- The shared state, with the trace, newest first. -/
structure Plane where
  ifaces : Ifaces
  routes : List Route
  rules : List FwRule
  arpProxy : Bool
  arp : ArpTable
  pend : PendTable
  mem : Mem
  pool : Pool
  queue : TaskQueue
  stats : Stats
  stop : Bool
  clz0 : CInt
  trace : List Event

/-- A write to a frame block's own fields. -/
inductive Write where
  | len (n : ℕ)
  | data (f : List Byte)
  | out (ifidx : Byte) (nexthop : Ip)

def FwdFrame.write (f : FwdFrame) : Write → FwdFrame
  | .len n => { f with len := n }
  | .data d => { f with data := d }
  | .out i ip => { f with outIfidx := i, nexthop := ip }

@[simp] theorem FwdFrame.next_write (f : FwdFrame) (w : Write) : (f.write w).next = f.next := by
  cases w <;> rfl

inductive Cmd : Type → Type where
  | mpAlloc : Cmd (Option Block)
  | mpFree (b : Block) : Cmd Unit
  | load (b : Block) : Cmd FwdFrame
  | write (b : Block) (w : Write) : Cmd Unit
  | recvfrom (b : Block) : Cmd (Option Rx)
  | stop : Cmd Bool
  | count (c : Counter) : Cmd Unit
  | ifaces : Cmd Ifaces
  | arpProxy : Cmd Bool
  | fwCheck (f : List Byte) (len : ℕ) : Cmd CInt
  | routeLookup (dst : Ip) : Cmd (Option Route)
  | arpLookup (k : Key) : Cmd (Option Mac)
  | arpInsert (k : Key) (mac : Mac) : Cmd Unit
  | arpTick : Cmd Unit
  | tpoolSubmit (b : Block) : Cmd Bool
  | tpoolTake : Cmd Dequeued
  | pendEnqueue (k : Key) (b : Block) : Cmd Enqueued
  | pendDetach (k : Key) : Cmd (Option (Option Block))
  | pendSweep : Cmd (List Evicted × List Key)
  | pktSend (f : List Byte) (ifidx : CInt) : Cmd Bool
  | mark (e : Event) : Cmd Unit

/-- The slots that an outcome of `pend_enqueue` creates and removes. -/
def Enqueued.events (k : Key) : Enqueued → List Event
  | .joined => []
  | .created none => [.created k]
  | .created (some ev) => [.created k, .removed ev.key]
  | .full => []
  | .noSlot => []

/-- The frames it frees under the lock. -/
def Enqueued.evicted : Enqueued → List Block
  | .joined => []
  | .created none => []
  | .created (some ev) => ev.frames
  | .full => []
  | .noSlot => []

/-- The answer and effect of a command. -/
def exec : ∀ ⦃β : Type⦄, Cmd β → Env → Plane → β × Plane
  | _, .mpAlloc, e, s =>
      let r := mpAlloc e.heap s.pool s.mem
      (r.1, { s with pool := r.2.1, mem := r.2.2 })
  | _, .mpFree b, _, s => ((), { s with pool := mpFree b s.pool })
  | _, .load b, _, s => (s.mem b, s)
  | _, .write b w, _, s => ((), { s with mem := Function.update s.mem b ((s.mem b).write w) })
  | _, .recvfrom b, e, s =>
      match e.recv with
      | none => (none, s)
      | some r =>
          -- the bytes go into the block's payload; the ones after them stay
          (some r, { s with
            mem := Function.update s.mem b ((s.mem b).write (.data (blit (s.mem b).data 0 r.bytes))) })
  | _, .stop, _, s => (s.stop, s)
  | _, .count c, _, s => ((), { s with stats := s.stats.bump c })
  | _, .ifaces, _, s => (s.ifaces, s)
  | _, .arpProxy, _, s => (s.arpProxy, s)
  | _, .fwCheck f len, _, s => (fwCheck s.rules f len, s)
  | _, .routeLookup dst, _, s => (routeLookup s.clz0 s.routes dst, s)
  | _, .arpLookup k, e, s =>
      let r := arpLookup e.clock k s.arp
      (r.1, { s with arp := r.2 })
  | _, .arpInsert k mac, e, s => ((), { s with arp := (arpInsert e.clock k mac s.arp).getD s.arp })
  | _, .arpTick, e, s => ((), { s with arp := arpTick e.clock s.arp })
  | _, .tpoolSubmit b, _, s =>
      let r := tpoolSubmit b s.queue
      (r.1, { s with queue := r.2 })
  | _, .tpoolTake, _, s =>
      let r := tpoolTake s.queue
      (r.1, { s with queue := r.2 })
  | _, .pendEnqueue k b, e, s =>
      let r := pendEnqueue e.clock k b s.mem s.pend
      (r.1, { s with
        mem := r.2.1
        pend := r.2.2
        pool := mpFreeAll r.1.evicted s.pool
        trace := r.1.events k ++ s.trace })
  | _, .pendDetach k, _, s =>
      let r := pendDetach k s.pend
      (r.1, { s with
        pend := r.2
        trace := if r.1.isSome then .removed k :: s.trace else s.trace })
  | _, .pendSweep, e, s =>
      let w := pendSweep e.clock s.mem s.pend
      ((w.dead, w.keys), { s with
        pend := w.table
        pool := mpFreeAll (w.dead.flatMap (·.frames)) s.pool
        trace := w.dead.map (fun ev => Event.removed ev.key) ++ s.trace })
  | _, .pktSend _ _, e, s => (e.sent, s)
  | _, .mark ev, _, s => ((), { s with trace := ev :: s.trace })

/-- A thread's program. -/
abbrev Act (α : Type) := Program.Prog Cmd α

/-- `g_x++; g_drop++; mp_free(b)`. -/
def drop (c : Counter) (b : Block) : Act Unit := do
  .perform (.count c)
  .perform (.count .drop)
  .perform (.mpFree b)

end LinuxRouter
