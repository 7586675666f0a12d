import LinuxRouter.Model.Forward

/-!
# Model — Receive

`arp_handle_frame`, and the rounds of the data plane's threads: the receive loop, the timer and the
workers of the thread pool.

A round is what a thread does between two looks at its loop's condition.  What `recvfrom` returns,
and whether `mp_alloc` finds a block, are answers to commands; a round that gets none of either is
over.

A frame that the router sent itself, one that is shorter than its Ethernet header and one of an
unknown type are freed at once; a frame of ARP is handled by the receive loop, and one of IP goes to
the queue of the pool, or is dropped when that is full.  The threads share one state and take turns
command by command (`dataPlane`), with the tables of the management side changing under them as they
may (`Admin`).  What a thread has in hand is a ghost value (`hold`), which no program reads.
-/

namespace LinuxRouter

open Program.Prog (perform)

/-- The frame checks of `arp_handle_frame`. -/
def arpFrameOk (f : List Byte) (len : ℕ) : Bool :=
  42 ≤ len && getBe16 f 14 == 1#16 && getBe16 f 16 == 0x0800#16 && byteAt f 18 == 6#8 &&
    byteAt f 19 == 4#8

/-- The learning rule: the sender is in the subnet of the interface the frame came in on. -/
def learns (ifs : Ifaces) (inIfidx : CInt) (spa : Ip) : Bool :=
  match ifaceByIndex ifs inIfidx with
  | none => false
  | some it => it.covers spa

/-- The interface a request for `tpa` is answered from: ours, or, with the proxy, the one that a
direct route for it names. -/
def arpOurs (tpa : Ip) : Act (Option Iface) := do
  let ifs ← perform .ifaces
  match ifaceWithIp ifs tpa with
  | some it => pure (some it)
  | none =>
    let proxy ← perform .arpProxy
    if proxy then
      match ← perform (.routeLookup tpa) with
      | none => pure none
      | some rt =>
        if rt.gw = 0 then
          let ifs ← perform .ifaces
          pure (ifaceByIndex ifs rt.ifindex)
        else pure none
    else pure none

/-- The answer of `arp_handle_frame` to a request. -/
def arpAnswer (blk : Block) (inIfidx : CInt) (spa tpa : Ip) : Act Unit := do
  match ← arpOurs tpa with
  | none => perform (.mpFree blk)
  | some it =>
    arpRespond blk inIfidx it
    forwardFlushPending (spa, inIfidx)
    perform (.mpFree blk)

/-- `arp_handle_frame`. -/
def arpHandleFrame (blk : Block) (inIfidx : CInt) : Act Unit := do
  let b ← perform (.load blk)
  let f := b.data
  if !arpFrameOk f b.len then
    drop .malformed blk
  else
    let spa := getBe32 f 28
    let tpa := getBe32 f 38
    let ifs ← perform .ifaces
    if learns ifs inIfidx spa then
      perform (.arpInsert (spa, inIfidx) (macAt f 22))
      if getBe16 f 20 ≠ arpOperReq then perform (.mpFree blk) else arpAnswer blk inIfidx spa tpa
    else
      if getBe16 f 20 ≠ arpOperReq then perform (.mpFree blk) else arpAnswer blk inIfidx spa tpa

/-! ### Threads -/

inductive Tid where
  | rx
  | timer
  | worker (i : Fin poolThreads)
  deriving DecidableEq

/-- What the receive loop does with a frame of at least 14 bytes that is not its own. -/
def rxDispatch (blk : Block) (ifindex : CInt) : Act Unit := do
  let f ← perform (.load blk)
  let etype := getBe16 f.data 12
  if etype = etherTypeArp then
    arpHandleFrame blk ifindex
  else if etype = etherTypeIp then
    let ok ← perform (.tpoolSubmit blk)
    if ok then pure ()
    else
      perform (.count .drop)
      perform (.mpFree blk)
  else
    perform (.count .drop)
    perform (.mpFree blk)

/-- What the receive loop does with what it received. -/
def rxFrame (blk : Block) (r : Rx) : Act Unit := do
  perform (.count .rx)
  perform (.write blk (.len (r.bytes.length % 2 ^ 16)))
  let ifs ← perform .ifaces
  if r.outgoing || (14 ≤ r.bytes.length && ifaceMacIsOurs ifs (macAt r.bytes 6)) then
    drop .selfDrop blk
  else if r.bytes.length < 14 then
    drop .malformed blk
  else
    rxDispatch blk r.ifindex

/-- An iteration of `rx_loop`. -/
def rxRound : Act (Option Unit) := do
  let stop ← perform .stop
  if stop then pure none
  else
    match ← perform .mpAlloc with
    | none => pure (some ())
    | some blk =>
      match ← perform (.recvfrom blk) with
      | none =>
        -- `continue` and `break` leave `blk` as it is
        let stop ← perform .stop
        pure (if stop then none else some ())
      | some r =>
        rxFrame blk r
        pure (some ())

/-- An iteration of `timer_thread`, with the flag read before and after its sleep. -/
def timerRound : Act (Option Unit) := do
  let stop ← perform .stop
  if stop then pure none
  else
    let stop ← perform .stop
    if stop then pure none
    else
      perform .arpTick
      pendTick
      pure (some ())

/-- An iteration of `worker_main`.  No slot of the ring within its count is empty. -/
def workerRound : Act (Option Unit) := do
  match ← perform .tpoolTake with
  | .wait => pure (some ())
  | .exit => pure none
  | .task none => pure (some ())
  | .task (some blk) =>
    forwardTask blk
    pure (some ())

def round : Tid → Unit → Act (Option Unit)
  | .rx, _ => rxRound
  | .timer, _ => timerRound
  | .worker _, _ => workerRound

/-- What the other threads of the router may do to this state: change the configuration and the
tables, set the ARP timeout, stop the router, and shut the pool down. -/
inductive Admin (s : Plane) : Plane → Prop where
  | tables (ifaces : Ifaces) (routes : List Route) (rules : List FwRule) (arpProxy : Bool) :
      Admin s { s with ifaces := ifaces, routes := routes, rules := rules, arpProxy := arpProxy }
  | arpTimeout (sec : CInt) : Admin s { s with arp := arpSetTimeout sec s.arp }
  | stop : Admin s { s with stop := true }
  | shutdown : Admin s { s with queue := tpoolShutdown s.queue }

/-- The blocks a thread has in hand after a command. -/
def hold : ∀ ⦃β : Type⦄, Cmd β → Plane → β → List Block → List Block
  | _, .mpAlloc, _, some b, g => b :: g
  | _, .mpFree b, _, _, g => g.erase b
  | _, .tpoolSubmit b, _, true, g => g.erase b
  | _, .tpoolTake, _, .task (some b), g => b :: g
  | _, .pendEnqueue _ b, _, .joined, g => g.erase b
  | _, .pendEnqueue _ b, _, .created _, g => g.erase b
  | _, .pendDetach _, s, some h, g => Linked.toList s.mem.next pendChainMax h ++ g
  | _, _, _, _, g => g

/-- The threads of the data plane.  A thread's ghost value is the blocks it has in hand. -/
def dataPlane : Program.System Cmd Env Plane (List Block) Tid Unit where
  exec := exec
  hold := hold
  body := round
  admin := Admin

/-- The state after the initialisations of `main`. -/
def Plane.init (ifs : Ifaces) (routes : List Route) (rules : List FwRule) (arpProxy : Bool)
    (clz0 : CInt) (m : Mem) : Plane where
  ifaces := ifs
  routes := routes
  rules := rules
  arpProxy := arpProxy
  arp := arpInit
  pend := .init
  mem := m
  pool := .init
  queue := .init
  stats := fun _ => 0
  stop := false
  clz0 := clz0
  trace := []

/-- Every thread before its first round. -/
def Plane.start (s : Plane) : Program.Config Cmd Plane (List Block) Tid Unit where
  shared := s
  thread := fun _ => .idle ()
  ghost := fun _ => []

end LinuxRouter
