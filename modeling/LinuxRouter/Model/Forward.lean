import LinuxRouter.Model.Packet
import LinuxRouter.Model.ArpProto

/-!
# Model — Forward

`forward.c`: the forwarding of a frame, the flush of a next hop's pending frames, and the tick that
retries and expires them.

`forward_task` is cut where the source has its numbered steps.  A flush detaches the chain in one
critical section and sends it outside, so that `sendChain` walks over blocks that are nobody's but
the caller's; and `pend_tick` sends its requests and flushes from a list of keys that its walk has
made.

A frame belongs to the thread that forwards it until it is sent or parked: `forward_send` writes the
MACs, the TTL and the checksum over the frame where it lies, passes it to `pkt_send` and frees it,
whatever that returns; if the interface is gone, the frame is freed unsent.  A ghost mark says for
which next hop a frame was chosen.  What is counted, and what is not, is counted where the source
does it, once for each chain that a tick gives up.
-/

namespace LinuxRouter

open Program.Prog (perform)

/-- The rewrite of `forward_send`: MACs, TTL, checksum. -/
def forwardFrame (mac src : Mac) (f : List Byte) : List Byte :=
  let f := blit f 0 mac.toList
  let f := blit f 6 src.toList
  let f := blit f 22 [byteAt f 22 - 1]
  ipChecksumRecompute f (headerLen f)

/-- `forward_send`. -/
def forwardSend (b : Block) (mac : Mac) : Act Unit := do
  perform (.mark (.send b mac))
  let f ← perform (.load b)
  let ifs ← perform .ifaces
  match ifaceByIndex ifs (Int32.ofNat f.outIfidx.toNat) with
  | none => perform (.mpFree b)
  | some out =>
    let data := forwardFrame mac out.mac f.data
    perform (.write b (.data data))
    let ok ← perform (.pktSend (data.take f.len) (Int32.ofNat f.outIfidx.toNat))
    perform (.count (if ok then .tx else .txErr))
    perform (.mpFree b)

/-- The loop of `forward_flush_pending`, at most `n` frames. -/
def sendChain (mac : Mac) : ℕ → Option Block → Act Unit
  | _, none => pure ()
  | 0, some _ => pure ()
  | n + 1, some b => do
    let f ← perform (.load b)
    forwardSend b mac
    sendChain mac n f.next

/-- `forward_flush_pending`. -/
def forwardFlushPending (k : Key) : Act Unit := do
  match ← perform (.arpLookup k) with
  | none => pure ()
  | some mac =>
    match ← perform (.pendDetach k) with
    | none => pure ()
    | some chain => sendChain mac pendChainMax chain

/-- `pend_enqueue`: its critical section, and the statements after the unlock. -/
def pendEnqueueFrame (k : Key) (blk : Block) : Act Unit := do
  match ← perform (.pendEnqueue k blk) with
  | .joined => pure ()
  | .created none => pure ()
  | .created (some _) =>
    -- the victim's counters, under the lock in the source
    perform (.count .pendDrop)
    perform (.count .drop)
  | .full => drop .pendDrop blk
  | .noSlot => drop .pendDrop blk

/-- Steps 5 and 6 of `forward_task`. -/
def forwardTo (blk : Block) (f : List Byte) (k : Key) : Act Unit := do
  if byteAt f 22 ≤ 1#8 then
    drop .ttlDrop blk
  else
    perform (.write blk (.out (BitVec.ofInt 8 k.2.toInt) k.1))
    match ← perform (.arpLookup k) with
    | some mac => forwardSend blk mac
    | none =>
      pendEnqueueFrame k blk
      arpRequest k

/-- The header checks of `forward_task`. -/
def headerOk (f : List Byte) (len : ℕ) : Bool :=
  34 ≤ len && byteAt f 14 >>> 4 == 4#8 && 20 ≤ headerLen f &&
    headerLen f ≤ (getBe16 f 16).toNat && (getBe16 f 16).toNat ≤ len

/-- Step 3: the frame is not for another host. -/
def isLocal (ifs : Ifaces) (dst : Ip) : Bool :=
  (ifaceWithIp ifs dst).isSome || isBroadcast ifs dst || isMulticast dst

/-- The next hop of a route. -/
def Route.nextHop (rt : Route) (dst : Ip) : Key := (if rt.gw ≠ 0 then rt.gw else dst, rt.ifindex)

/-- `forward_task`. -/
def forwardTask (blk : Block) : Act Unit := do
  let b ← perform (.load blk)
  let f := b.data
  if !headerOk f b.len then
    drop .malformed blk
  else
    let dst := getBe32 f 30
    let action ← perform (.fwCheck f b.len)
    if action = fwDrop then
      drop .fwDrop blk
    else
      let ifs ← perform .ifaces
      if isLocal ifs dst then
        perform (.count .drop)
        perform (.mpFree blk)
      else
        let ifs ← perform .ifaces
        match ifs.find? (·.covers dst) with
        | some it => forwardTo blk f (dst, it.ifindex)
        | none =>
          match ← perform (.routeLookup dst) with
          | none => drop .noroute blk
          | some rt => forwardTo blk f (rt.nextHop dst)

/-- The counters of the slots that `pend_tick` gives up. -/
def countExpired : List Evicted → Act Unit
  | [] => pure ()
  | _ :: evs => do
    perform (.count .arpFail)
    perform (.count .drop)
    countExpired evs

/-- The loop of `pend_tick` after its walk. -/
def retryKeys : List Key → Act Unit
  | [] => pure ()
  | k :: ks => do
    arpRequest k
    forwardFlushPending k
    retryKeys ks

/-- `pend_tick`. -/
def pendTick : Act Unit := do
  let (dead, keys) ← perform .pendSweep
  countExpired dead
  retryKeys keys

end LinuxRouter
