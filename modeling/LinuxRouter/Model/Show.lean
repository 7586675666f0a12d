import LinuxRouter.Support.Printf
import LinuxRouter.Model.ArpTable
import LinuxRouter.Model.Firewall
import LinuxRouter.Model.Pending
import LinuxRouter.Model.Route
import LinuxRouter.Model.ThreadPool

/-!
# Model — Show

The functions that print a table into `out`, a buffer of `size` bytes.  A `Writer` takes the memory
from the start of `out` on to what it is afterwards; what was there before is whatever the caller's
stack held.

Each row is one `snprintf` at the place that the rows before it have reached, and the loops stop
when that is past the end.  A text that a row prints is made by the function that the source calls
for it.
-/

namespace LinuxRouter

open Text (lit fmtInt nul)
open Printf (padLeft padRight fmtU64 hexByte)

abbrev Writer := (ℕ → Byte) → ℕ → Byte

/-- `snprintf(out, size, …)`. -/
def say (size : ℕ) (text : List Byte) : Writer := fun out => Printf.snprintf out 0 size text

/-- The loop over the rows of a table. -/
def showRows (size : ℕ) (rows : List (List Byte)) : Writer :=
  fun out => (Printf.putRows size rows (Printf.start out)).mem

/-- That loop, and what is printed in place of no rows. -/
def showTable (size : ℕ) (rows : List (List Byte)) : Writer := fun out =>
  let o := Printf.putRows size rows (Printf.start out)
  if o.off = 0 then say size (lit "(empty)\n") o.mem else o.mem

/-- `%d` of an `int` that the model has as a number. -/
def fmtD (n : ℕ) : List Byte := fmtInt (Int32.ofNat n).toInt

/-- `mac_to_str`. -/
def macToStr (mac : Mac) : List Byte :=
  hexByte mac[0] ++ lit ":" ++ hexByte mac[1] ++ lit ":" ++ hexByte mac[2] ++ lit ":" ++
    hexByte mac[3] ++ lit ":" ++ hexByte mac[4] ++ lit ":" ++ hexByte mac[5]

/-! ### `fw_show` -/

/-- `proto_name`. -/
def protoName (p : CInt) : List Byte :=
  if p = protoTcp then lit "tcp" else if p = protoUdp then lit "udp"
  else if p = protoIcmp then lit "icmp" else lit "any"

/-- The text of a port. -/
def portText (port : CInt) : List Byte := if 0 ≤ port then fmtInt port.toInt else lit "*"

/-- The text of an address with its mask. -/
def maskedText (ip mask : Ip) : List Byte := if mask ≠ 0 then ipToStr (ip &&& mask) else lit "*"

/-- A row of `fw_show`.  No rule has a `note`. -/
def fwRow (i : ℕ) (r : FwRule) : List Byte :=
  padLeft 3 (fmtD i) ++ lit "  " ++ padRight 5 (if r.action = fwDrop then lit "drop" else lit "allow") ++
    lit " ip " ++ padRight 15 (maskedText r.sip r.sipMask) ++ lit " " ++
    padRight 15 (maskedText r.dip r.dipMask) ++ lit " proto " ++ padRight 4 (protoName r.proto) ++
    lit " sport " ++ padRight 5 (portText r.sport) ++ lit " dport " ++ padRight 5 (portText r.dport) ++
    lit " kw \"" ++ r.keyword.1 ++ lit "\" []\n"

def fwShow (size : ℕ) (rules : List FwRule) : Writer := showTable size (rules.mapIdx fwRow)

/-! ### `route_show` -/

def routeRow (clz0 : CInt) (i : ℕ) (r : Route) : List Byte :=
  padLeft 2 (fmtD i) ++ lit "  " ++ padRight 15 (ipToStr r.dest) ++ lit "/" ++
    padRight 2 (fmtInt (prefixLen clz0 r.mask).toInt) ++ lit "  via " ++
    padRight 15 (if r.gw ≠ 0 then ipToStr r.gw else lit "-") ++ lit "  if=" ++
    padRight 2 (fmtInt r.ifindex.toInt) ++ lit "  " ++
    (if r.isStatic then lit "static" else lit "connected") ++ lit "\n"

def routeShow (clz0 : CInt) (size : ℕ) (routes : List Route) : Writer :=
  showTable size (routes.mapIdx (routeRow clz0))

/-! ### `iface_show` -/

/-- A row of `iface_show`; `up` is the interface's. -/
def ifaceRow (clz0 : CInt) (up : Bool) (it : Iface) : List Byte :=
  padRight 6 it.name.1 ++ lit " idx=" ++ padLeft 2 (fmtInt it.ifindex.toInt) ++ lit " " ++
    (if up then lit "UP" else lit "DOWN") ++ lit "  " ++ ipToStr it.ip ++ lit "/" ++
    fmtInt (prefixLen clz0 it.netmask).toInt ++ lit "  " ++ macToStr it.mac ++ lit "\n"

/-- `iface_show`, which has nothing to print in place of no rows. -/
def ifaceShow (clz0 : CInt) (size : ℕ) (up : ℕ → Bool) (ifs : Ifaces) : Writer :=
  showRows size (ifs.mapIdx fun i => ifaceRow clz0 (up i))

/-! ### `arp_show` -/

def arpRow (now : ℕ) (e : ArpEntry) : List Byte :=
  padRight 15 (ipToStr e.ip) ++ lit "  " ++ padRight 17 (macToStr e.mac) ++ lit "  if=" ++
    padRight 2 (fmtInt e.ifidx.toInt) ++ lit "  age=" ++ fmtU64 (arpAge now e.lastSeen) ++ lit "s\n"

/-- `arp_show`: the entries in use. -/
def arpShow (now size : ℕ) (entry : ArpSlot → ArpEntry) : Writer :=
  showTable size ((((List.finRange arpCap).map entry).filter (·.used)).map (arpRow now))

/-! ### `pend_show` -/

def pendRow (n : PendNode) : List Byte :=
  padRight 15 (ipToStr n.nexthop) ++ lit "  if=" ++ padRight 2 (fmtInt n.ifidx.toInt) ++
    lit "  retries=" ++ fmtD n.retries ++ lit "  frames=" ++ fmtD n.chainLen ++ lit "\n"

/-- `pend_show`.  A row has at least one byte, so that the loop goes over no more than `size` nodes,
whatever the list. -/
def pendShow (size : ℕ) (t : PendTable) : Writer :=
  showTable size ((Linked.toList t.links.next size t.head).map fun i => pendRow (t.node i))

/-! ### The counters -/

/-- `tpool_show`. -/
def tpoolShow (size : ℕ) (nthreads : CInt) (executed : ℕ) (p : TaskQueue) : Writer :=
  say size (lit "thread_pool: workers=" ++ fmtInt nthreads.toInt ++ lit "  queue_cap=" ++ fmtD taskCap ++
    lit "  q_depth=" ++ Text.fmtNat (p.count % 2 ^ 32) ++ lit "\n             submitted=" ++
    fmtU64 p.submitted ++ lit "  executed=" ++ fmtU64 executed ++ lit "  drops=" ++ fmtU64 p.drops ++
    lit "\n")

/-- `mp_show`.  The arena has two megabytes. -/
def mpShow (size : ℕ) (p : Pool) : Writer :=
  say size (lit "mempool: blocks=" ++ fmtD mpCount ++ lit "  block=2048  arena=2.00MB\n         allocs=" ++
    fmtU64 p.allocs ++ lit "  frees=" ++ fmtU64 p.frees ++ lit "  fallbacks=" ++ fmtU64 p.fallbacks ++
    lit "  outstanding=" ++ fmtInt (((p.allocs : ℤ) - p.frees).bmod (2 ^ 64)) ++ lit "\n")

/-- What `cmd_showstat` prints in front of each counter. -/
def statLabels : List (List Byte × Counter) :=
  [(lit "rx=", .rx), (lit " tx=", .tx), (lit " drop=", .drop), (lit " fw_drop=", .fwDrop),
    (lit " noroute=", .noroute), (lit " self_drop=", .selfDrop), (lit "\nttl_drop=", .ttlDrop),
    (lit " arp_fail=", .arpFail), (lit " pend_drop=", .pendDrop), (lit " malformed=", .malformed),
    (lit " tx_err=", .txErr)]

/-- The text of `cmd_showstat`. -/
def statText (g : Stats) : List Byte :=
  statLabels.flatMap (fun x => x.1 ++ fmtU64 (g x.2)) ++ lit "\n"

end LinuxRouter
