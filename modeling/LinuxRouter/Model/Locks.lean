import LinuxRouter.Model.Receive
import LinuxRouter.Support.Locks

/-!
# Model — Locks

The locks that every function takes, in the order it takes them.  What a function decides by its data
may come out any way here, and a loop may run any number of times.

The threads of the data plane have their programs already; a command of theirs is the section that it
stands for (`Cmd.code`), and their locks are read off (`Act.code`).  The other threads' functions are
given by their locks alone; the console and the connections have programs too, which
`Threads.Locking` compares with what stands here, and `main` and the two listeners have none.  A call
that waits for a packet, a peer, a line of input, a thread or the clock is `outside`; the writing of
a file or of the log is not.

A `Code` has the locks of a function and nothing else, so that it has more runs than the function.
Where a function calls another one, its code has the other's in that place, and a section around a
call is `Code.within`.
-/

namespace LinuxRouter

open Locks (Code)

/-- The locks of the source files: `g_up_lock`, `g_pend_lock`, the pool's, and each file's `g_lock`. -/
inductive Lock where
  | up
  | cfg
  | arp
  | route
  | fw
  | tpool
  | pend
  | mempool
  | log
  deriving DecidableEq

/-- The order in which they are taken. -/
def Lock.rank : Lock → ℕ
  | .up => 0
  | .cfg => 1
  | .arp => 1
  | .route => 1
  | .fw => 1
  | .tpool => 1
  | .pend => 2
  | .mempool => 3
  | .log => 4

namespace LockCode

open Locks.Code

abbrev LCode := Code Lock

/-- A critical section with nothing else in it. -/
def alone (k : Lock) (m : Locks.Mode) : LCode := Code.within k m .done

def outside : LCode := .outside .done

/-- `if (..) p`. -/
def maybe (p : LCode) : LCode := p.either .done

/-! ### log.c, mempool.c, thread_pool.c -/

/-- `log_msg`: its level may be filtered out. -/
def logMsg : LCode := maybe (alone .log .write)

def mpAlloc : LCode := alone .mempool .write

/-- `mp_free`: a block of the heap, or of the arena. -/
def mpFree : LCode := maybe (alone .mempool .write)

def tpoolSubmit : LCode := alone .tpool .write

/-- The critical section of `worker_main`; its wait releases the lock. -/
def tpoolTake : LCode := all [alone .tpool .write, loop (all [outside, alone .tpool .write])]

def tpoolShutdown : LCode := all [alone .tpool .write, loop outside]

def tpoolShow : LCode := alone .tpool .write

/-! ### arp_table.c, route.c, firewall.c -/

def arpInit : LCode := logMsg

def arpLookup : LCode := alone .arp .read

def arpInsert : LCode := alone .arp .write

/-- `arp_tick`: each entry that ages out is logged under the lock. -/
def arpTick : LCode := Code.within .arp .write (loop logMsg)

def arpShow : LCode := alone .arp .read

def routeClearStatic : LCode := alone .route .write

def routeDeriveConnected : LCode := all [alone .route .write, logMsg]

def routeAdd : LCode := all [alone .route .write, maybe logMsg]

def routeDel : LCode := maybe (alone .route .write)

def routeLookup : LCode := alone .route .read

def routeShow : LCode := alone .route .read

def fwClear : LCode := alone .fw .write

def fwAdd : LCode := maybe (alone .fw .write)

def fwDel : LCode := alone .fw .write

def fwCheck : LCode := alone .fw .read

def fwShow : LCode := alone .fw .read

/-! ### forward.c -/

/-- A chain of frames, freed. -/
def freeChain : LCode := loop mpFree

/-- `alloc_pend_locked`: a slot that is free, or the victim's, whose frames it frees. -/
def allocPendLocked : LCode := maybe (all [freeChain, logMsg])

/-- `pend_enqueue`, without what follows a refusal. -/
def pendEnqueue : LCode := all [Code.within .pend .write (maybe allocPendLocked), maybe logMsg]

/-- The section of `forward_flush_pending`. -/
def pendDetach : LCode := alone .pend .write

/-- The walk of `pend_tick`. -/
def pendSweep : LCode := Code.within .pend .write (loop (maybe (all [freeChain, logMsg])))

def pendShow : LCode := alone .pend .write

/-! ### config.c -/

def configDefault : LCode := alone .cfg .write

/-- `cfg_hostname` and its like. -/
def cfgGet : LCode := alone .cfg .write

def configSerialize : LCode := alone .cfg .write

def configSave : LCode := maybe (all [configSerialize, loop logMsg])

/-- `parse_router_key`. -/
def parseRouterKey : LCode :=
  maybe (all [alone .cfg .write, either logMsg (all [maybe cfgGet, maybe cfgGet])])

/-- `parse_filter_line`. -/
def parseFilterLine : LCode := maybe (all [fwAdd, maybe logMsg])

/-- `parse_firewall_line`. -/
def parseFirewallLine : LCode := maybe (either fwAdd logMsg)

/-- `parse_route_line`. -/
def parseRouteLine : LCode := maybe (either routeAdd logMsg)

def configLoad : LCode :=
  either (all [logMsg, configDefault, fwClear, routeClearStatic, configSave])
    (all [configDefault, fwClear, routeClearStatic,
      loop (maybe (oneOf [parseRouterKey, parseFilterLine, parseFirewallLine, parseRouteLine, logMsg])),
      cfgGet, logMsg])

/-! ### upgrade.c, interface.c -/

def upgradeBegin : LCode := maybe (all [alone .up .write, maybe logMsg])

/-- `upgrade_finish`: the configuration is saved under the lock. -/
def upgradeFinish : LCode :=
  all [Code.within .up .write (maybe (all [configSave, maybe logMsg])), maybe logMsg]

def upgradeExec : LCode := all [logMsg, logMsg]

def upgradeAbort : LCode := alone .up .write

/-- `iface_init`, `iface_add_addr` and `iface_del_addr` take no lock of their own. -/
def ifaceLogs : LCode := loop logMsg

/-! ### terminal.c -/

def cmdSetip : LCode := maybe (all [ifaceLogs, maybe routeDeriveConnected])

def cmdDelip : LCode := maybe (all [ifaceLogs, maybe routeDeriveConnected])

def cmdAddfw : LCode := maybe fwAdd

def cmdDelfw : LCode := maybe fwDel

def cmdAddroute : LCode := maybe routeAdd

def cmdDelroute : LCode := maybe routeDel

def cmdReload : LCode := all [configLoad, maybe (all [routeDeriveConnected, cfgGet, cfgGet, cfgGet])]

/-- `cmd_dispatch`; the commands not named take no lock. -/
def cmdDispatch : LCode :=
  maybe (oneOf [cmdSetip, cmdDelip, cmdAddfw, cmdDelfw, fwShow, cmdAddroute, cmdDelroute, routeShow,
    arpShow, tpoolShow, pendShow, configSerialize, configSave, cmdReload])

def terminalLoop : LCode := all [logMsg, loop (all [outside, maybe cmdDispatch])]

/-! ### remote.c -/

def sendAll : LCode := loop outside

def handleLine : LCode :=
  oneOf [sendAll,
    all [cfgGet, sendAll],
    all [configSerialize, sendAll, sendAll, sendAll],
    all [upgradeBegin, sendAll],
    all [cmdDispatch, sendAll, sendAll]]

def processLines : LCode := loop handleLine

def binWrite : LCode := maybe sendAll

def binFinish : LCode :=
  oneOf [sendAll,
    all [configLoad, routeDeriveConnected, sendAll],
    all [upgradeFinish, sendAll, maybe upgradeExec]]

def connPump : LCode :=
  loop (all [outside, oneOf [all [binWrite, maybe (all [binFinish, processLines])], sendAll, processLines]])

def connThread : LCode := all [sendAll, cfgGet, connPump, maybe upgradeAbort]

def tcpThread : LCode :=
  maybe (all [cfgGet, either (all [cfgGet, logMsg]) (all [cfgGet, logMsg, loop outside])])

def udpThread : LCode :=
  maybe (all [cfgGet, either (all [cfgGet, logMsg])
    (all [cfgGet, logMsg, loop (all [outside, maybe (all [
      maybe (oneOf [arpShow, routeShow, configSerialize]), outside])])])])

end LockCode

/-! ### The data plane -/

/-- An answer that the command may get; every one has some. -/
def Cmd.answer : ∀ {β : Type}, Cmd β → β
  | _, .mpAlloc => none
  | _, .mpFree _ => ()
  | _, .load _ => { next := none, len := 0, outIfidx := 0, nexthop := 0, data := [] }
  | _, .write _ _ => ()
  | _, .recvfrom _ => none
  | _, .stop => false
  | _, .count _ => ()
  | _, .ifaces => []
  | _, .arpProxy => false
  | _, .fwCheck _ _ => fwAllow
  | _, .routeLookup _ => none
  | _, .arpLookup _ => none
  | _, .arpInsert _ _ => ()
  | _, .arpTick => ()
  | _, .tpoolSubmit _ => false
  | _, .tpoolTake => .wait
  | _, .pendEnqueue _ _ => .full
  | _, .pendDetach _ => none
  | _, .pendSweep => ([], [])
  | _, .pktSend _ _ => false
  | _, .mark _ => ()

/-- The section that a command stands for. -/
def Cmd.code : ∀ {β : Type}, Cmd β → LockCode.LCode
  | _, .mpAlloc => LockCode.mpAlloc
  | _, .mpFree _ => LockCode.mpFree
  | _, .load _ => .done
  | _, .write _ _ => .done
  | _, .recvfrom _ => LockCode.outside
  -- the timer sleeps between its two looks at the flag, the receive loop when it has no block
  | _, .stop => LockCode.outside
  | _, .count _ => .done
  | _, .ifaces => .done
  | _, .arpProxy => LockCode.cfgGet
  | _, .fwCheck _ _ => LockCode.fwCheck
  | _, .routeLookup _ => LockCode.routeLookup
  | _, .arpLookup _ => LockCode.arpLookup
  | _, .arpInsert _ _ => LockCode.arpInsert
  | _, .arpTick => LockCode.arpTick
  | _, .tpoolSubmit _ => LockCode.tpoolSubmit
  | _, .tpoolTake => LockCode.tpoolTake
  | _, .pendEnqueue _ _ => LockCode.pendEnqueue
  | _, .pendDetach _ => LockCode.pendDetach
  | _, .pendSweep => LockCode.pendSweep
  | _, .pktSend _ _ => LockCode.outside
  | _, .mark _ => .done

/-- The locks of a program of the data plane, whatever its commands answer. -/
def Act.code {α : Type} : Act α → LockCode.LCode
  | .ret _ => .done
  | .cmd c k => c.code.seq (.choose ⟨c.answer⟩ fun b => Act.code (k b))

/-! ### The threads -/

/-- The threads of the process; connections come and go. -/
inductive RouterThread where
  | main
  | timer
  | worker (i : Fin poolThreads)
  | terminal
  | tcp
  | udp
  | conn (i : ℕ)
  deriving DecidableEq

namespace LockCode

open Locks.Code

/-- `main`: the initialisations, the receive loop and the shutdown. -/
def main : LCode :=
  all [logMsg, ifaceLogs, configLoad, routeDeriveConnected, arpInit, cfgGet, cfgGet, logMsg, loop logMsg,
    cfgGet, cfgGet, cfgGet, logMsg, loop (Act.code rxRound), logMsg, tpoolShutdown]

/-- What each thread does from its start to its end. -/
def body : RouterThread → LCode
  | .main => main
  | .timer => loop (Act.code timerRound)
  | .worker _ => loop (Act.code workerRound)
  | .terminal => terminalLoop
  | .tcp => tcpThread
  | .udp => udpThread
  | .conn _ => connThread

end LockCode

end LinuxRouter
