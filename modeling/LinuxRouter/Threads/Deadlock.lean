import LinuxRouter.Model.Locks

/-!
# Threads — no deadlock

The locks of the whole process: the receive loop and the rest of `main`, the timer, the workers, the
console, the listeners and any number of connections.

* `body_calm`: every thread takes its locks in the order of `Lock.rank`, and waits for the outside
  with none.
* `router_no_deadlock`: so, wherever a run has got, the threads can end what they do, and a thread that
  waits for a lock waits for one that can go on.
* `router_waits_free`: what a thread never does, among it what `forward.c` says of its own lock.

What a thread does with its locks is a `Locks.Code`, and the code is judged piece by piece, as it is
put together: `Keeps hs p` says that from the locks `hs` on the piece `p` takes each lock above all
that are held, and gives back what it takes.  A section that is entered with a lock in hand (the log
under `g_pend_lock`, the saved configuration under `g_up_lock`) is judged from any locks of lower
rank; all others are `Calm`, from no lock to no lock.  That nothing waits for the outside with a
lock is part of the judgment.  The two results are then those of the library on ordered codes: in a
chain of waiting threads the ranks rise, so that it ends at a thread that can go on.
-/

namespace LinuxRouter

namespace LockCode

open Locks (Code Ok Reach)
open Locks.Code (all oneOf loop either)

/-- The code keeps the order from the locks `hs` on, and ends with them. -/
def Keeps (hs : List (Lock × Locks.Mode)) (p : LCode) : Prop := Ok Lock.rank hs p hs

/-- All that is held ranks below `r`. -/
def Below (r : ℕ) (hs : List (Lock × Locks.Mode)) : Prop := ∀ x ∈ hs, x.1.rank < r

section Keeps

variable {hs : List (Lock × Locks.Mode)} {p q : LCode} {k : Lock} {m : Locks.Mode} {ps : List LCode}
  {r r' : ℕ}

theorem Below.mono (h : Below r hs) (hr : r ≤ r') : Below r' hs := fun x hx => (h x hx).trans_le hr

/-- No lock is below every rank. -/
theorem Below.nil : Below r [] := fun _ hx => absurd hx List.not_mem_nil

/-- One lock, of a lower rank. -/
theorem Below.one (h : k.rank < r) : Below r [(k, m)] := by
  intro x hx
  obtain rfl := List.mem_singleton.mp hx
  exact h

/-- The end keeps what it is given. -/
theorem Keeps.done : Keeps hs .done := rfl

/-- A section, entered below its lock. -/
theorem Keeps.within (hk : Below k.rank hs) (hp : Keeps ((k, m) :: hs) p) :
    Keeps hs (p.within k m) := Ok.within hk hp

/-- A section with nothing else in it. -/
theorem Keeps.alone (h : Below k.rank hs) : Keeps hs (alone k m) := .within h Keeps.done

/-- Waiting is for threads without a lock. -/
theorem Keeps.outside : Keeps [] outside := ⟨rfl, rfl⟩

/-- A piece that may be left out. -/
theorem Keeps.maybe (h : Keeps hs p) : Keeps hs (maybe p) := Ok.either h Keeps.done

theorem Keeps.either (hp : Keeps hs p) (hq : Keeps hs q) : Keeps hs (p.either q) := Ok.either hp hq

/-- A piece, any number of times. -/
theorem Keeps.loop (h : Keeps hs p) : Keeps hs p.loop := Ok.loop h

theorem Keeps.all (h : ps.Forall (Keeps hs)) : Keeps hs (Code.all ps) :=
  Ok.all (List.forall_iff_forall_mem.mp h)

theorem Keeps.oneOf (h : ps.Forall (Keeps hs)) : Keeps hs (Code.oneOf ps) :=
  Ok.oneOf (List.forall_iff_forall_mem.mp h)

end Keeps

/-! ### Within other sections -/

section Nested

variable {hs : List (Lock × Locks.Mode)}

/-- A line of the log, under whatever else is held. -/
theorem logMsg_keeps (h : Below Lock.log.rank hs) : Keeps hs logMsg := (Keeps.alone h).maybe

/-- Frames freed and the fact logged, under `g_pend_lock`. -/
theorem freeAndLog_keeps (h : Below Lock.mempool.rank hs) : Keeps hs (Code.all [freeChain, logMsg]) :=
  .all ⟨.loop (.maybe (.alone h)), logMsg_keeps (h.mono (by decide))⟩

/-- The configuration saved, under `g_up_lock` too. -/
theorem configSave_keeps (h : Below Lock.cfg.rank hs) : Keeps hs configSave :=
  .maybe (.all ⟨.alone h, (logMsg_keeps (h.mono (by decide))).loop⟩)

end Nested

/-! ### The functions -/

/-- From no lock to no lock. -/
abbrev Calm (p : LCode) : Prop := Keeps [] p

theorem alone_calm {k : Lock} {m : Locks.Mode} : Calm (alone k m) := .alone .nil

theorem logMsg_calm : Calm logMsg := logMsg_keeps .nil

theorem arpTick_calm : Calm arpTick :=
  .within .nil (logMsg_keeps (.one (by decide))).loop

theorem pendEnqueue_calm : Calm pendEnqueue :=
  .all ⟨.within .nil (freeAndLog_keeps (.one (by decide))).maybe.maybe, logMsg_calm.maybe⟩

theorem pendSweep_calm : Calm pendSweep :=
  .within .nil (freeAndLog_keeps (.one (by decide))).maybe.loop

theorem configSave_calm : Calm configSave := configSave_keeps .nil

theorem routeAdd_calm : Calm routeAdd := .all ⟨alone_calm, logMsg_calm.maybe⟩

theorem routeDeriveConnected_calm : Calm routeDeriveConnected := .all ⟨alone_calm, logMsg_calm⟩

theorem fwAdd_calm : Calm fwAdd := alone_calm.maybe

theorem parseRouterKey_calm : Calm parseRouterKey :=
  .maybe (.all ⟨alone_calm, .either logMsg_calm (.all ⟨alone_calm.maybe, alone_calm.maybe⟩)⟩)

theorem configLoad_calm : Calm configLoad := by
  have hline :
      Calm (oneOf [parseRouterKey, parseFilterLine, parseFirewallLine, parseRouteLine, logMsg]) :=
    .oneOf ⟨parseRouterKey_calm, .maybe (.all ⟨fwAdd_calm, logMsg_calm.maybe⟩),
      (fwAdd_calm.either logMsg_calm).maybe, (routeAdd_calm.either logMsg_calm).maybe, logMsg_calm⟩
  have hnew : Calm (all [logMsg, configDefault, fwClear, routeClearStatic, configSave]) :=
    .all ⟨logMsg_calm, alone_calm, alone_calm, alone_calm, configSave_calm⟩
  exact hnew.either
    (.all ⟨alone_calm, alone_calm, alone_calm, hline.maybe.loop, alone_calm, logMsg_calm⟩)

theorem upgradeFinish_calm : Calm upgradeFinish := by
  have hsave : Keeps [(.up, .write)] configSave := configSave_keeps (.one (by decide))
  have hlog : Keeps [(.up, .write)] logMsg := logMsg_keeps (.one (by decide))
  exact .all ⟨.within .nil (.maybe (.all ⟨hsave, hlog.maybe⟩)), logMsg_calm.maybe⟩

theorem cmdReload_calm : Calm cmdReload :=
  .all ⟨configLoad_calm, .maybe (.all ⟨routeDeriveConnected_calm, alone_calm, alone_calm, alone_calm⟩)⟩

theorem cmdDispatch_calm : Calm cmdDispatch := by
  have haddr : Calm (maybe (all [ifaceLogs, maybe routeDeriveConnected])) :=
    .maybe (.all ⟨logMsg_calm.loop, routeDeriveConnected_calm.maybe⟩)
  exact .maybe (.oneOf ⟨haddr, haddr, fwAdd_calm.maybe, alone_calm.maybe, alone_calm, routeAdd_calm.maybe,
    alone_calm.maybe.maybe, alone_calm, alone_calm, alone_calm, alone_calm, alone_calm, configSave_calm,
    cmdReload_calm⟩)

theorem sendAll_calm : Calm sendAll := Keeps.outside.loop

theorem handleLine_calm : Calm handleLine := by
  have hbegin : Calm upgradeBegin := .maybe (.all ⟨alone_calm, logMsg_calm.maybe⟩)
  exact .oneOf ⟨sendAll_calm, .all ⟨alone_calm, sendAll_calm⟩,
    .all ⟨alone_calm, sendAll_calm, sendAll_calm, sendAll_calm⟩, .all ⟨hbegin, sendAll_calm⟩,
    .all ⟨cmdDispatch_calm, sendAll_calm, sendAll_calm⟩⟩

theorem connPump_calm : Calm connPump := by
  have hlines : Calm processLines := handleLine_calm.loop
  have hfinish : Calm binFinish :=
    .oneOf ⟨sendAll_calm, .all ⟨configLoad_calm, routeDeriveConnected_calm, sendAll_calm⟩,
      .all ⟨upgradeFinish_calm, sendAll_calm, .maybe (.all ⟨logMsg_calm, logMsg_calm⟩)⟩⟩
  exact .loop (.all ⟨.outside, .oneOf ⟨.all ⟨sendAll_calm.maybe, .maybe (.all ⟨hfinish, hlines⟩)⟩,
    sendAll_calm, hlines⟩⟩)

theorem connThread_calm : Calm connThread :=
  .all ⟨sendAll_calm, alone_calm, connPump_calm, alone_calm.maybe⟩

theorem tcpThread_calm : Calm tcpThread :=
  .maybe (.all ⟨alone_calm, .either (.all ⟨alone_calm, logMsg_calm⟩)
    (.all ⟨alone_calm, logMsg_calm, Keeps.outside.loop⟩)⟩)

theorem udpThread_calm : Calm udpThread := by
  have hreply : Calm (oneOf [arpShow, routeShow, configSerialize]) :=
    .oneOf ⟨alone_calm, alone_calm, alone_calm⟩
  have hround :
      Calm (all [outside, maybe (all [maybe (oneOf [arpShow, routeShow, configSerialize]), outside])]) :=
    .all ⟨.outside, .maybe (.all ⟨hreply.maybe, .outside⟩)⟩
  exact .maybe (.all ⟨alone_calm, .either (.all ⟨alone_calm, logMsg_calm⟩)
    (.all ⟨alone_calm, logMsg_calm, hround.loop⟩)⟩)

/-! ### The data plane -/

/-- A command of the data plane, as the section that it stands for. -/
theorem cmd_calm {β : Type} (c : Cmd β) : Calm c.code := by
  cases c with
  | mpAlloc | arpProxy | fwCheck | routeLookup | arpLookup | arpInsert | tpoolSubmit | pendDetach =>
      exact alone_calm
  | mpFree b => exact alone_calm.maybe
  | load | write | count | ifaces | mark => exact .done
  | recvfrom | stop | pktSend => exact .outside
  | arpTick => exact arpTick_calm
  | tpoolTake => exact .all ⟨alone_calm, .loop (.all ⟨.outside, alone_calm⟩)⟩
  | pendEnqueue => exact pendEnqueue_calm
  | pendSweep => exact pendSweep_calm

/-- Every program of the data plane keeps the order, whatever its commands answer. -/
theorem act_calm {α : Type} (p : Act α) : Calm (Act.code p) := by
  induction p with
  | ret a => exact .done
  | cmd c k ih => exact Ok.seq (cmd_calm c) fun b => ih b

/-- Every thread takes its locks in order, and waits for the outside with none. -/
theorem body_calm (t : RouterThread) : Calm (body t) := by
  cases t with
  | main =>
      have hlogs : Calm ifaceLogs := logMsg_calm.loop
      have hstop : Calm tpoolShutdown := .all ⟨alone_calm, Keeps.outside.loop⟩
      exact .all ⟨logMsg_calm, hlogs, configLoad_calm, routeDeriveConnected_calm, logMsg_calm, alone_calm,
        alone_calm, logMsg_calm, logMsg_calm.loop, alone_calm, alone_calm, alone_calm, logMsg_calm,
        (act_calm rxRound).loop, logMsg_calm, hstop⟩
  | timer => exact (act_calm timerRound).loop
  | worker i => exact (act_calm workerRound).loop
  | terminal => exact .all ⟨logMsg_calm, .loop (.all ⟨.outside, cmdDispatch_calm.maybe⟩)⟩
  | tcp => exact tcpThread_calm
  | udp => exact udpThread_calm
  | conn i => exact connThread_calm

end LockCode

/-! ### The results -/

section Results

open Locks (Reach Go WaitsFor)
open Relation (ReflTransGen)

variable {x : RouterThread → Locks.Thread Lock}

theorem Lock.rank_le (k : Lock) : k.rank ≤ 4 := by
  cases k <;> decide

/-- **The router cannot deadlock.**  Wherever the threads have got, in any interleaving and with any
number of connections: a thread in the middle of its code waits, if it waits for a lock, directly or
through others for a thread that can go on; and if no thread starts anew, every run ends, and it ends
only when all threads have come to their ends. -/
theorem router_no_deadlock (h : Reach LockCode.body x) :
    (∀ t p hs, x t = .busy p hs → ∃ u, ReflTransGen (WaitsFor x) t u ∧ Locks.Runs x u) ∧
      Acc (fun z y => Go y z) x ∧
      ∀ y, ReflTransGen Go x y → (∀ z, ¬Go y z) → ∀ t, y t = .idle :=
  ⟨fun _ _ _ ht => (h.good LockCode.body_calm).chain Lock.rank_le ht,
    Locks.no_deadlock Lock.rank_le LockCode.body_calm h⟩

/-- The console writes a line of the log; the timer, in `arp_tick`, has an entry to log. -/
theorem log_contended :
    ∃ x p q, Reach LockCode.body x ∧ x .terminal = .busy (.unlock .log p) [(.log, .write)] ∧
      x .timer = .busy (.lock .log .write q) [(.arp, .write)] := by
  have h : Reach LockCode.body fun _ => .idle := .refl
  -- the console's first line
  replace h := (h.start RouterThread.terminal rfl).choose true
  replace h := h.lock (Locks.Free.idle.update fun m' hm => by cases hm)
  -- a round of the timer, up to the table
  replace h := (h.start RouterThread.timer rfl).choose 1
  replace h := (h.outside.choose false).outside.choose false
  have hothers : ∀ m', (Lock.arp, m') ∈ [(Lock.log, Locks.Mode.write)] → Locks.Mode.write.shares m' := by
    simp
  replace h := h.lock ((Locks.Free.idle.update hothers).update fun m' hm => by cases hm)
  -- one entry aged out, and its line is not filtered
  replace h := (h.choose 1).choose true
  exact ⟨_, _, _, h, rfl, rfl⟩

theorem router_no_deadlock_contended :
    ∃ (x : RouterThread → Locks.Thread Lock) (p q : LockCode.LCode),
      x .terminal = .busy (.unlock .log p) [(.log, .write)] ∧
      x .timer = .busy (.lock .log .write q) [(.arp, .write)] ∧ Acc (fun z y => Go y z) x ∧
      ∃ u, ReflTransGen (WaitsFor x) RouterThread.timer u ∧ Locks.Runs x u := by
  obtain ⟨x, p, q, hx, hp, hq⟩ := log_contended
  exact ⟨x, p, q, hp, hq, (router_no_deadlock hx).2.1, (router_no_deadlock hx).1 RouterThread.timer _ _ hq⟩

/-- **What no thread does with a lock.**  In every reachable state a thread that is about to receive,
to send, to accept, to read a line, to sleep or to join holds no lock at all; and a thread that is
about to take a lock holds only locks that come before it, so that none waits for the ARP table with
`g_pend_lock` in its hands, and none takes a lock twice. -/
theorem router_waits_free (h : Reach LockCode.body x) (t : RouterThread) :
    (∀ p hs, x t = .busy (.outside p) hs → hs = []) ∧
      (∀ m p hs m', x t = .busy (.lock .arp m p) hs → (.pend, m') ∉ hs) ∧
      ∀ k m p hs m', x t = .busy (.lock k m p) hs → (k, m') ∉ hs := by
  have hgood := h.good LockCode.body_calm
  have hlock : ∀ k m p hs, x t = .busy (.lock k m p) hs → ∀ y ∈ hs, y.1.rank < k.rank :=
    fun k m p hs ht => (hgood t _ _ ht).1
  refine ⟨fun p hs ht => (hgood t _ _ ht).1, fun m p hs m' ht hm => ?_, fun k m p hs m' ht hm => ?_⟩
  · have hlt := hlock .arp m p hs ht _ hm
    simp [Lock.rank] at hlt
  · exact (hlock k m p hs ht _ hm).false

theorem router_waits_free_contended :
    ∃ (x : RouterThread → Locks.Thread Lock) (q : LockCode.LCode) (hs : List (Lock × Locks.Mode)),
      x RouterThread.timer = .busy (.lock .log .write q) hs ∧
      (Lock.log, Locks.Mode.write) ∈ (x RouterThread.terminal).held ∧ (.log, .write) ∉ hs := by
  obtain ⟨x, p, q, hx, hp, hq⟩ := log_contended
  refine ⟨x, q, _, hq, ?_, (router_waits_free hx RouterThread.timer).2.2 _ _ _ _ _ hq⟩
  rw [hp]
  exact List.mem_cons_self

end Results

end LinuxRouter
