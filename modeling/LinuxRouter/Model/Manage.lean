import LinuxRouter.Support.Program
import LinuxRouter.Support.Stdio
import LinuxRouter.Model.Config
import LinuxRouter.Model.Upgrade

/-!
# Model — Manage

The shared state of the management side, and the commands its threads run on it.  As in `Plane`, a
command is a system call, one access to shared memory, or one critical section.

The file of a `putconf` is a stream, as `fopen` returns it: what `fwrite` takes may wait in a buffer,
which `fclose` writes, or fails to write.

A thread keeps its own history, which is no part of the program: every command with its answer, and
marks where a connection hands a line to `handle_line`, switches to a payload, hands a part of it to
`bin_write`, and calls `bin_finish`.
-/

namespace LinuxRouter

open Text (lit)
open Files (Fs)
open Stdio (Stream)

/-- `CONF_TMP`. -/
def confTmp : Path := lit "router.conf.new"

/-- An answer of the outside world: the peer, the file system, and the parts of the router that are
not modelled here, `config_serialize` on live tables and `cmd_dispatch`.  `settled` is how many of
the bytes that a stream has taken in all are in its file after an `fwrite`; `flushed` is how many of
those left in the buffer a failing `fclose` writes. -/
structure World extends FileCalls where
  settled : ℕ → ℕ
  flushed : Option ℕ
  recv : List Byte
  stop : Bool
  conf : Option (List Byte)
  rc : CInt
  out : List Byte
  execed : Bool

/-- The shared state. -/
structure Manage where
  settings : Settings
  rules : List FwRule
  routes : List Route
  ifaces : Ifaces
  disk : Disk
  up : Upgrade

/-- Places in a connection's program. -/
inductive Mark where
  | line (raw : List Byte)
  | authed
  | binary (size : ℕ)
  | chunk (p : List Byte)
  | finish
  deriving DecidableEq

inductive MCmd : Type → Type where
  | mark (m : Mark) : MCmd Unit
  | stop : MCmd Bool
  | recv (room : ℕ) : MCmd (List Byte)
  | send (s : List Byte) : MCmd Unit
  | password : MCmd (List Byte)
  | serialize : MCmd (Option (List Byte))
  | dispatch (line : List Byte) : MCmd (CInt × List Byte)
  | fopen : MCmd (Option Stream)
  | fwrite (f : Stream) (p : List Byte) : MCmd (ℕ × Stream)
  | fclose (f : Stream) : MCmd Bool
  | rename : MCmd Bool
  | unlink : MCmd Unit
  | upgradeBegin (sha : List Byte) (size : ℕ) : MCmd (Option (List Byte))
  | upgradeWrite (p : List Byte) : MCmd (Option (List Byte))
  | upgradeFinish : MCmd (Option (List Byte))
  | upgradeExec : MCmd Bool
  | upgradeAbort : MCmd Unit
  | readConf : MCmd (Option (List Byte))
  | configDefault : MCmd Unit
  | configSave : MCmd Unit
  | routerKey (p : List Byte) : MCmd Unit
  | fwClear : MCmd Unit
  | fwAdd (r : FwRule) : MCmd Bool
  | ifaces : MCmd Ifaces
  | routeClearStatic : MCmd Unit
  | routeAdd (dest mask gw : Ip) (ifindex : CInt) : MCmd Bool
  | routeDeriveConnected : MCmd Unit

/-- What an `fwrite` of `n` bytes does. -/
def World.written (e : World) (f : Stream) (n : ℕ) : Stdio.Written :=
  f.settling e.settled (min (e.wrote.getD n) n)

/-- The answer and effect of a command. -/
def execM : ∀ ⦃β : Type⦄, MCmd β → World → Manage → β × Manage
  | _, .mark _, _, s => ((), s)
  | _, .stop, e, s => (e.stop, s)
  | _, .recv room, e, s => (e.recv.take room, s)
  | _, .send _, _, s => ((), s)
  | _, .password, _, s => (s.settings.cfg.password.1, s)
  | _, .serialize, e, s => (e.conf, s)
  | _, .dispatch _, e, s => ((e.rc, e.out), s)
  | _, .fopen, e, s =>
      if e.opened then
        let r := Stdio.fopenW confTmp s.disk
        (some r.1, { s with disk := r.2 })
      else (none, s)
  | _, .fwrite f p, e, s =>
      let r := Stdio.fwrite (e.written f p.length) p f s.disk
      ((r.1, r.2.1), { s with disk := r.2.2 })
  | _, .fclose f, e, s =>
      let r := Stdio.fclose e.flushed f s.disk
      (r.1, { s with disk := r.2 })
  | _, .rename, e, s =>
      if e.renamed && (s.disk.entry confTmp).isSome then
        (true, { s with disk := s.disk.rename confTmp configFile })
      else (false, s)
  | _, .unlink, _, s => ((), { s with disk := s.disk.unlink confTmp })
  | _, .upgradeBegin sha size, e, s =>
      let r := upgradeBegin e.toFileCalls sha size s.up s.disk
      (r.1, { s with up := r.2.1, disk := r.2.2 })
  | _, .upgradeWrite p, e, s =>
      let r := upgradeWrite e.toFileCalls p s.up s.disk
      (r.1, { s with up := r.2.1, disk := r.2.2 })
  | _, .upgradeFinish, e, s =>
      let r := upgradeFinish e.toFileCalls s.up s.disk
      (r.1, { s with up := r.2.1, disk := r.2.2 })
  | _, .upgradeExec, e, s => (e.execed, s)
  | _, .upgradeAbort, _, s =>
      let r := upgradeAbort s.up s.disk
      ((), { s with up := r.1, disk := r.2 })
  | _, .readConf, e, s => (if e.opened then s.disk.read configFile else none, s)
  | _, .configDefault, _, s => ((), { s with settings := configDefault s.settings })
  | _, .configSave, e, s =>
      ((), { s with disk := match e.saved with | some text => s.disk.link configFile text | none => s.disk })
  | _, .routerKey p, _, s => ((), { s with settings := parseRouterKey p s.settings })
  | _, .fwClear, _, s => ((), { s with rules := [] })
  | _, .fwAdd r, _, s =>
      let x := fwAdd r s.rules
      (x.1, { s with rules := x.2 })
  | _, .ifaces, _, s => (s.ifaces, s)
  | _, .routeClearStatic, _, s => ((), { s with routes := routeClearStatic s.routes })
  | _, .routeAdd dest mask gw ifindex, _, s =>
      let x := routeAdd dest mask gw ifindex s.routes
      (x.1, { s with routes := x.2 })
  | _, .routeDeriveConnected, _, s => ((), { s with routes := routeDeriveConnected s.ifaces s.routes })

/-- A management thread's program. -/
abbrev MAct (α : Type) := Program.Prog MCmd α

open Program.Prog (perform)

/-! ### Loading the configuration -/

/-- A line of `config_load`, in the section `sec`.  A line of an unknown section is only logged. -/
def loadLine (sec p : List Byte) : MAct Unit := do
  if sec = lit "router" then perform (.routerKey p)
  else if sec = lit "filter" then
    match parseFilterLine p with
    | some r => let _ ← perform (.fwAdd r)
    | none => pure ()
  else if sec = lit "firewall" then
    match parseFirewallLine p with
    | some r => let _ ← perform (.fwAdd r)
    | none => pure ()
  else if sec = lit "route" then
    let ifs ← perform .ifaces
    match parseRouteLine ifs p with
    | some (dest, mask, gw, ifindex) => let _ ← perform (.routeAdd dest mask gw ifindex)
    | none => pure ()
  else pure ()

/-- The loop of `config_load`. -/
def loadLines : List (List Byte × List Byte) → MAct Unit
  | [] => pure ()
  | (sec, p) :: lines => do
    loadLine sec p
    loadLines lines

/-- `config_load`, step by step.  The file is read at once. -/
def configLoadSteps : MAct Unit := do
  match ← perform .readConf with
  | none =>
    perform .configDefault
    perform .fwClear
    perform .routeClearStatic
    perform .configSave
  | some file =>
    perform .configDefault
    perform .fwClear
    perform .routeClearStatic
    loadLines (confLines [] (Text.fgetsAll 512 file))

end LinuxRouter
