import LinuxRouter.Support.Handle
import LinuxRouter.Model.Remote
import LinuxRouter.Model.Startup

/-!
# Model — Control

The management side whole: the local terminal, the connections and the reloads, any number of them at
once, with the commands of `terminal.c` step by step on the tables that they share.

A connection's program is that of `Remote`, with `cmd_dispatch` and `route_derive_connected` in steps
of their own.  What a command prints and returns is in `Console`; here it is an answer of the outside
world.  That an interface is up is left out with it.

The tables of `route.c` and `firewall.c` change under their locks, in one step.  The interfaces change
under none, and `route_derive_connected` reads them under the lock of the routes: every read is a
step, and a step that needs the lock waits for it (`Control.free`).
-/

namespace LinuxRouter

open Text (lit)
open Program (Prog)
open Program.Prog (perform handle)

/-- The outside world: as in `Manage`, with a line of the terminal, whether the terminal is one,
whether the system takes an address, and what is in the cells of `args` that `cmd_addfw` does not
set. -/
structure Around extends World where
  line : Option (List Byte)
  tty : Bool
  ok : Bool
  junk : ℕ → List Byte

/-- The shared state, with the thread in `route_derive_connected`, if there is one, and the slots that
the last one found for its routes, which nobody reads. -/
structure Control where
  manage : Manage
  deriver : Option ℕ
  slots : ℕ

/-- The commands that `Manage` does not have. -/
inductive TermCmd : Type → Type where
  | fgets : TermCmd (Option (List Byte))
  | tty : TermCmd Bool
  | junk : TermCmd (ℕ → List Byte)
  | ioctl : TermCmd Bool
  | setIp (i : ℕ) (ip : Ip) : TermCmd Unit
  | setNetmask (i : ℕ) (mask : Ip) : TermCmd Unit
  | ip (i : ℕ) : TermCmd Ip
  | netmask (i : ℕ) : TermCmd Ip
  | fwDel (index : CInt) : TermCmd Unit
  | routeDel (index : CInt) : TermCmd Unit
  | deriveLock (t : ℕ) : TermCmd Unit
  | full : TermCmd Bool
  | push (r : Route) : TermCmd Unit
  | unlock : TermCmd Unit

inductive CtlCmd (β : Type) : Type where
  | of (c : MCmd β)
  | own (c : TermCmd β)

/-- A write to an interface. -/
def Control.modify (i : ℕ) (f : Iface → Iface) (s : Control) : Control :=
  { s with manage := { s.manage with ifaces := s.manage.ifaces.modify i f } }

def Control.setRoutes (routes : List Route) (s : Control) : Control :=
  { s with manage := { s.manage with routes := routes } }

/-- The static routes. -/
def Control.statics (s : Control) : List Route := s.manage.routes.filter (·.isStatic)

/-- The connected routes. -/
def Control.connected (s : Control) : List Route := s.manage.routes.filter fun r => !r.isStatic

/-- The answer and effect of a command that `Manage` does not have. -/
def execTerm : ∀ ⦃β : Type⦄, TermCmd β → Around → Control → β × Control
  | _, .fgets, e, s => (e.line, s)
  | _, .tty, e, s => (e.tty, s)
  | _, .junk, e, s => (e.junk, s)
  | _, .ioctl, e, s => (e.ok, s)
  | _, .setIp i ip, _, s => ((), s.modify i fun it => { it with ip := ip })
  | _, .setNetmask i mask, _, s => ((), s.modify i fun it => { it with netmask := mask })
  | _, .ip i, _, s => ((s.manage.ifaces[i]?.map (·.ip)).getD 0, s)
  | _, .netmask i, _, s => ((s.manage.ifaces[i]?.map (·.netmask)).getD 0, s)
  | _, .fwDel index, _, s =>
      let rules := s.manage.rules
      ((), { s with manage := { s.manage with rules :=
        if 0 ≤ index.toInt ∧ index.toInt < rules.length then rules.eraseIdx index.toInt.toNat
        else rules } })
  | _, .routeDel index, _, s => ((), s.setRoutes (routeDel index s.manage.routes).2)
  -- the lock, and the loop that keeps the static routes
  | _, .deriveLock t, _, s =>
      ((), { s.setRoutes s.statics with deriver := some t, slots := maxRoute - s.statics.length })
  | _, .full, _, s => (maxRoute ≤ s.manage.routes.length, s)
  | _, .push r, _, s => ((), s.setRoutes (s.manage.routes ++ [r]))
  | _, .unlock, _, s => ((), { s with deriver := none })

/-- The answer and effect of a command. -/
def execCtl ⦃β : Type⦄ (c : CtlCmd β) (e : Around) (s : Control) : β × Control :=
  match c with
  | .of c =>
      let r := execM c e.toWorld s.manage
      (r.1, { s with manage := r.2 })
  | .own c => execTerm c e s

abbrev CtlAct (α : Type) := Prog CtlCmd α

/-- A command of `Manage`. -/
def Control.of {β : Type} (c : MCmd β) : CtlAct β := perform (.of c)

/-- A command that `Manage` does not have. -/
def Control.own {β : Type} (c : TermCmd β) : CtlAct β := perform (.own c)

open Control (of own)

/-! ### The connected routes -/

/-- The second loop of `route_derive_connected`, from the interface `i` on.  Their number, names and
indexes do not change. -/
def deriveLoop : ℕ → Ifaces → CtlAct Unit
  | _, [] => pure ()
  | i, it :: ifs => do
    if ← own .full then pure ()
    else
      let ip ← own (.ip i)
      if ip = 0 ∨ it.ifindex < 0 then deriveLoop (i + 1) ifs
      else
        let mask ← own (.netmask i)
        if mask = 0 then deriveLoop (i + 1) ifs
        else
          -- the fields are read again
          let ip ← own (.ip i)
          let mask ← own (.netmask i)
          let mask' ← own (.netmask i)
          own (.push
            { dest := ip &&& mask, mask := mask', gw := 0, ifindex := it.ifindex, isStatic := false })
          deriveLoop (i + 1) ifs

/-- `route_derive_connected`, of the thread `t`. -/
def deriveSteps (t : ℕ) : CtlAct Unit := do
  own (.deriveLock t)
  let ifs ← of .ifaces
  deriveLoop 0 ifs
  own .unlock

/-! ### The commands -/

/-- `iface_add_addr`, but for the flags. -/
def ifaceAddAddrSteps (name : List Byte) (ip mask : Ip) : CtlAct Bool := do
  let ifs ← of .ifaces
  match ifs.findIdx? fun it => it.name.1 == name with
  | none => pure false
  | some i =>
    if ← own .ioctl then
      own (.setIp i ip)
      own (.setNetmask i mask)
      pure true
    else pure false

/-- `iface_del_addr`. -/
def ifaceDelAddrSteps (name : List Byte) : CtlAct Bool := ifaceAddAddrSteps name 0 0

/-- `cmd_setip`. -/
def setipSteps (t : ℕ) (args : List (List Byte)) : CtlAct Unit :=
  match args with
  | [name, addr] =>
      match parseCidr addr with
      | none => pure ()
      | some (ip, mask) => do
        if ← ifaceAddAddrSteps name ip mask then deriveSteps t else pure ()
  | _ => pure ()

/-- `cmd_delip`. -/
def delipSteps (t : ℕ) (args : List (List Byte)) : CtlAct Unit :=
  match args with
  | [name] => do
    if ← ifaceDelAddrSteps name then deriveSteps t else pure ()
  | _ => pure ()

/-- `cmd_addfw`. -/
def addfwSteps (args : List (List Byte)) : CtlAct Unit :=
  if args = [] then pure ()
  else do
    let junk ← own .junk
    match ((lookRule args.length).scan fun j => (addfwArg (lit "addfw" :: args) j).getD (junk j)).1 with
    | none => pure ()
    | some r =>
      let _ ← of (.fwAdd r)

/-- `cmd_delfw`. -/
def delfwSteps (args : List (List Byte)) : CtlAct Unit :=
  match args with
  | [index] => own (.fwDel (Text.atoi index))
  | _ => pure ()

/-- `cmd_addroute`. -/
def addrouteSteps (args : List (List Byte)) : CtlAct Unit :=
  match args with
  | tok :: arg :: args =>
      match parseCidr tok with
      | none => pure ()
      | some (dest, mask) => do
        let ifs ← of .ifaces
        match Console.routeOpts ifs (arg :: args) (0, -1) with
        | .error _ => pure ()
        | .ok (gw, ifindex) =>
          if ifindex < 0 then pure ()
          else
            let _ ← of (.routeAdd dest mask gw ifindex)
  | _ => pure ()

/-- `cmd_delroute`. -/
def delrouteSteps (args : List (List Byte)) : CtlAct Unit :=
  match args with
  | [index] => own (.routeDel (Text.atoi index))
  | _ => pure ()

/-- `cmd_reload`. -/
def reloadSteps (t : ℕ) : CtlAct Unit := do
  configLoadSteps.handle fun _ => of
  deriveSteps t

/-- A call through the table of commands.  The others show something. -/
def callSteps (t : ℕ) (args : List (List Byte)) : CmdFn → CtlAct Unit
  | .setip => setipSteps t args
  | .delip => delipSteps t args
  | .addfw => addfwSteps args
  | .delfw => delfwSteps args
  | .addroute => addrouteSteps args
  | .delroute => delrouteSteps args
  | .save => of .configSave
  | .reload => reloadSteps t
  | _ => pure ()

/-- `cmd_dispatch`, but for what it returns and prints. -/
def dispatchSteps (t : ℕ) (line : List Byte) : CtlAct Unit :=
  match dispatchWords line with
  | [] => pure ()
  | name :: args =>
      match cmdTable.find? fun c => lit c.name == name with
      | some c => callSteps t args c.fn
      | none => pure ()

/-! ### The threads -/

/-- A command of a connection, of the thread `t`. -/
def inSteps (t : ℕ) ⦃β : Type⦄ (c : MCmd β) : CtlAct β :=
  match c with
  | .dispatch line => do
    dispatchSteps t line
    of (.dispatch line)
  | .routeDeriveConnected => deriveSteps t
  | c => of c

/-- What a thread is about to do. -/
inductive CtlTask where
  | terminal
  | task (l : Task)

/-- A turn of the loop of `terminal_loop`. -/
def terminalRound (t : ℕ) : CtlAct (Option CtlTask) := do
  if ← of .stop then pure none
  else
    match ← own .fgets with
    | none => if ← own .tty then pure none else pure (some .terminal)
    | some raw =>
      let line := (Text.cstr raw).takeWhile fun c => c != Text.cr && c != Text.nl
      if line = [] then pure (some .terminal)
      else
        let (rc, _) ← inSteps t (.dispatch line)
        if rc = 1 then pure none else pure (some .terminal)

/-- A round of a thread. -/
def ctlBody (t : ℕ) : CtlTask → CtlAct (Option CtlTask)
  | .terminal => terminalRound t
  | .task l => Option.map .task <$> (taskBody l).handle (inSteps t)

/-- The thread has changed an interface, and has not come to the derivation of its routes since. -/
def Control.changing : ∀ ⦃β : Type⦄, CtlCmd β → Bool → Bool
  | _, .own (.setIp _ _), _ => true
  | _, .own (.setNetmask _ _), _ => true
  | _, .own (.deriveLock _), _ => false
  | _, _, b => b

/-- The management side.  A thread's ghost value is whether it is `changing` an interface. -/
def control : Program.System CtlCmd Around Control Bool ℕ CtlTask where
  exec := execCtl
  hold _ c _ _ b := Control.changing c b
  body := ctlBody
  admin _ _ := False

/-- A step that needs the lock of the routes waits for a derivation to end. -/
def Control.free : ∀ ⦃β : Type⦄, ℕ → CtlCmd β → Around → Control → Prop
  | _, _, .of (.routeAdd _ _ _ _), _, s => s.deriver = none
  | _, _, .of .routeClearStatic, _, s => s.deriver = none
  | _, _, .own (.routeDel _), _, s => s.deriver = none
  | _, _, .own (.deriveLock _), _, s => s.deriver = none
  | _, _, _, _, _ => True

end LinuxRouter
