import LinuxRouter.Model.Arguments
import LinuxRouter.Model.Config
import LinuxRouter.Model.Show
import LinuxRouter.Model.Terminal

/-!
# Model — Console

`terminal.c` whole: the table of commands, each with what it returns, what it does to `out`, and the
router after it, `cmd_dispatch`, and the loop of the local terminal.  `Terminal` has some of the
commands on the tables that they change.

`stack` is what a `char line[256]` of `config_serialize` holds before it is written.

A command's answer has the value it returns, the writer that it applies to `out`, and the router
afterwards.  What comes from outside, a clock, the result of a system call, the undefined
`__builtin_clz(0)`, is an `Outside`, and the terminal has one for every line.
-/

namespace LinuxRouter

open Text (lit fmtInt atoi nul cstr)
open Program.Prog (scan)

/-! ### The tables -/

namespace Tables

/-- `fw_add`. -/
def fwAdd (r : FwRule) (t : Tables) : Bool × Tables :=
  ((t.rules.add r).1, { t with rules := (t.rules.add r).2 })

/-- `fw_clear` and `route_clear_static`. -/
def clear (t : Tables) : Tables where
  rules := t.rules.clear
  routes := t.routes.clearStatic
  le := t.routes.call_le t.le .clearStatic

/-- `route_add`. -/
def routeAdd (dest mask gw : Ip) (ifindex : CInt) (t : Tables) : CInt × Tables where
  fst := (t.routes.add dest mask gw ifindex).1
  snd := { t with
    routes := (t.routes.add dest mask gw ifindex).2
    le := t.routes.call_le t.le (.add dest mask gw ifindex) }

/-- `route_derive_connected`. -/
def deriveConnected (ifs : Ifaces) (t : Tables) : Tables :=
  { t with
    routes := t.routes.deriveConnected ifs
    le := t.routes.call_le t.le (.derive ifs) }

end Tables

/-! ### The router -/

/-- What the commands read and change. -/
structure Console where
  settings : Settings
  ifaces : Ifaces
  up : ℕ → Bool
  tables : Tables
  arp : ArpSlot → ArpEntry
  pend : PendTable
  pool : Pool
  tasks : TaskQueue
  nthreads : CInt
  executed : ℕ
  stats : Stats

/-- What a command gets from the system: whether an address is taken (`ok`) and the flags of an
interface are given (`flags`), the clock, whether the files of a save can be written (`saved`), what
`malloc` returns (`heap`), and `router.conf`, if it can be opened.  `junk` is in the cells of
`args` that `cmd_addfw` does not set. -/
structure Outside where
  clz0 : CInt
  ok : Bool
  flags : Bool
  now : ℕ
  saved : Bool
  heap : ℕ → Byte
  conf : Option (List Byte)
  junk : ℕ → List Byte

/-- What a command leaves. -/
structure Answer where
  rc : CInt
  write : Writer
  console : Console

namespace Console

variable (e : Outside) (stack : ℕ → Byte) (size : ℕ)

/-- An answer that is one `snprintf`. -/
def answer (rc : CInt) (text : List Byte) (s : Console) : Answer where
  rc := rc
  write := say size text
  console := s

/-- An answer that leaves the router as it is. -/
def shows (w : Writer) (s : Console) : Answer where
  rc := 0
  write := w
  console := s

/-- What `config_serialize` reads. -/
def source (s : Console) : ConfSource where
  cfg := s.settings.cfg
  rules := Rows.rows s.tables.rules.rule s.tables.rules.n
  routes := Rows.rows s.tables.routes.route s.tables.routes.n
  ifaces := s.ifaces
  clz0 := e.clz0
  stack := stack
  rules_le := by simpa using s.tables.rules.le
  routes_le := by simpa using s.tables.le

/-- `route_derive_connected`. -/
def derive (s : Console) : Console := { s with tables := s.tables.deriveConnected s.ifaces }

/-- A line of `config_load`, with its section. -/
def loadLine (s : Console) (x : List Byte × List Byte) : Console :=
  if x.1 = lit "router" then { s with settings := parseRouterKey x.2 s.settings }
  else if x.1 = lit "filter" then
    match parseFilterLine x.2 with
    | some r => { s with tables := (s.tables.fwAdd r).2 }
    | none => s
  else if x.1 = lit "firewall" then
    match parseFirewallLine x.2 with
    | some r => { s with tables := (s.tables.fwAdd r).2 }
    | none => s
  else if x.1 = lit "route" then
    match parseRouteLine s.ifaces x.2 with
    | some (dest, mask, gw, ifindex) =>
        { s with tables := (s.tables.routeAdd dest mask gw ifindex).2 }
    | none => s
  else s

/-- `config_load`, which returns 0 also without a file. -/
def load (s : Console) : Console :=
  let s := { s with settings := configDefault s.settings, tables := s.tables.clear }
  match e.conf with
  | none => s
  | some file => (confLines [] (Text.fgetsAll 512 file)).foldl loadLine s

/-- `config_save`, and whether it returned 0. -/
def saves (s : Console) : Bool := (configSave e.heap (s.source e stack)).isSome && e.saved

end Console

/-! ### The commands -/

/-- The functions of the table. -/
inductive CmdFn where
  | help | setip | delip | showip | addfw | delfw | showfw | addroute | delroute | showroute | showif
  | showarp | showthread | showpool | showpend | showstat | showcfg | save | reload | exit
  deriving DecidableEq

/-- `cmd_entry_t`. -/
structure CmdEntry where
  name : String
  fn : CmdFn
  help : String

/-- `g_cmd_table`. -/
def cmdTable : List CmdEntry :=
  [⟨"help", .help, "列出全部命令"⟩,
    ⟨"setip", .setip, "setip <ifname> <ip[/mask]>  设置接口 IP"⟩,
    ⟨"delip", .delip, "delip <ifname>  删除接口 IP"⟩,
    ⟨"showip", .showip, "显示接口 IP"⟩,
    ⟨"addfw", .addfw, "addfw deny|allow ip <sip[/len]> [dip[/len]] proto tcp|udp|icmp|any [sport N] [dport N] [keyword <str>]"⟩,
    ⟨"delfw", .delfw, "delfw <index>  删除防火墙规则"⟩,
    ⟨"showfw", .showfw, "显示防火墙规则"⟩,
    ⟨"addroute", .addroute, "addroute <dest/mask> [via <gw>] dev <ifname>"⟩,
    ⟨"delroute", .delroute, "delroute <index>  删除静态路由"⟩,
    ⟨"showroute", .showroute, "显示路由表"⟩,
    ⟨"showif", .showif, "显示接口详细信息"⟩,
    ⟨"showarp", .showarp, "显示 ARP 缓存"⟩,
    ⟨"showthread", .showthread, "显示线程池状态"⟩,
    ⟨"showpool", .showpool, "显示内存池状态"⟩,
    ⟨"showpend", .showpend, "显示 pending 队列"⟩,
    ⟨"showstat", .showstat, "显示收发统计"⟩,
    ⟨"showcfg", .showcfg, "显示当前配置"⟩,
    ⟨"save", .save, "保存配置到 router.conf"⟩,
    ⟨"reload", .reload, "重新加载 router.conf"⟩,
    ⟨"exit", .exit, "退出（本地=停机，远程=关连接）"⟩]

namespace Console

variable (e : Outside) (stack : ℕ → Byte) (size : ℕ)

/-- `cmd_help`. -/
def cmdHelp (s : Console) : Answer :=
  s.shows (showRows size (cmdTable.map fun c =>
    lit "  " ++ Printf.padRight 8 (lit c.name) ++ lit "  " ++ lit c.help ++ lit "\n"))

/-- `cmd_exit`. -/
def cmdExit (s : Console) : Answer := s.answer size 1 (lit "bye\n")

/-- `cmd_setip`. -/
def cmdSetip (args : List (List Byte)) (s : Console) : Answer :=
  match args with
  | [name, addr] =>
      match parseCidr addr with
      | none => s.answer size (-1) (lit "usage: setip <ifname> <ip[/mask]>\n")
      | some (ip, mask) =>
          let r := ifaceAddAddr e.ok name ip mask s.ifaces
          if r.1 then
            let up := match s.ifaces.findIdx? fun it => it.name.1 == name with
              | some i => if e.flags then Function.update s.up i true else s.up
              | none => s.up
            { s with ifaces := r.2, up := up }.derive.answer size 0
              (lit "setip " ++ name ++ lit " " ++ ipToStr ip ++ lit "/" ++
                fmtInt (prefixLen e.clz0 mask).toInt ++ lit " ok\n")
          else s.answer size (-1)
            (lit "setip " ++ name ++ lit " failed (unknown iface or in use)\n")
  | _ => s.answer size (-1) (lit "usage: setip <ifname> <ip[/mask]>\n")

/-- `cmd_delip`. -/
def cmdDelip (args : List (List Byte)) (s : Console) : Answer :=
  match args with
  | [name] =>
      let r := ifaceDelAddr e.ok name s.ifaces
      if r.1 then
        { s with ifaces := r.2 }.derive.answer size 0 (lit "delip " ++ name ++ lit " ok\n")
      else s.answer size (-1) (lit "delip " ++ name ++ lit " failed\n")
  | _ => s.answer size (-1) (lit "usage: delip <ifname>\n")

/-- A row of `cmd_showip`. -/
def ipRow (name ip mask : List Byte) : List Byte :=
  Printf.padRight 8 name ++ lit "  " ++ Printf.padRight 15 ip ++ lit "  " ++ Printf.padRight 15 mask ++
    lit "\n"

/-- `cmd_showip`: a heading, and the interfaces with an address behind it. -/
def cmdShowip (s : Console) : Answer :=
  s.shows fun out =>
    (s.ifaces.filter (·.ip != 0)).foldl
      (fun mem it => Printf.append size mem (ipRow it.name.1 (ipToStr it.ip) (ipToStr it.netmask)))
      (say size (ipRow (lit "iface") (lit "IP") (lit "mask")) out)

/-- `usage: %s`, with the help of the command's entry. -/
def usage (i : Fin cmdTable.length) : List Byte := lit "usage: " ++ lit (cmdTable.get i).help ++ lit "\n"

/-- `cmd_addfw`. -/
def cmdAddfw (args : List (List Byte)) (s : Console) : Answer :=
  if args = [] then s.answer size (-1) (usage ⟨4, by decide⟩)
  else
    match ((lookRule args.length).scan fun j => (addfwArg (lit "addfw" :: args) j).getD (e.junk j)).1 with
    | none => s.answer size (-1) (lit "bad rule arguments\n")
    | some r =>
        let x := s.tables.fwAdd r
        if x.1 then
          { s with tables := x.2 }.answer size 0
            (lit "rule " ++ fmtD (x.2.rules.n - 1) ++ lit " added\n")
        else s.answer size (-1) (lit "rule table full\n")

/-- `cmd_delfw`. -/
def cmdDelfw (args : List (List Byte)) (s : Console) : Answer :=
  let r := s.tables.cmdDelfw args
  { s with tables := r.2 }.answer size r.1.1 r.1.2

/-- The options of `cmd_addroute`, from `ifindex` and `gw` so far; a text is what is printed when one
of them is refused. -/
def routeOpts (ifs : Ifaces) : List (List Byte) → Ip × CInt → Except (List Byte) (Ip × CInt)
  | tok :: arg :: args, o =>
      if tok = lit "via" then
        match strToIp arg with
        | none => .error (lit "bad gw " ++ arg ++ lit "\n")
        | some gw => routeOpts ifs (arg :: args) (gw, o.2)
      else if tok = lit "dev" then
        match ifaceByName ifs arg with
        | none => .error (lit "unknown iface " ++ arg ++ lit "\n")
        | some it => routeOpts ifs (arg :: args) (o.1, it.ifindex)
      else routeOpts ifs (arg :: args) o
  | _, o => .ok o

/-- `cmd_addroute`. -/
def cmdAddroute (args : List (List Byte)) (s : Console) : Answer :=
  match args with
  | tok :: arg :: args =>
      match parseCidr tok with
      | none => s.answer size (-1) (usage ⟨7, by decide⟩)
      | some (dest, mask) =>
          match routeOpts s.ifaces (arg :: args) (0, -1) with
          | .error text => s.answer size (-1) text
          | .ok (gw, ifindex) =>
              if ifindex < 0 then s.answer size (-1) (lit "missing dev <ifname>\n")
              else
                let x := s.tables.routeAdd dest mask gw ifindex
                if x.1 = 0 then { s with tables := x.2 }.answer size 0 (lit "route ok\n")
                else s.answer size (-1) (lit "route table full\n")
  | _ => s.answer size (-1) (usage ⟨7, by decide⟩)

/-- `cmd_delroute`. -/
def cmdDelroute (args : List (List Byte)) (s : Console) : Answer :=
  let r := s.tables.cmdDelroute args
  { s with tables := r.2 }.answer size r.1.1 r.1.2

/-- `cmd_showcfg`. -/
def cmdShowcfg (s : Console) : Answer :=
  s.shows fun out => (configSerialize size out (s.source e stack)).2.mem

/-- `cmd_save`. -/
def cmdSave (s : Console) : Answer :=
  if s.saves e stack then s.answer size 0 (lit "saved to router.conf\n")
  else s.answer size (-1) (lit "save failed\n")

/-- `cmd_reload`. -/
def cmdReload (s : Console) : Answer :=
  let s := (s.load e).derive
  let cfg := s.settings.cfg
  s.answer size 0 (lit "reloaded (threads=" ++ fmtInt cfg.threads.toInt ++ lit " tcp=" ++
    fmtInt cfg.tcpPort.toInt ++ lit " udp=" ++ fmtInt cfg.udpPort.toInt ++
    lit " take effect after restart)\n")

/-- A call through the table, with the words after the command's name. -/
def call (args : List (List Byte)) (s : Console) : CmdFn → Answer
  | .help => s.cmdHelp size
  | .setip => s.cmdSetip e size args
  | .delip => s.cmdDelip e size args
  | .showip => s.cmdShowip size
  | .addfw => s.cmdAddfw e size args
  | .delfw => s.cmdDelfw size args
  | .showfw => s.shows (fwShow size (Rows.rows s.tables.rules.rule s.tables.rules.n))
  | .addroute => s.cmdAddroute size args
  | .delroute => s.cmdDelroute size args
  | .showroute => s.shows (routeShow e.clz0 size (Rows.rows s.tables.routes.route s.tables.routes.n))
  | .showif => s.shows (ifaceShow e.clz0 size s.up s.ifaces)
  | .showarp => s.shows (arpShow e.now size s.arp)
  | .showthread => s.shows (tpoolShow size s.nthreads s.executed s.tasks)
  | .showpool => s.shows (mpShow size s.pool)
  | .showpend => s.shows (pendShow size s.pend)
  | .showstat => s.shows (say size (statText s.stats))
  | .showcfg => s.cmdShowcfg e stack size
  | .save => s.cmdSave e stack size
  | .reload => s.cmdReload e size
  | .exit => s.cmdExit size

/-- `cmd_dispatch`. -/
def cmdDispatch (line : List Byte) (s : Console) : Answer :=
  match dispatchWords line with
  | [] => s.answer size 0 (lit "\n")
  | name :: args =>
      match cmdTable.find? fun c => lit c.name == name with
      | some c => s.call e stack size args c.fn
      | none => s.answer size (-1)
          (lit "unknown command '" ++ name ++ lit "' (try 'help')\n")

/-- What a router has before `iface_init`. -/
def start : Console where
  settings := .fresh
  ifaces := []
  up := fun _ => false
  tables :=
    { rules := { rule := fun _ => .blank fwDrop, n := 0, le := Nat.zero_le _ }
      routes := { route := fun _ => ⟨0, 0, 0, 0, false⟩, n := 0 }
      le := Nat.zero_le _ }
  arp := arpInit.entry
  pend := .init
  pool := .init
  tasks := .init
  nthreads := 0
  executed := 0
  stats := fun _ => 0

end Console

/-- Everything succeeds, without a `router.conf`. -/
def Outside.plain : Outside where
  clz0 := 32
  ok := true
  flags := true
  now := 0
  saved := true
  heap := fun _ => nul
  conf := none
  junk := fun _ => []

/-! ### The local terminal -/

/-- A round of `terminal_loop`: what the other threads did to the router since the last one, and the
line that is read. -/
structure Turn where
  others : Console → Console
  outside : Outside
  stack : ℕ → Byte
  line : List Byte

/-- `line[strcspn(line, "\r\n")] = 0`. -/
def Turn.command (x : Turn) : List Byte :=
  (cstr x.line).takeWhile fun c => c != Text.cr && c != Text.nl

/-- `terminal_loop`, and what it prints: `out` is not cleared between two commands. -/
def terminalLoop : List Turn → Console → (ℕ → Byte) → List (List Byte)
  | [], _, _ => []
  | x :: xs, s, out =>
      let s := x.others s
      if x.command = [] then terminalLoop xs s out
      else
        let a := s.cmdDispatch x.outside x.stack 1024 x.command
        let out := a.write out
        Printf.stringIn 1024 out :: if a.rc = 1 then [] else terminalLoop xs a.console out

end LinuxRouter
