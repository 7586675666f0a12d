import LinuxRouter.Support.Printf
import LinuxRouter.Model.Firewall
import LinuxRouter.Model.Route
import LinuxRouter.Model.ArpTable

/-!
# Model — Config

`config.c`: the router's settings, the text that `save` and `getconf` share, and the loader's way
from a file to its lines and from a line to what it asks for.

`configLoad` is the loader's effect on the settings alone, which only the lines of `[router]` touch.
The whole of it, step by step, is `configLoadSteps` in `Manage`.

`config_serialize` is a list of pieces, one for each `snprintf`, and a line of a file is read in
three stages, trimmed, put into its section and parsed, each a function of its own.  What the loader
asks for is the answer of a pure function, and whether it gets it is up to the tables.
-/

namespace LinuxRouter

open Text (lit fmtInt cstr nl cr tab blank atoi)

def logErr : CInt := 0
def logInfo : CInt := 2
def logDebug : CInt := 3

/-- `router_cfg_t`. -/
structure RouterCfg where
  hostname : Text.CStr 32
  password : Text.CStr 64
  threads : CInt
  tcpPort : CInt
  udpPort : CInt
  arpTimeout : CInt
  arpProxy : CInt
  logLevel : CInt
  deriving DecidableEq

/-- `g_cfg`, with the two settings that other modules keep a copy of: `g_timeout` of the ARP table
and `g_level` of the log. -/
structure Settings where
  cfg : RouterCfg
  timeout : CInt
  level : CInt

/-! ### Serialising -/

/-- What `config_serialize` reads.  `stack` is what its `char line[256]` holds before it is
written. -/
structure ConfSource where
  cfg : RouterCfg
  rules : List FwRule
  routes : List Route
  ifaces : Ifaces
  clz0 : CInt
  stack : ℕ → Byte
  rules_le : rules.length ≤ maxRule
  routes_le : routes.length ≤ maxRoute

/-- `cidr_to_str`, into a `char[24]`. -/
def cidrToStr (clz0 : CInt) (ip mask : Ip) : List Byte :=
  (Text.CStr.store 24 (if mask = 0xFFFFFFFF#32 then ipToStr ip
    else ipToStr ip ++ lit "/" ++ fmtInt (prefixLen clz0 mask).toInt)).1

/-- The texts of `fw_rule_to_line`, one for each call of `snprintf`. -/
def fwRulePieces (clz0 : CInt) (r : FwRule) : List (List Byte) :=
  [if r.action = fwDrop then lit "drop" else lit "allow"] ++
  (if r.sipMask ≠ 0 ∨ r.dipMask ≠ 0 then
    [lit " ip ", if r.sipMask ≠ 0 then cidrToStr clz0 r.sip r.sipMask else lit "any"] ++
      if r.dipMask ≠ 0 then [lit " " ++ cidrToStr clz0 r.dip r.dipMask] else []
    else []) ++
  (if r.proto ≠ protoAny then
    [lit " proto " ++ if r.proto = protoTcp then lit "tcp" else if r.proto = protoUdp then lit "udp"
      else lit "icmp"]
    else []) ++
  (if 0 ≤ r.sport then [lit " sport " ++ fmtInt r.sport.toInt] else []) ++
  (if 0 ≤ r.dport then [lit " dport " ++ fmtInt r.dport.toInt] else []) ++
  if r.keyword.1 ≠ [] then [lit " keyword \"" ++ r.keyword.1 ++ lit "\""] else []

/-- `fw_rule_to_line`: the string it leaves in a `char[256]`. -/
def fwRuleToLine (clz0 : CInt) (stack : ℕ → Byte) (r : FwRule) : List Byte :=
  (Printf.putAll 256 (fwRulePieces clz0 r) (Printf.start stack)).string 256

/-- The text of a static route, but for its newline. -/
def routeText (clz0 : CInt) (ifs : Ifaces) (r : Route) : List Byte :=
  let devname := match ifaceByIndex ifs r.ifindex with
    | some it => it.name.1
    | none => lit "?"
  let dest := ipToStr r.dest ++ lit "/" ++ fmtInt (prefixLen clz0 r.mask).toInt
  (if r.gw ≠ 0 then dest ++ lit " via " ++ ipToStr r.gw else dest) ++ lit " dev " ++ devname

/-- The texts of the `[router]` section. -/
def routerPieces (cfg : RouterCfg) : List (List Byte) :=
  [lit "[router]\n",
    lit "hostname=" ++ cfg.hostname.1 ++ [nl],
    lit "threads=" ++ fmtInt cfg.threads.toInt ++ [nl],
    lit "tcp_port=" ++ fmtInt cfg.tcpPort.toInt ++ [nl],
    lit "udp_port=" ++ fmtInt cfg.udpPort.toInt ++ [nl],
    lit "arp_timeout=" ++ fmtInt cfg.arpTimeout.toInt ++ [nl],
    lit "arp_proxy=" ++ fmtInt cfg.arpProxy.toInt ++ [nl],
    lit "log_level=" ++ fmtInt cfg.logLevel.toInt ++ [nl]]

/-- The texts of `config_serialize`, one for each call of `snprintf`. -/
def confPieces (c : ConfSource) : List (List Byte) :=
  routerPieces c.cfg ++
  [lit "\n[filter]\n# 旧格式兼容段：drop ip X\n", lit "\n[firewall]\n"] ++
  c.rules.map (fun r => fwRuleToLine c.clz0 c.stack r ++ [nl]) ++
  [lit "\n[route]\n"] ++
  -- connected routes are not saved
  (c.routes.filter (·.isStatic)).map (fun r => routeText c.clz0 c.ifaces r ++ [nl])

/-- `config_serialize(buf, size)`. -/
def configSerialize (size : ℕ) (buf : ℕ → Byte) (c : ConfSource) : CInt × Printf.Out :=
  let o := Printf.putAll size (confPieces c) (Printf.start buf)
  (if o.off < size then Int32.ofNat o.off else -1, o)

/-- `config_save`, where every file operation succeeds: the new `router.conf`.  `buf` is what
`malloc` returns. -/
def configSave (buf : ℕ → Byte) (c : ConfSource) : Option (List Byte) :=
  let r := configSerialize 16384 buf c
  if r.1 < 0 then none else some (r.2.bytes r.1.toInt.toNat)

/-! ### Loading -/

/-- What `config_default` stores.  No password is no authentication. -/
def cfgDefault : RouterCfg where
  hostname := Text.CStr.store 32 (lit "router")
  password := Text.CStr.store 64 []
  threads := Int32.ofNat poolThreads
  tcpPort := tcpPort
  udpPort := udpPort
  arpTimeout := arpTmo
  arpProxy := 0
  logLevel := logInfo

/-- The settings and the copies that a router starts with. -/
def Settings.fresh : Settings where
  cfg := cfgDefault
  timeout := arpTmo
  level := logInfo

/-- `config_default`. -/
def configDefault (s : Settings) : Settings := { s with cfg := cfgDefault }

/-- `log_set_level`. -/
def logSetLevel (level : CInt) (s : Settings) : Settings :=
  if logErr ≤ level ∧ level ≤ logDebug then { s with level := level } else s

/-- `arp_set_timeout`, on the copy of the timeout. -/
def Settings.setTimeout (sec : CInt) (s : Settings) : Settings :=
  if 10 ≤ sec then { s with timeout := sec } else s

/-- A blank to the parsers of `config.c`. -/
def isGap (c : Byte) : Bool := c == blank || c == tab

/-- The assignment of `parse_router_key`; `none` is an unknown key. -/
def RouterCfg.assign (cfg : RouterCfg) (key val : List Byte) : Option RouterCfg :=
  if key = lit "hostname" then some { cfg with hostname := Text.CStr.store 32 val }
  else if key = lit "threads" then some { cfg with threads := atoi val }
  else if key = lit "tcp_port" then some { cfg with tcpPort := atoi val }
  else if key = lit "udp_port" then some { cfg with udpPort := atoi val }
  else if key = lit "password" then some { cfg with password := Text.CStr.store 64 val }
  else if key = lit "arp_timeout" then some { cfg with arpTimeout := atoi val }
  else if key = lit "arp_proxy" then some { cfg with arpProxy := atoi val }
  else if key = lit "log_level" then some { cfg with logLevel := atoi val }
  else none

/-- The key and the value of `parse_router_key`, if the line has a `=`. -/
def routerKey (p : List Byte) : Option (List Byte × List Byte) :=
  match p.dropWhile (· != 61#8) with
  | [] => none
  | _ :: v =>
      let key := (Text.CStr.store 40 (p.takeWhile (· != 61#8))).1
      let key := ((key.dropWhile isGap).reverse.dropWhile isGap).reverse
      some (key, (Text.CStr.store 128 v).1)

/-- `parse_router_key`. -/
def parseRouterKey (p : List Byte) (s : Settings) : Settings :=
  match routerKey p with
  | none => s
  | some (key, val) =>
      match s.cfg.assign key val with
      | none => s
      | some cfg =>
          let s := { s with cfg := cfg }
          let s := if key = lit "arp_timeout" then s.setTimeout cfg.arpTimeout else s
          if key = lit "log_level" then logSetLevel cfg.logLevel s else s

/-- The last byte dropped, if it is `c`. -/
def dropEnd (c : Byte) (s : List Byte) : List Byte := if s.getLast? = some c then s.dropLast else s

/-- What `config_load` makes of a line of `fgets`. -/
def trimLine (line : List Byte) : List Byte := (dropEnd cr (dropEnd nl (cstr line))).dropWhile isGap

/-- The lines of a file that are handed to a parser, each with its section.  `sec` is the section
so far. -/
def confLines : List Byte → List (List Byte) → List (List Byte × List Byte)
  | _, [] => []
  | sec, line :: lines =>
      match trimLine line with
      | [] => confLines sec lines
      | c :: p =>
          if c = 35#8 then confLines sec lines
          else if c = 91#8 then confLines ((p.takeWhile (· != 93#8)).take 15) lines
          else (sec, c :: p) :: confLines sec lines

/-- `parse_filter_line`: the rule of an old `drop ip X`. -/
def parseFilterLine (p : List Byte) : Option FwRule :=
  (Text.strstr (lit "ip ") p).bind fun a =>
    (parseCidr (a.drop 3)).map fun x =>
      { FwRule.blank fwDrop with sip := x.1 &&& x.2, sipMask := x.2 }

/-- The words of a line of `[firewall]` or `[route]`. -/
def lineWords (p : List Byte) : List (List Byte) :=
  let p := p.dropWhile isGap
  tokSplit (if p.head? = some 47#8 then p.tail else p) 16

/-- `parse_firewall_line`: the rule, if the line is one. -/
def parseFirewallLine (p : List Byte) : Option FwRule := fwParseRule (lineWords p)

/-- `parse_route_line`: the route, if the line is one. -/
def parseRouteLine (ifs : Ifaces) (p : List Byte) : Option (Ip × Ip × Ip × CInt) :=
  parseRoute ifs (lineWords p)

/-- The lines that `config_load` hands to `parse_router_key`. -/
def routerLines (file : List Byte) : List (List Byte) :=
  (confLines [] (Text.fgetsAll 512 file)).filterMap fun x =>
    if x.1 = lit "router" then some x.2 else none

/-- `config_load` of a file that is there, on the settings. -/
def configLoad (file : List Byte) (s : Settings) : Settings :=
  (routerLines file).foldl (fun s p => parseRouterKey p s) (configDefault s)

end LinuxRouter
