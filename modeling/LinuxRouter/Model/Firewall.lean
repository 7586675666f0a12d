import LinuxRouter.Model.Utils

/-!
# Model — Firewall

`firewall.c`: the rules, the test of a frame against them, and the parser of a rule.

`rule_match` is a conjunction of tests, one for each condition, in the order of the source; the loop
of `fw_parse_rule` goes over the list of words.  That the code does so within its arrays is the
subject of `Matcher` and `Arguments`, which read byte by byte and cell by cell.

A rule has a value for every condition that it leaves open, and each test passes on that value
first.  A byte that is not in the frame reads as zero here; that none is ever read is a theorem, not
an assumption. The parser takes the words one by one and each keyword its operand, and gives up at
the first that it does not know; what a number or an address is, is decided by the readers of
`Utils`, with all that they let pass.
-/

namespace LinuxRouter

def fwDrop : CInt := 0
def fwAllow : CInt := 1
def protoAny : CInt := -1
def protoIcmp : CInt := 1
def protoTcp : CInt := 6
def protoUdp : CInt := 17

/-- `fw_rule_t`.  Its `note` is only shown. -/
structure FwRule where
  action : CInt
  sip : Ip
  dip : Ip
  sipMask : Ip
  dipMask : Ip
  proto : CInt
  sport : CInt
  dport : CInt
  keyword : Text.CStr 64

/-- `(int)get_be16(f + i) == port`, for a port that is not negative. -/
def portIs (f : List Byte) (i : ℕ) (port : CInt) : Bool :=
  port < 0 || ((getBe16 f i).toNat : ℤ) == port.toInt

/-- The addresses of a rule. -/
def addrMatch (r : FwRule) (f : List Byte) : Bool :=
  (r.sipMask == 0 || getBe32 f 26 &&& r.sipMask == r.sip) &&
    (r.dipMask == 0 || getBe32 f 30 &&& r.dipMask == r.dip)

def isTcpUdp (f : List Byte) : Bool := byteAt f 23 == 6#8 || byteAt f 23 == 17#8

/-- The ports of a rule: no port is read past the end of the frame. -/
def portMatch (r : FwRule) (f : List Byte) (len l4off : ℕ) : Bool :=
  if r.sport < 0 && r.dport < 0 then true
  else isTcpUdp f && l4off + 4 ≤ len && portIs f l4off r.sport && portIs f (l4off + 2) r.dport

/-- Where the payload of a TCP or UDP frame starts, if its header is there. -/
def payloadOffset (f : List Byte) (len l4off : ℕ) : Option ℕ :=
  if byteAt f 23 = 6#8 then
    if len < l4off + 13 then none
    else some (l4off + ((byteAt f (l4off + 12) &&& 0xf0#8) >>> 2).toNat)
  else some (l4off + 8)

/-- The keyword of a rule: only a first fragment is searched. -/
def keywordMatch (r : FwRule) (f : List Byte) (len l4off : ℕ) : Bool :=
  if r.keyword.1 = [] then true
  else if (getBe16 f 20 &&& 0x1fff#16) <<< 3 ≠ 0 then false
  else if !isTcpUdp f then false
  else
    match payloadOffset f len l4off with
    | none => false
    | some poff => poff ≤ len && (findBytes ((f.take len).drop poff) r.keyword.1).isSome

/-- `(f[14] & 0x0f) * 4`. -/
def headerLen (f : List Byte) : ℕ := (byteAt f 14 &&& 0x0f#8).toNat * 4

/-- `rule_match`. -/
def ruleMatch (r : FwRule) (f : List Byte) (len : ℕ) : Bool :=
  let ihl := headerLen f
  if len < 34 then false
  else if byteAt f 14 >>> 4 ≠ 4#8 then false
  else if ihl < 20 ∨ len - 14 < ihl then false
  else
    addrMatch r f &&
      (r.proto < 0 || byteAt f 23 == BitVec.ofInt 8 r.proto.toInt) &&
      portMatch r f len (14 + ihl) && keywordMatch r f len (14 + ihl)

/-- `fw_check`: the action of the first rule that matches. -/
def fwCheck (rules : List FwRule) (f : List Byte) (len : ℕ) : CInt :=
  match rules.find? fun r => ruleMatch r f len with
  | some r => r.action
  | none => fwAllow

/-! ### The table -/

/-- `fw_add`: whether it took the rule. -/
def fwAdd (r : FwRule) (rules : List FwRule) : Bool × List FwRule :=
  if maxRule ≤ rules.length then (false, rules) else (true, rules ++ [r])

/-! ### The parser -/

/-- The rule that `fw_parse_rule` starts from. -/
def FwRule.blank (action : CInt) : FwRule where
  action := action
  sip := 0
  dip := 0
  sipMask := 0
  dipMask := 0
  proto := protoAny
  sport := -1
  dport := -1
  keyword := Text.CStr.store 64 []

/-- A token that can be a destination: it has a dot or a slash, or is `any`. -/
def isAddrToken (tok : List Byte) : Bool :=
  tok.contains 46#8 || tok.contains 47#8 || tok == Text.lit "any"

/-- The source of `ip`. -/
def FwRule.setSource (tok : List Byte) (r : FwRule) : Option FwRule :=
  if tok = Text.lit "any" then some { r with sipMask := 0 }
  else (parseCidr tok).map fun x => { r with sip := x.1 &&& x.2, sipMask := x.2 }

/-- The destination of `ip`. -/
def FwRule.setDest (tok : List Byte) (r : FwRule) : Option FwRule :=
  if tok = Text.lit "any" then some { r with dipMask := 0 }
  else (parseCidr tok).map fun x => { r with dip := x.1 &&& x.2, dipMask := x.2 }

/-- The protocol of `proto`. -/
def parseProto (tok : List Byte) : Option CInt :=
  if tok = Text.lit "tcp" then some protoTcp
  else if tok = Text.lit "udp" then some protoUdp
  else if tok = Text.lit "icmp" then some protoIcmp
  else if tok = Text.lit "any" then some protoAny
  else none

/-- The port of `sport` or `dport`. -/
def parsePort (tok : List Byte) : Option CInt :=
  let port := Text.atoi tok
  if port < 0 ∨ 65535 < port then none else some port

/-- The keyword of `keyword`: a quote at its front and one at its end are stripped. -/
def parseKeyword (tok : List Byte) : Text.CStr 64 :=
  let kw := if tok.head? = some 34#8 then tok.tail else tok
  let kw := if kw.getLast? = some 34#8 then kw.dropLast else kw
  Text.CStr.store 64 kw

/-- The loop of `fw_parse_rule`. -/
def fwParseArgs : List (List Byte) → FwRule → Option FwRule
  | [], r => some r
  | [_], _ => none
  | tok :: arg :: args, r =>
      if tok = Text.lit "ip" then
        match args with
        | [] => r.setSource arg
        | arg' :: args' =>
            if isAddrToken arg' then
              (r.setSource arg).bind fun r => (r.setDest arg').bind fun r => fwParseArgs args' r
            else (r.setSource arg).bind fun r => fwParseArgs (arg' :: args') r
      else if tok = Text.lit "proto" then
        (parseProto arg).bind fun p => fwParseArgs args { r with proto := p }
      else if tok = Text.lit "sport" then
        (parsePort arg).bind fun p => fwParseArgs args { r with sport := p }
      else if tok = Text.lit "dport" then
        (parsePort arg).bind fun p => fwParseArgs args { r with dport := p }
      else if tok = Text.lit "keyword" then
        fwParseArgs args { r with keyword := parseKeyword arg }
      else none

/-- `fw_parse_rule`. -/
def fwParseRule : List (List Byte) → Option FwRule
  | [] => none
  | tok :: args =>
      if tok = Text.lit "drop" then fwParseArgs args (.blank fwDrop)
      else if tok = Text.lit "allow" then fwParseArgs args (.blank fwAllow)
      else none

end LinuxRouter
