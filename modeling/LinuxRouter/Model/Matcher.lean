import LinuxRouter.Support.Fetch
import LinuxRouter.Model.Firewall

/-!
# Model — Matcher

`rule_match` and `find_bytes`, byte by byte: programs that read the frame in the order of the source.
`Firewall` has what they return.

A test that the source makes before it reads, of a length or of another byte, is made here before
the read is asked for; an `&&` that stops early asks for nothing more.

The level below `Firewall`: there a byte that is not in the frame reads as zero, so that reading too
far could go unnoticed, while here every read leaves its index behind.  `Firewall.Inside` shows both
that the programs return what the functions of `Firewall` do and that no index reaches the length of
the frame. The search for a keyword is the naive one of the source, place by place.
-/

namespace LinuxRouter

open Program (Prog Fetch)
open Program.Prog (fetch)

/-- A program that reads a frame. -/
abbrev Look (α : Type) := Prog (Fetch ℕ Byte) α

/-- `get_be16`. -/
def lookBe16 (i : ℕ) : Look (BitVec 16) := do
  let a ← fetch i
  let b ← fetch (i + 1)
  pure (a.setWidth 16 <<< 8 ||| b.setWidth 16)

/-- `get_be32`. -/
def lookBe32 (i : ℕ) : Look Ip := do
  let a ← fetch i
  let b ← fetch (i + 1)
  let c ← fetch (i + 2)
  let d ← fetch (i + 3)
  pure (a.setWidth 32 <<< 24 ||| b.setWidth 32 <<< 16 ||| c.setWidth 32 <<< 8 ||| d.setWidth 32)

/-- The inner loop of `find_bytes`, at the position `i` of the frame. -/
def lookSame : List Byte → ℕ → Look Bool
  | [], _ => pure true
  | c :: needle, i => do
    let b ← fetch i
    if b ≠ c then pure false else lookSame needle (i + 1)

/-- The outer loop of `find_bytes`, at most `n` positions from `i` on. -/
def lookFrom (needle : List Byte) : ℕ → ℕ → Look Bool
  | 0, _ => pure false
  | n + 1, i => do
    let same ← lookSame needle i
    if same then pure true else lookFrom needle n (i + 1)

/-- `find_bytes` in the `hlen` bytes at `off`, and whether it returned a position. -/
def lookBytes (needle : List Byte) (off hlen : ℕ) : Look Bool :=
  if needle = [] then pure true
  else if hlen < needle.length then pure false
  else lookFrom needle (hlen - needle.length + 1) off

/-- The addresses: both are read before they are tested. -/
def lookAddr (r : FwRule) : Look Bool := do
  let sip ← lookBe32 26
  let dip ← lookBe32 30
  pure ((r.sipMask == 0 || sip &&& r.sipMask == r.sip) && (r.dipMask == 0 || dip &&& r.dipMask == r.dip))

def lookProto (r : FwRule) : Look Bool :=
  if r.proto < 0 then pure true
  else do
    let p ← fetch 23
    pure (p == BitVec.ofInt 8 r.proto.toInt)

/-- `is_tcpudp`. -/
def lookTcpUdp : Look Bool := do
  let p ← fetch 23
  if p = 6#8 then pure true
  else do
    let p ← fetch 23
    pure (p == 17#8)

/-- One port of a rule. -/
def lookPort (port : CInt) (i : ℕ) : Look Bool :=
  if port < 0 then pure true
  else do
    let p ← lookBe16 i
    pure ((p.toNat : ℤ) == port.toInt)

/-- The ports of a rule. -/
def lookPorts (r : FwRule) (len l4off : ℕ) (tcpUdp : Bool) : Look Bool :=
  if r.sport < 0 && r.dport < 0 then pure true
  else if !tcpUdp then pure false
  else if len < l4off + 4 then pure false
  else do
    let s ← lookPort r.sport l4off
    if !s then pure false else lookPort r.dport (l4off + 2)

/-- The payload at `poff`. -/
def lookPayload (r : FwRule) (len poff : ℕ) : Look Bool :=
  if len < poff then pure false else lookBytes r.keyword.1 poff (len - poff)

/-- The keyword of a rule. -/
def lookKeyword (r : FwRule) (len l4off : ℕ) (tcpUdp : Bool) : Look Bool :=
  if r.keyword.1 = [] then pure true
  else do
    let fragOff ← lookBe16 20
    if (fragOff &&& 0x1fff#16) <<< 3 ≠ 0 then pure false
    else if !tcpUdp then pure false
    else do
      let p ← fetch 23
      if p = 6#8 then
        if len < l4off + 13 then pure false
        else do
          let d ← fetch (l4off + 12)
          lookPayload r len (l4off + ((d &&& 0xf0#8) >>> 2).toNat)
      else lookPayload r len (l4off + 8)

/-- `rule_match` behind its guards. -/
def lookConditions (r : FwRule) (len l4off : ℕ) : Look Bool := do
  let addr ← lookAddr r
  if !addr then pure false
  else do
    let proto ← lookProto r
    if !proto then pure false
    else do
      let tcpUdp ← lookTcpUdp
      let ports ← lookPorts r len l4off tcpUdp
      if !ports then pure false else lookKeyword r len l4off tcpUdp

/-- `rule_match`. -/
def lookMatch (r : FwRule) (len : ℕ) : Look Bool :=
  if len < 34 then pure false
  else do
    let v ← fetch 14
    if v >>> 4 ≠ 4#8 then pure false
    else do
      let v ← fetch 14
      let ihl := (v &&& 0x0f#8).toNat * 4
      if ihl < 20 ∨ len - 14 < ihl then pure false else lookConditions r len (14 + ihl)

end LinuxRouter
