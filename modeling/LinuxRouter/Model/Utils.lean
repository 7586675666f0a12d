import LinuxRouter.Model.Interface

/-!
# Model — Utils

`utils.c`: prefixes, the classes of an address, the search for a byte string, the text form of an
address and its parser, and the words of a line.

`__builtin_clz(0)` is undefined; what it gives is a parameter, `clz0`.

The readers of numbers are those of the C library, in `Support/Text`: they skip blanks, take a sign
and stop at the first byte that is no digit, and `%u` wraps.

A prefix length becomes a mask with the bounds of the source, and a mask a length by counting the
leading zeros of its complement, which is the one place where the undefined value can come out.  The
words of a line are those between blanks, tabs and ends of line; how they are cut out of the buffer
in place is in `Tokens`, and what can go wrong there with it.
-/

namespace LinuxRouter

/-- `__builtin_clz` of a non-zero word. -/
def clz (x : Ip) : ℕ := 31 - Nat.log2 x.toNat

/-- `mask_from_prefix`. -/
def maskFromPrefix (len : CInt) : Ip :=
  if len ≤ 0 then 0
  else if 32 ≤ len then 0xFFFFFFFF#32
  else 0xFFFFFFFF#32 <<< (32 - len.toInt).toNat

/-- `prefix_len`. -/
def prefixLen (clz0 : CInt) (mask : Ip) : CInt :=
  if mask = 0 then 0
  else if ~~~mask = 0 then clz0
  else Int32.ofNat (clz (~~~mask))

/-- `is_multicast`. -/
def isMulticast (ip : Ip) : Bool := ip >>> 28 == 0xE#32

/-- `is_broadcast`: everyone's, or that of the subnet of an interface. -/
def isBroadcast (ifs : Ifaces) (ip : Ip) : Bool :=
  ip == 0xFFFFFFFF#32 ||
    ifs.any fun it => it.covers ip && ip &&& ~~~it.netmask == ~~~it.netmask

/-- The outer loop of `find_bytes`, from position `i` on. -/
def findFrom (needle : List Byte) : List Byte → ℕ → Option ℕ
  | [], i => if needle = [] then some i else none
  | c :: hay, i => if needle.isPrefixOf (c :: hay) then some i else findFrom needle hay (i + 1)

/-- `find_bytes`; `-1` is `none`. -/
def findBytes (hay needle : List Byte) : Option ℕ :=
  if needle = [] then some 0
  else if hay.length < needle.length then none
  else findFrom needle hay 0

/-- `ip_to_str`. -/
def ipToStr (ip : Ip) : List Byte :=
  let octet (n : ℕ) := Text.fmtNat ((ip >>> n) &&& 0xff#32).toNat
  octet 24 ++ 46#8 :: octet 16 ++ 46#8 :: octet 8 ++ 46#8 :: octet 0

/-- `%u` of `sscanf` and the byte `c` after it. -/
def scanOctet (c : Byte) (s : List Byte) : Option (ℕ × List Byte) :=
  match Text.scanU s with
  | some (a, d :: s) => if d = c then some (a, s) else none
  | _ => none

/-- `str_to_ip`: four numbers, and nothing after them. -/
def strToIp (s : List Byte) : Option Ip := do
  let (a, s) ← scanOctet 46#8 s
  let (b, s) ← scanOctet 46#8 s
  let (c, s) ← scanOctet 46#8 s
  let (d, s) ← Text.scanU s
  if s = [] ∧ a ≤ 255 ∧ b ≤ 255 ∧ c ≤ 255 ∧ d ≤ 255 then
    some (BitVec.ofNat 32 a <<< 24 ||| BitVec.ofNat 32 b <<< 16 ||| BitVec.ofNat 32 c <<< 8 |||
      BitVec.ofNat 32 d)
  else none

/-- `parse_cidr`: the address and the mask. -/
def parseCidr (s : List Byte) : Option (Ip × Ip) :=
  let buf := (Text.CStr.store 64 s).1
  let host := buf.takeWhile (· != 47#8)
  match buf.dropWhile (· != 47#8) with
  | [] => (strToIp host).map fun ip => (ip, maskFromPrefix 32)
  | _ :: len => do
      let (len, _) ← Text.scanD len
      if len < 0 ∨ 32 < len then none
      else (strToIp host).map fun ip => (ip, maskFromPrefix len)

/-- `tok_split`. -/
def tokSplit (s : List Byte) (max : ℕ) : List (List Byte) := Text.splitWords max s

end LinuxRouter
