import Mathlib.Data.Fintype.Sum
import Mathlib.Data.Fintype.Basic
import LinuxRouter.Support.Text

/-!
# Model — Router

`router.h`: capacities, addresses, big-endian fields, the frame block and the counters.

Bytes are read with a default past the end of a buffer; the readers here test a length first, as
the source does.

A block's `data` is the list of bytes that its `len` and the readers refer to.  Addresses and MACs
are bit vectors of their width; fields of more than one byte are big-endian, as they are on the
wire. The counters are numbers that only grow; in the source they are 64 bits wide and wrap, and no
code reads them but to print them.
-/

namespace LinuxRouter

export Text (Byte CInt)

/-! ### Capacities -/

def maxRule : ℕ := 128
def maxRoute : ℕ := 64
def pendMax : ℕ := 256
def taskCap : ℕ := 768
def poolThreads : ℕ := 4
def mpCount : ℕ := 1024
def arpCap : ℕ := 256
def pendChainMax : ℕ := 32
def arpTmo : CInt := 300
def arpRetryMax : ℕ := 3
def tcpPort : CInt := 8899
def udpPort : CInt := 8900
def maxUpload : ℕ := 8 * 1024 * 1024

/-- `MP_PAYLOAD`, with the 16-byte header of a 64-bit build. -/
def mpPayload : ℕ := 2048 - 16

theorem poolThreads_pos : 0 < poolThreads := by decide

/-! The sizes of the buffers that strings are stored in. -/

instance buffer16 : Fact (0 < 16) := ⟨by decide⟩
instance buffer24 : Fact (0 < 24) := ⟨by decide⟩
instance buffer32 : Fact (0 < 32) := ⟨by decide⟩
instance buffer40 : Fact (0 < 40) := ⟨by decide⟩
instance buffer64 : Fact (0 < 64) := ⟨by decide⟩
instance buffer128 : Fact (0 < 128) := ⟨by decide⟩
instance buffer256 : Fact (0 < 256) := ⟨by decide⟩
instance buffer512 : Fact (0 < 512) := ⟨by decide⟩

/-! ### Addresses and fields -/

/-- `ip_t`. -/
abbrev Ip := BitVec 32

abbrev Mac := Vector Byte 6

/-- A next hop on an interface, `(nexthop, ifidx)`. -/
abbrev Key := Ip × CInt

def byteAt (f : List Byte) (i : ℕ) : Byte := f.getD i 0

def getBe16 (f : List Byte) (i : ℕ) : BitVec 16 :=
  (byteAt f i).setWidth 16 <<< 8 ||| (byteAt f (i + 1)).setWidth 16

def getBe32 (f : List Byte) (i : ℕ) : Ip :=
  (byteAt f i).setWidth 32 <<< 24 ||| (byteAt f (i + 1)).setWidth 32 <<< 16 |||
    (byteAt f (i + 2)).setWidth 32 <<< 8 ||| (byteAt f (i + 3)).setWidth 32

/-- `memcpy(f + i, src, n)`, `n` the length of `src`. -/
def blit (f : List Byte) (i : ℕ) (src : List Byte) : List Byte :=
  f.take i ++ src ++ f.drop (i + src.length)

def putBe16 (f : List Byte) (i : ℕ) (v : BitVec 16) : List Byte :=
  blit f i [(v >>> 8).setWidth 8, v.setWidth 8]

def putBe32 (f : List Byte) (i : ℕ) (v : Ip) : List Byte :=
  blit f i [(v >>> 24).setWidth 8, (v >>> 16).setWidth 8, (v >>> 8).setWidth 8, v.setWidth 8]

/-- The six bytes at `i`. -/
def macAt (f : List Byte) (i : ℕ) : Mac := Vector.ofFn fun j => byteAt f (i + j)

def bcastMac : Mac := Vector.replicate 6 0xff#8

/-! ### Frame blocks -/

/-- A frame block: one of the arena's, or one from the `malloc` fallback. -/
inductive Block where
  | pool (i : Fin mpCount)
  | heap (a : ℕ)
  deriving DecidableEq

/-- `fwd_frame_t`.  `data` is the whole payload area, of which `len` bytes are the frame. -/
structure FwdFrame where
  next : Option Block
  len : ℕ
  outIfidx : Byte
  nexthop : Ip
  data : List Byte

/-- The memory behind the blocks. -/
abbrev Mem := Block → FwdFrame

/-- `b->next = p`. -/
def Mem.setNext (m : Mem) (b : Block) (p : Option Block) : Mem :=
  Function.update m b { m b with next := p }

/-- The `next` pointers, as a chain's. -/
def Mem.next (m : Mem) (b : Block) : Option Block := (m b).next

@[simp] theorem Mem.next_setNext (m : Mem) (b : Block) (p : Option Block) :
    (m.setNext b p).next = Function.update m.next b p := by
  funext c
  by_cases h : c = b
  · subst h
    simp [Mem.next, Mem.setNext]
  · simp [Mem.next, Mem.setNext, h]

/-! ### Counters -/

/-- The `g_` statistics.  They are `uint64_t` in the source; here they are natural numbers, since nothing
that is modelled reads one but to add to it or to print it, so that what is said of them holds modulo
`2 ^ 64` of the source's. -/
inductive Counter where
  | rx | tx | drop | fwDrop | noroute | selfDrop | arpFail | txErr | ttlDrop | malformed | pendDrop
  deriving DecidableEq

abbrev Stats := Counter → ℕ

/-- An atomic `++`. -/
def Stats.bump (g : Stats) (c : Counter) : Stats := Function.update g c (g c + 1)

end LinuxRouter
