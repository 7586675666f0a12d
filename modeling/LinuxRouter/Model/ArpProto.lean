import LinuxRouter.Model.Plane

/-!
# Model — ArpProto

`arp_proto.c`, the sending half: `arp_request` and `arp_respond`.

Both write the 42 bytes of a frame field by field.  `arp_respond` does so over the request in the
block it is given, and takes from it what it does not write; `arp_request` has a frame of its own.
The learning half, which also calls `forward_flush_pending`, is in `Receive`.

A program here is made of commands of the data plane, and what it does with a block, the other
threads may come between.  `arp_request` looks for the interface before it takes a block, and gives
up without one if there is none; a request that finds no block is not sent, and nobody is told.  The
answer goes out on the interface that is named in the call, with the addresses of `src`, which need
not be that interface.
-/

namespace LinuxRouter

open Program.Prog (perform)

def etherTypeArp : BitVec 16 := 0x0806#16
def etherTypeIp : BitVec 16 := 0x0800#16
def arpOperReq : BitVec 16 := 1#16
def arpOperRep : BitVec 16 := 2#16

/-- The frame that `arp_request` builds on the interface `it`. -/
def arpRequestFrame (it : Iface) (ip : Ip) (f : List Byte) : List Byte :=
  let f := blit f 0 (List.replicate 42 0)
  let f := blit f 0 bcastMac.toList
  let f := blit f 6 it.mac.toList
  let f := putBe16 f 12 etherTypeArp
  let f := putBe16 f 14 1
  let f := putBe16 f 16 0x0800
  let f := blit f 18 [6, 4]
  let f := putBe16 f 20 arpOperReq
  let f := blit f 22 it.mac.toList
  let f := putBe32 f 28 it.ip
  let f := blit f 32 (List.replicate 6 0)
  putBe32 f 38 ip

/-- `arp_request`. -/
def arpRequest (k : Key) : Act Unit := do
  let ifs ← perform .ifaces
  match ifaceByIndex ifs k.2 with
  | none => pure ()
  | some it =>
    match ← perform .mpAlloc with
    | none => pure ()
    | some blk =>
      let f ← perform (.load blk)
      let data := arpRequestFrame it k.1 f.data
      perform (.write blk (.data data))
      perform (.write blk (.len 42))
      perform (.mark (.request k))
      let ok ← perform (.pktSend (data.take 42) k.2)
      perform (.count (if ok then .tx else .txErr))
      perform (.mpFree blk)

/-- The reply that `arp_respond` makes of the request `f`, in place. -/
def arpReplyFrame (src : Iface) (f : List Byte) : List Byte :=
  let reqSha := (f.drop 22).take 6
  let reqSpa := getBe32 f 28
  let f := blit f 0 reqSha
  let f := blit f 6 src.mac.toList
  let f := putBe16 f 20 arpOperRep
  let f := blit f 22 src.mac.toList
  let f := putBe32 f 28 src.ip
  let f := blit f 32 reqSha
  putBe32 f 38 reqSpa

/-- `arp_respond`. -/
def arpRespond (blk : Block) (sendIfidx : CInt) (src : Iface) : Act Unit := do
  let f ← perform (.load blk)
  let data := arpReplyFrame src f.data
  perform (.write blk (.data data))
  let ok ← perform (.pktSend (data.take f.len) sendIfidx)
  perform (.count (if ok then .tx else .txErr))

end LinuxRouter
