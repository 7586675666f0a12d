import LinuxRouter.Model.Router

/-!
# Model — Packet

`packet.c`: the checksum of an IP header.

The 16-bit words are summed first and the carries folded afterwards; an odd byte at the end is a
word with a zero behind it.  The sum is a number here, and `SumLoop` has the accumulator of 32 bits.

`ip_checksum_recompute` first clears the field and then sums up the header where it lies, as many
bytes as the header says it has.  That is why it matters that the header is in the frame: the sum
would go on with what is behind it in the block.  A header length below 12, which no frame that
passes the checks has, leaves the frame as it is.  That the value is that of RFC 1071 is in
`Plane.InternetChecksum`.
-/

namespace LinuxRouter

/-- The sum of `ip_checksum`'s loop: big-endian words, the last byte alone if there is one. -/
def wordSum : List Byte → ℕ
  | a :: b :: s => (getBe16 [a, b] 0).toNat + wordSum s
  | [a] => a.toNat * 256
  | [] => 0

/-- `while (sum >> 16) sum = (sum & 0xffff) + (sum >> 16)`.  A word has no carry left after two
rounds. -/
def foldCarry (sum : ℕ) : ℕ :=
  let once (s : ℕ) := s % 2 ^ 16 + s / 2 ^ 16
  once (once sum)

/-- `ip_checksum`. -/
def ipChecksum (s : List Byte) : BitVec 16 := ~~~BitVec.ofNat 16 (foldCarry (wordSum s % 2 ^ 32))

/-- `ip_checksum_recompute(f + 14, hdr_len)`. -/
def ipChecksumRecompute (f : List Byte) (hdrLen : ℕ) : List Byte :=
  if hdrLen < 12 then f
  else
    let f := blit f 24 [0, 0]
    putBe16 f 24 (ipChecksum ((f.drop 14).take hdrLen))

end LinuxRouter
