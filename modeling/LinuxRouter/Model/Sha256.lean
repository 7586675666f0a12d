import Mathlib.Data.Nat.Notation
import LinuxRouter.Support.Text

/-!
# Model — Sha256

`sha256.c`: the streaming hash that an upgrade is checked with.

`Sha256` has the fields of the source's context; the schedule and the rounds of `transform` are
folds over the 64 rounds.  `sha256_update` takes its bytes block by block, as the source does.

Words are bit vectors of 32 bits, so that their sums wrap as the source's `uint32_t` do, and the
length that is hashed at the end is one of 64.  The constants are copied from the source and not
derived.  That all this is the hash of the standard, whatever pieces the data came in, is not
assumed anywhere: it is proved in `Upgrade.Hash` against the definition in `Support.Sha2`, which
knows nothing of blocks that are half full.
-/

namespace LinuxRouter

open Text (Byte)

abbrev Word := BitVec 32

/-- The constants `K`. -/
def shaK : List Word := [
  0x428a2f98, 0x71374491, 0xb5c0fbcf, 0xe9b5dba5,
  0x3956c25b, 0x59f111f1, 0x923f82a4, 0xab1c5ed5,
  0xd807aa98, 0x12835b01, 0x243185be, 0x550c7dc3,
  0x72be5d74, 0x80deb1fe, 0x9bdc06a7, 0xc19bf174,
  0xe49b69c1, 0xefbe4786, 0x0fc19dc6, 0x240ca1cc,
  0x2de92c6f, 0x4a7484aa, 0x5cb0a9dc, 0x76f988da,
  0x983e5152, 0xa831c66d, 0xb00327c8, 0xbf597fc7,
  0xc6e00bf3, 0xd5a79147, 0x06ca6351, 0x14292967,
  0x27b70a85, 0x2e1b2138, 0x4d2c6dfc, 0x53380d13,
  0x650a7354, 0x766a0abb, 0x81c2c92e, 0x92722c85,
  0xa2bfe8a1, 0xa81a664b, 0xc24b8b70, 0xc76c51a3,
  0xd192e819, 0xd6990624, 0xf40e3585, 0x106aa070,
  0x19a4c116, 0x1e376c08, 0x2748774c, 0x34b0bcb5,
  0x391c0cb3, 0x4ed8aa4a, 0x5b9cca4f, 0x682e6ff3,
  0x748f82ee, 0x78a5636f, 0x84c87814, 0x8cc70208,
  0x90befffa, 0xa4506ceb, 0xbef9a3f7, 0xc67178f2]

/-- The constants `H0`. -/
def shaH0 : Vector Word 8 := #v[
  0x6a09e667, 0xbb67ae85, 0x3c6ef372, 0xa54ff53a,
  0x510e527f, 0x9b05688c, 0x1f83d9ab, 0x5be0cd19]

/-- `ROTRIGHT`. -/
def rotRight (a : Word) (b : ℕ) : Word := a >>> b ||| a <<< (32 - b)

def shaCh (x y z : Word) : Word := (x &&& y) ^^^ (~~~x &&& z)
def shaMaj (x y z : Word) : Word := (x &&& y) ^^^ (x &&& z) ^^^ (y &&& z)
def shaEp0 (x : Word) : Word := rotRight x 2 ^^^ rotRight x 13 ^^^ rotRight x 22
def shaEp1 (x : Word) : Word := rotRight x 6 ^^^ rotRight x 11 ^^^ rotRight x 25
def shaSig0 (x : Word) : Word := rotRight x 7 ^^^ rotRight x 18 ^^^ x >>> 3
def shaSig1 (x : Word) : Word := rotRight x 17 ^^^ rotRight x 19 ^^^ x >>> 10

/-- `load_be32`. -/
def loadBe32 (p : List Byte) : Word :=
  (p.getD 0 0).setWidth 32 <<< 24 ||| (p.getD 1 0).setWidth 32 <<< 16 |||
    (p.getD 2 0).setWidth 32 <<< 8 ||| (p.getD 3 0).setWidth 32

/-- `store_be32`. -/
def storeBe32 (v : Word) : List Byte :=
  [(v >>> 24).setWidth 8, (v >>> 16).setWidth 8, (v >>> 8).setWidth 8, v.setWidth 8]

/-- The second loop of `transform`, `n` rounds of it: `w` so far. -/
def shaExtend : ℕ → List Word → List Word
  | 0, w => w
  | n + 1, w =>
      let i := w.length
      shaExtend n (w ++ [shaSig1 (w.getD (i - 2) 0) + w.getD (i - 7) 0 +
        shaSig0 (w.getD (i - 15) 0) + w.getD (i - 16) 0])

/-- The message schedule `w` of a block. -/
def shaSchedule (data : List Byte) : List Word :=
  shaExtend 48 ((List.range 16).map fun i => loadBe32 (data.drop (i * 4)))

/-- A round of `transform`, on its variables `a` to `h`. -/
def shaRound (v : Vector Word 8) (kw : Word × Word) : Vector Word 8 :=
  let t1 := v[7] + shaEp1 v[4] + shaCh v[4] v[5] v[6] + kw.1 + kw.2
  let t2 := shaEp0 v[0] + shaMaj v[0] v[1] v[2]
  #v[t1 + t2, v[0], v[1], v[2], v[3] + t1, v[4], v[5], v[6]]

/-- `transform`, on the state. -/
def shaTransform (state : Vector Word 8) (data : List Byte) : Vector Word 8 :=
  state.zipWith (· + ·) ((shaK.zip (shaSchedule data)).foldl shaRound state)

/-- `sha256_ctx`.  `buf` is the first `buflen` bytes. -/
structure Sha256 where
  state : Vector Word 8
  bitlen : BitVec 64
  buf : List Byte

/-- `sha256_init`. -/
def sha256Init : Sha256 where
  state := shaH0
  bitlen := 0
  buf := []

/-- The loop of `sha256_update`, at most `n` rounds. -/
def sha256Absorb : ℕ → Sha256 → List Byte → Sha256
  | 0, c, _ => c
  | n + 1, c, p =>
      if p = [] then c
      else
        let take := min (64 - c.buf.length) p.length
        let buf := c.buf ++ p.take take
        let c := if buf.length = 64 then
            { c with state := shaTransform c.state buf, buf := [] }
          else { c with buf := buf }
        sha256Absorb n c (p.drop take)

/-- `sha256_update`.  A round takes at least one byte. -/
def sha256Update (c : Sha256) (data : List Byte) : Sha256 :=
  sha256Absorb data.length { c with bitlen := c.bitlen + BitVec.ofNat 64 (data.length * 8) } data

/-- `sha256_final`: the digest. -/
def sha256Final (c : Sha256) : List Byte :=
  let buf := c.buf ++ [0x80#8]
  let (state, buf) :=
    if 56 < buf.length then
      (shaTransform c.state (buf ++ List.replicate (64 - buf.length) 0), [])
    else (c.state, buf)
  let buf := buf ++ List.replicate (56 - buf.length) 0
  let length := (List.range 8).map fun i => (c.bitlen >>> (56 - i * 8)).setWidth 8
  (shaTransform state (buf ++ length)).toList.flatMap storeBe32

/-- The digest of a byte string. -/
def sha256 (data : List Byte) : List Byte := sha256Final (sha256Update sha256Init data)

end LinuxRouter
