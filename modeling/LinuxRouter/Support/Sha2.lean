import Mathlib.Data.Nat.NthRoot.Defs
import LinuxRouter.Support.Text

/-!
# Support — Sha2

SHA-256 as the standard has it: a message is padded, cut into blocks of 64 bytes, and the blocks are
folded into eight words.

* The constants are the first 32 bits of the fractional parts of roots of the first primes.
* `schedule`, `round` and `compress` are the hash of a block; `digest` is the hash of a message.
* `chain m` and `pending m` are what a hash computed piece by piece has after `m`: the state after the
  full blocks, and the bytes of the block begun.  `chain_small` and `chain_full` say how they grow, and
  `digest_eq` what the digest is from them.
-/

namespace Sha2

open Text (Byte)

abbrev Word := BitVec 32

/-! ### Constants -/

/-- The first primes, as many as there are rounds. -/
def primes : List ℕ :=
  (List.range 312).filter fun n => 2 ≤ n ∧ ∀ m ∈ List.range n, 2 ≤ m → n % m ≠ 0

/-- The first 32 bits of the fractional part of the `k`-th root of `p`. -/
def rootBits (k p : ℕ) : Word := BitVec.ofNat 32 (Nat.nthRoot k (p * 2 ^ (32 * k)))

def K (t : ℕ) : Word := rootBits 3 (primes.getD t 0)

def H0 : Vector Word 8 := Vector.ofFn fun i => rootBits 2 (primes.getD i 0)

/-! ### Functions on words -/

def ch (x y z : Word) : Word := (x &&& y) ^^^ (~~~x &&& z)
def maj (x y z : Word) : Word := (x &&& y) ^^^ (x &&& z) ^^^ (y &&& z)
def bigSigma0 (x : Word) : Word := x.rotateRight 2 ^^^ x.rotateRight 13 ^^^ x.rotateRight 22
def bigSigma1 (x : Word) : Word := x.rotateRight 6 ^^^ x.rotateRight 11 ^^^ x.rotateRight 25
def sigma0 (x : Word) : Word := x.rotateRight 7 ^^^ x.rotateRight 18 ^^^ x >>> 3
def sigma1 (x : Word) : Word := x.rotateRight 17 ^^^ x.rotateRight 19 ^^^ x >>> 10

/-! ### Blocks -/

/-- The word of four bytes, the first one highest. -/
def word (a b c d : Byte) : Word := a ++ b ++ c ++ d

/-- The `t`-th word of a block. -/
def blockWord (block : List Byte) (t : ℕ) : Word :=
  word (block.getD (4 * t) 0) (block.getD (4 * t + 1) 0) (block.getD (4 * t + 2) 0)
    (block.getD (4 * t + 3) 0)

/-- The message schedule. -/
def schedule (block : List Byte) (t : ℕ) : Word :=
  if t < 16 then blockWord block t
  else sigma1 (schedule block (t - 2)) + schedule block (t - 7) +
    sigma0 (schedule block (t - 15)) + schedule block (t - 16)
termination_by t

/-- A round, on the working variables `a` to `h`. -/
def round (k w : Word) (v : Vector Word 8) : Vector Word 8 :=
  let t1 := v.get 7 + bigSigma1 (v.get 4) + ch (v.get 4) (v.get 5) (v.get 6) + k + w
  let t2 := bigSigma0 (v.get 0) + maj (v.get 0) (v.get 1) (v.get 2)
  #v[t1 + t2, v.get 0, v.get 1, v.get 2, v.get 3 + t1, v.get 4, v.get 5, v.get 6]

/-- The hash of a block. -/
def compress (h : Vector Word 8) (block : List Byte) : Vector Word 8 :=
  h.zipWith (· + ·) ((List.range 64).foldl (fun v t => round (K t) (schedule block t) v) h)

/-! ### Messages -/

/-- The full blocks of a message. -/
def blocks (m : List Byte) : List (List Byte) :=
  (List.range (m.length / 64)).map fun i => (m.drop (64 * i)).take 64

/-- The number of a message's bits, in eight bytes. -/
def lengthBytes (n : ℕ) : List Byte :=
  (List.range 8).map fun i => BitVec.ofNat 8 (8 * n / 2 ^ (56 - 8 * i))

/-- The padded message: a one bit, as few zeros as give full blocks, and the length. -/
def pad (m : List Byte) : List Byte :=
  m ++ [0x80#8] ++ List.replicate ((119 - m.length % 64) % 64) 0#8 ++ lengthBytes m.length

/-- The bytes of a word. -/
def wordBytes (w : Word) : List Byte :=
  [w.extractLsb' 24 8, w.extractLsb' 16 8, w.extractLsb' 8 8, w.extractLsb' 0 8]

/-- The digest. -/
def digest (m : List Byte) : List Byte :=
  ((blocks (pad m)).foldl compress H0).toList.flatMap wordBytes

/-! ### Piece by piece -/

/-- The state after the full blocks. -/
def chain (m : List Byte) : Vector Word 8 := (blocks m).foldl compress H0

/-- The bytes of the block begun. -/
def pending (m : List Byte) : List Byte := m.drop (64 * (m.length / 64))

theorem length_pending (m : List Byte) : (pending m).length = m.length % 64 := by
  have := Nat.mod_add_div m.length 64
  simp only [pending, List.length_drop]
  omega

variable {m q : List Byte}

/-- Full blocks can be cut off the front. -/
theorem blocks_aligned {a : List Byte} {k : ℕ} (ha : a.length = 64 * k) (b : List Byte) :
    blocks (a ++ b) = blocks a ++ blocks b := by
  have hk : a.length / 64 = k := by omega
  have hkb : (a ++ b).length / 64 = k + b.length / 64 := by
    rw [List.length_append]
    omega
  simp only [blocks, hkb, hk, List.range_add, List.map_append, List.map_map]
  congr 1
  · refine List.map_congr_left fun i hi => ?_
    have hi : i < k := List.mem_range.mp hi
    rw [List.drop_append_of_le_length (by omega), List.take_append_of_le_length]
    rw [List.length_drop]
    omega
  · refine List.map_congr_left fun i _ => ?_
    have : 64 * (k + i) = a.length + 64 * i := by omega
    rw [Function.comp, this, ← List.drop_drop, List.drop_left]

theorem blocks_small (h : m.length < 64) : blocks m = [] := by
  have : m.length / 64 = 0 := by omega
  simp [blocks, this]

theorem blocks_one (h : m.length = 64) : blocks m = [m] := by
  simp [blocks, h, List.take_of_length_le h.le]

/-- A message is its full blocks and the block begun. -/
theorem exists_full (m : List Byte) :
    ∃ a, m = a ++ pending m ∧ a.length = 64 * (m.length / 64) := by
  refine ⟨m.take (64 * (m.length / 64)), (List.take_append_drop _ _).symm, ?_⟩
  rw [List.length_take]
  omega

theorem blocks_append (m q : List Byte) :
    blocks (m ++ q) = blocks m ++ blocks (pending m ++ q) := by
  obtain ⟨a, hm, ha⟩ := exists_full m
  have hp : blocks (pending m) = [] := blocks_small (by rw [length_pending]; omega)
  have hbm : blocks m = blocks a := by
    conv_lhs => rw [hm]
    rw [blocks_aligned ha, hp, List.append_nil]
  rw [hbm, ← blocks_aligned ha, ← List.append_assoc, ← hm]

theorem pending_append (m q : List Byte) : pending (m ++ q) = pending (pending m ++ q) := by
  obtain ⟨a, hm, ha⟩ := exists_full m
  have hl : (m ++ q).length = a.length + (pending m ++ q).length := by
    conv_lhs => rw [hm]
    simp only [List.length_append]
    omega
  have hdiv : 64 * ((m ++ q).length / 64) = a.length + 64 * ((pending m ++ q).length / 64) := by
    omega
  have hsplit : m ++ q = a ++ (pending m ++ q) := by rw [← List.append_assoc, ← hm]
  rw [pending, hdiv, ← List.drop_drop, hsplit, List.drop_left]
  rfl

theorem chain_append (m q : List Byte) :
    chain (m ++ q) = (blocks (pending m ++ q)).foldl compress (chain m) := by
  rw [chain, blocks_append, List.foldl_append]
  rfl

/-- More of the block begun. -/
theorem chain_small (h : (pending m ++ q).length < 64) :
    chain (m ++ q) = chain m ∧ pending (m ++ q) = pending m ++ q := by
  constructor
  · rw [chain_append, blocks_small h]
    rfl
  · have : (pending m ++ q).length / 64 = 0 := by omega
    rw [pending_append, pending, this]
    rfl

/-- The rest of the block begun. -/
theorem chain_full (h : (pending m ++ q).length = 64) :
    chain (m ++ q) = compress (chain m) (pending m ++ q) ∧ pending (m ++ q) = [] := by
  constructor
  · rw [chain_append, blocks_one h]
    rfl
  · rw [pending_append, pending, h]
    exact List.drop_eq_nil_of_le h.le

theorem digest_eq (m : List Byte) :
    digest m = (chain (m ++ ([0x80#8] ++ List.replicate ((119 - m.length % 64) % 64) 0#8 ++
      lengthBytes m.length))).toList.flatMap wordBytes := by
  simp only [digest, chain, pad, List.append_assoc]

end Sha2
