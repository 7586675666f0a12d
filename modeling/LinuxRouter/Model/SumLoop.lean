import LinuxRouter.Model.Packet

/-!
# Model — SumLoop

`ip_checksum`, loop by loop, with its 32-bit accumulator.  `Packet` has what it returns.

The second loop has no bound in the source, so that its end is an inductive fact, `ChecksumReturns`,
and not the value of a function.

Two facts have to be known before the value of `ip_checksum` can be trusted: that the sum of all
words does not wrap in 32 bits, and that the folding of the carries comes to an end.  Neither can be
seen from the definition in `Packet`, which adds in the natural numbers and folds as often as it
takes; with the loops as they stand here, both are theorems (`Plane.InternetChecksum`).
-/

namespace LinuxRouter

/-- The first loop, and the byte that may be left after it. -/
def sumLoop : List Byte → BitVec 32 → BitVec 32
  | a :: b :: s, sum => sumLoop s (sum + (getBe16 [a, b] 0).setWidth 32)
  | [a], sum => sum + a.setWidth 32 <<< 8
  | [], sum => sum

/-- The body of the second loop. -/
def foldRound (sum : BitVec 32) : BitVec 32 := (sum &&& 0xffff#32) + (sum >>> 16)

/-- A run of `while (sum >> 16)` that ends, from one accumulator to another. -/
inductive FoldLoop : BitVec 32 → BitVec 32 → Prop
  | done {sum : BitVec 32} (h : sum >>> 16 = 0) : FoldLoop sum sum
  | round {sum r : BitVec 32} (h : sum >>> 16 ≠ 0) (hr : FoldLoop (foldRound sum) r) : FoldLoop sum r

/-- A run of `ip_checksum` that returns. -/
def ChecksumReturns (s : List Byte) (c : BitVec 16) : Prop :=
  ∃ r, FoldLoop (sumLoop s 0) r ∧ c = ~~~r.setWidth 16

end LinuxRouter
