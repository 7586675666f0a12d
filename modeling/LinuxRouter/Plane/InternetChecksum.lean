import LinuxRouter.Support.OnesComplement
import LinuxRouter.Model.Checksum
import LinuxRouter.Model.SumLoop

/-!
# Plane — the Internet checksum

RFC 1071 adds the big-endian words of a buffer with an end-around carry; `ip_checksum` adds them
without, in 32 bits, and folds the carries at the end.

* `sumLoop_toNat`: the accumulator is the sum, and does not wrap.
* `foldLoop_iff`: the second loop ends, in the word the sum folds to.
* `ipChecksum_rfc1071`: both together.

The two agree because an end-around carry is arithmetic modulo 2^16 - 1: folding the high half of a
sum onto the low half does not change its remainder, and a fold makes the sum smaller until it has
16 bits.  A sum that is not 0 never folds to 0, which settles the one pair of words, 0 and 0xffff,
that the remainder does not tell apart.  An odd byte at the end is a word with a zero behind it, on
both sides.
-/

namespace LinuxRouter

open OnesComplement (Folds folds_unique folds_sum)

/-- The big-endian words of a buffer, the last byte padded with zero. -/
def beWords : List Byte → List (BitVec 16)
  | a :: b :: s => (a ++ b) :: beWords s
  | [a] => [a ++ 0#8]
  | [] => []

/-- The checksum of RFC 1071. -/
def rfc1071 (s : List Byte) : BitVec 16 := ~~~OnesComplement.sum (beWords s)

variable {s : List Byte} {sum r : BitVec 32}

/-! ### The accumulator -/

theorem getBe16_eq_append (a b : Byte) : getBe16 [a, b] 0 = a ++ b := by
  refine BitVec.eq_of_getLsbD_eq fun i hi => ?_
  simp only [getBe16, byteAt, List.getD_cons_zero, List.getD_cons_succ, BitVec.getLsbD_or,
    BitVec.getLsbD_shiftLeft, BitVec.getLsbD_setWidth, BitVec.getLsbD_append]
  by_cases h : i < 8
  · simp [h, hi]
  · simp [h, hi, show i - 8 < 16 by omega, BitVec.getLsbD_of_ge b i (Nat.le_of_not_lt h)]

theorem toNat_append_zero (a : Byte) : (a ++ 0#8 : BitVec 16).toNat = a.toNat * 256 := by
  rw [BitVec.toNat_append, BitVec.toNat_zero, Nat.or_zero, Nat.shiftLeft_eq]

/-- The words of `ip_checksum` are those of the buffer. -/
theorem wordSum_eq (s : List Byte) : wordSum s = ((beWords s).map BitVec.toNat).sum := by
  induction s using wordSum.induct with
  | case1 a b s ih =>
      rw [wordSum, beWords, List.map_cons, List.sum_cons, ih, getBe16_eq_append]
  | case2 a =>
      rw [wordSum, beWords, List.map_singleton, List.sum_singleton, toNat_append_zero]
  | case3 => rfl

/-- **The accumulator is the sum**, as long as the sum fits. -/
theorem toNat_sumLoop (h : sum.toNat + wordSum s < 2 ^ 32) :
    (sumLoop s sum).toNat = sum.toNat + wordSum s := by
  induction s using wordSum.induct generalizing sum with
  | case1 a b s ih =>
      rw [wordSum] at h ⊢
      have hw : ((getBe16 [a, b] 0).setWidth 32).toNat = (getBe16 [a, b] 0).toNat :=
        BitVec.toNat_setWidth_of_le (by decide)
      have hsum : (sum + (getBe16 [a, b] 0).setWidth 32).toNat =
          sum.toNat + (getBe16 [a, b] 0).toNat := by
        rw [BitVec.toNat_add, hw]
        exact Nat.mod_eq_of_lt (by omega)
      rw [sumLoop, ih (by omega), hsum, Nat.add_assoc]
  | case2 a =>
      rw [wordSum] at h ⊢
      have hw : (a.setWidth 32 <<< 8).toNat = a.toNat * 256 := by
        have ha := a.isLt
        rw [BitVec.toNat_shiftLeft, BitVec.toNat_setWidth_of_le (by decide), Nat.shiftLeft_eq]
        omega
      rw [sumLoop, BitVec.toNat_add, hw]
      exact Nat.mod_eq_of_lt h
  | case3 => rfl

/-! ### The folding loop -/

theorem toNat_foldRound (sum : BitVec 32) :
    (foldRound sum).toNat = sum.toNat % 2 ^ 16 + sum.toNat / 2 ^ 16 := by
  have hs := sum.isLt
  rw [foldRound, BitVec.toNat_add, BitVec.toNat_and, BitVec.toNat_ushiftRight,
    Nat.shiftRight_eq_div_pow]
  have hm : sum.toNat &&& (0xffff#32).toNat = sum.toNat % 2 ^ 16 := Nat.and_two_pow_sub_one_eq_mod _ 16
  rw [hm]
  omega

/-- The fold ends where the sum has 16 bits. -/
theorem shift_eq_zero : sum >>> 16 = 0 ↔ sum.toNat < 2 ^ 16 := by
  rw [← BitVec.toNat_inj, BitVec.toNat_ushiftRight, Nat.shiftRight_eq_div_pow]
  simp only [BitVec.ofNat_eq_ofNat, BitVec.toNat_zero]
  omega

/-- The sum of the halves is smaller, congruent, and zero for zero only. -/
theorem foldRound_spec (h : 2 ^ 16 ≤ sum.toNat) :
    (foldRound sum).toNat < sum.toNat ∧
      (foldRound sum).toNat ≡ sum.toNat [MOD 2 ^ 16 - 1] ∧ (foldRound sum).toNat ≠ 0 := by
  rw [toNat_foldRound]
  refine ⟨by omega, ?_, by omega⟩
  rw [Nat.ModEq]
  omega

/-- **The loop ends.** -/
theorem exists_foldLoop (sum : BitVec 32) : ∃ r, FoldLoop sum r := by
  induction hn : sum.toNat using Nat.strong_induction_on generalizing sum with
  | _ n ih =>
      by_cases h : sum.toNat < 2 ^ 16
      · exact ⟨sum, .done (shift_eq_zero.mpr h)⟩
      · have hlt := (foldRound_spec (Nat.le_of_not_lt h)).1
        obtain ⟨r, hr⟩ := ih _ (hn ▸ hlt) _ rfl
        exact ⟨r, .round (shift_eq_zero.not.mpr h) hr⟩

/-- **It ends in the word that the sum folds to.** -/
theorem foldLoop_folds (h : FoldLoop sum r) : Folds sum.toNat (r.setWidth 16) := by
  induction h with
  | @done sum h =>
      have hlt := shift_eq_zero.mp h
      have hr : (sum.setWidth 16).toNat = sum.toNat := by
        rw [BitVec.toNat_setWidth, Nat.mod_eq_of_lt hlt]
      exact hr ▸ OnesComplement.folds_self _
  | @round sum r h hr ih =>
      have hle := Nat.le_of_not_lt (shift_eq_zero.not.mp h)
      obtain ⟨-, hmod, hne⟩ := foldRound_spec hle
      exact ⟨ih.modEq.trans hmod, ih.zero.trans (iff_of_false hne (by omega))⟩

/-! ### The checksum -/

theorem sumLoop_zero (h : wordSum s < 2 ^ 32) :
    (sumLoop s 0).toNat = ((beWords s).map BitVec.toNat).sum := by
  have hsum := @toNat_sumLoop s 0#32 (by rwa [BitVec.toNat_zero, Nat.zero_add])
  rwa [BitVec.toNat_zero, Nat.zero_add, wordSum_eq] at hsum

/-- A buffer that the accumulator has room for. -/
theorem wordSum_lt (h : s.length ≤ 131072) : wordSum s < 2 ^ 32 := by
  have := wordSum_le s
  omega

theorem returns_iff (h : wordSum s < 2 ^ 32) {c : BitVec 16} : ChecksumReturns s c ↔ c = rfc1071 s := by
  have hfold : ∀ r, FoldLoop (sumLoop s 0) r → r.setWidth 16 = OnesComplement.sum (beWords s) := by
    intro r hr
    have hf := foldLoop_folds hr
    rw [sumLoop_zero h] at hf
    exact folds_unique hf (folds_sum _)
  constructor
  · rintro ⟨r, hr, rfl⟩
    rw [rfc1071, hfold r hr]
  · rintro rfl
    obtain ⟨r, hr⟩ := exists_foldLoop (sumLoop s 0)
    exact ⟨r, hr, by rw [rfc1071, hfold r hr]⟩

/-- **`ip_checksum` is the checksum of RFC 1071**: the accumulator is the sum of the words after
every round, so it does not wrap; and the function returns, with the complement of their sum with an
end-around carry. -/
theorem ipChecksum_rfc1071 (s : List Byte) (h : s.length ≤ 131072) :
    (∀ t, t <+: s → (sumLoop t 0).toNat = ((beWords t).map BitVec.toNat).sum) ∧
      ∀ c, ChecksumReturns s c ↔ c = rfc1071 s :=
  ⟨fun _ ht => sumLoop_zero (wordSum_lt (ht.length_le.trans h)), fun _ => returns_iff (wordSum_lt h)⟩

/-- A word and a last byte, whose sum has a carry. -/
theorem ipChecksum_rfc1071_odd : ChecksumReturns [0x45, 0x00, 0xff] 0xbbfe#16 :=
  ((ipChecksum_rfc1071 [0x45, 0x00, 0xff] (by decide)).2 _).mpr (by decide)

/-- What the other modules know of `ip_checksum`: two rounds of the second loop are enough. -/
theorem ipChecksum_eq (h : s.length ≤ 131072) : ipChecksum s = rfc1071 s := by
  have hlt := wordSum_lt h
  obtain ⟨hfold, hmod, hzero⟩ := foldCarry_spec hlt
  have hc : (BitVec.ofNat 16 (foldCarry (wordSum s))).toNat = foldCarry (wordSum s) := by
    rw [BitVec.toNat_ofNat, Nat.mod_eq_of_lt hfold]
  have hf : Folds (wordSum s) (BitVec.ofNat 16 (foldCarry (wordSum s))) := by
    refine ⟨?_, ?_⟩
    · rw [hc]
      exact hmod
    · rw [← BitVec.toNat_inj, hc]
      exact hzero
  rw [ipChecksum, rfc1071, Nat.mod_eq_of_lt hlt]
  rw [wordSum_eq] at hf
  rw [wordSum_eq, folds_unique hf (folds_sum _)]

end LinuxRouter
