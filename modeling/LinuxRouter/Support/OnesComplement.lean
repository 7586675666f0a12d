import Mathlib.Data.Nat.ModEq
import Mathlib.Algebra.BigOperators.Group.List.Basic

/-!
# Support — OnesComplement

Sums of `w`-bit words in which the carry of every step is added back in.

Such a sum knows the sum of the numbers modulo `2 ^ w - 1`, and of the two words that stand for zero
there it is `0` for zero only.  `Folds` says this of a number and a word.

* `folds_unique`: it determines the word.
* `folds_sum`: the sum of words is what the sum of their numbers folds to, so that carries may as well
  be added at the end.

So the order of the additions does not matter, nor when a carry is folded in, nor whether it is
folded at all before the end.
-/

namespace OnesComplement

variable {w : ℕ}

/-- The sum of two words, and its carry. -/
def addCarry (x y : BitVec w) : BitVec w :=
  let s := x.toNat + y.toNat
  BitVec.ofNat w (s % 2 ^ w + s / 2 ^ w)

/-- The sum of words, with the carry at every step. -/
def sum (ws : List (BitVec w)) : BitVec w := ws.foldl addCarry 0

/-- The word that a number folds to. -/
structure Folds (n : ℕ) (x : BitVec w) : Prop where
  modEq : x.toNat ≡ n [MOD 2 ^ w - 1]
  zero : x = 0 ↔ n = 0

variable {n m : ℕ} {x y : BitVec w}

theorem toNat_addCarry (x y : BitVec w) :
    (addCarry x y).toNat =
      if x.toNat + y.toNat < 2 ^ w then x.toNat + y.toNat else x.toNat + y.toNat - (2 ^ w - 1) := by
  have hx := x.isLt
  have hy := y.isLt
  simp only [addCarry, BitVec.toNat_ofNat]
  split
  · rename_i h
    rw [Nat.mod_eq_of_lt h, Nat.div_eq_of_lt h, Nat.add_zero, Nat.mod_eq_of_lt h]
  · rename_i h
    have hle : 2 ^ w ≤ x.toNat + y.toNat := Nat.le_of_not_lt h
    have hlt : x.toNat + y.toNat - 2 ^ w < 2 ^ w := by omega
    have hmod : (x.toNat + y.toNat) % 2 ^ w = x.toNat + y.toNat - 2 ^ w := by
      rw [Nat.mod_eq_sub_mod hle, Nat.mod_eq_of_lt hlt]
    have hdiv : (x.toNat + y.toNat) / 2 ^ w = 1 :=
      Nat.div_eq_of_lt_le (by omega) (by omega)
    rw [hmod, hdiv, Nat.mod_eq_of_lt (by omega)]
    omega

theorem folds_self (x : BitVec w) : Folds x.toNat x where
  modEq := .refl _
  zero := BitVec.toNat_inj.symm

/-- A number folds to one word. -/
theorem folds_unique (hx : Folds n x) (hy : Folds n y) : x = y := by
  have hM : 0 < 2 ^ w := Nat.two_pow_pos w
  have hxM : x.toNat ≤ 2 ^ w - 1 := Nat.le_sub_one_of_lt x.isLt
  have hyM : y.toNat ≤ 2 ^ w - 1 := Nat.le_sub_one_of_lt y.isLt
  have hzero : x.toNat = 0 ↔ y.toNat = 0 := by
    have h := hx.zero.trans hy.zero.symm
    rwa [← BitVec.toNat_inj, ← BitVec.toNat_inj] at h
  have hmod : x.toNat % (2 ^ w - 1) = y.toNat % (2 ^ w - 1) := hx.modEq.trans hy.modEq.symm
  refine BitVec.eq_of_toNat_eq ?_
  -- below the greatest word the residue is the word; the greatest one has that of zero
  rcases Nat.lt_or_eq_of_le hxM with hlt | heq
  · rcases Nat.lt_or_eq_of_le hyM with hlt' | heq'
    · rwa [Nat.mod_eq_of_lt hlt, Nat.mod_eq_of_lt hlt'] at hmod
    · rw [Nat.mod_eq_of_lt hlt, heq', Nat.mod_self] at hmod
      exact hmod.trans (hzero.mp hmod).symm
  · rcases Nat.lt_or_eq_of_le hyM with hlt' | heq'
    · rw [Nat.mod_eq_of_lt hlt', heq, Nat.mod_self] at hmod
      exact (hzero.mpr hmod.symm).trans hmod
    · exact heq.trans heq'.symm

theorem folds_addCarry (hx : Folds n x) (hy : Folds m y) : Folds (n + m) (addCarry x y) where
  modEq := by
    refine Nat.ModEq.trans ?_ (hx.modEq.add hy.modEq)
    rw [toNat_addCarry]
    split
    · rfl
    · rename_i h
      have hle : 2 ^ w - 1 ≤ x.toNat + y.toNat := by omega
      have hsplit : x.toNat + y.toNat = x.toNat + y.toNat - (2 ^ w - 1) + (2 ^ w - 1) := by omega
      conv_rhs => rw [hsplit]
      exact (Nat.add_modEq_right).symm
  zero := by
    have hw := Nat.two_pow_pos w
    have hx₀ := hx.zero
    have hy₀ := hy.zero
    rw [← BitVec.toNat_inj] at hx₀ hy₀ ⊢
    rw [toNat_addCarry]
    simp only [BitVec.ofNat_eq_ofNat, BitVec.toNat_zero] at hx₀ hy₀ ⊢
    split <;> omega

theorem folds_foldl (h : Folds n x) (ws : List (BitVec w)) :
    Folds (n + (ws.map BitVec.toNat).sum) (ws.foldl addCarry x) := by
  induction ws generalizing n x with
  | nil => exact h
  | cons y ws ih =>
      rw [List.map_cons, List.sum_cons, ← Nat.add_assoc]
      exact ih (folds_addCarry h (folds_self y))

/-- **The carries may be added at the end.** -/
theorem folds_sum (ws : List (BitVec w)) : Folds (ws.map BitVec.toNat).sum (sum ws) := by
  have h := folds_foldl (folds_self (0 : BitVec w)) ws
  rwa [BitVec.ofNat_eq_ofNat, BitVec.toNat_zero, Nat.zero_add] at h

end OnesComplement
