import LinuxRouter.Model.Bytes
import LinuxRouter.Model.Packet

/-!
# Model — Checksum

The law of `ip_checksum`: a header whose checksum was recomputed sums up to zero.

* `foldCarry_spec`: the carry loop keeps the sum modulo 65535, and gives zero for zero only.
* `wordSum_append`: the sum of two halves, if the first one ends between two words.
* `ipChecksum_recompute`: the law, for every header of an even number of bytes that fits the sum.

The sum of a header is invariant under what `ip_checksum_recompute` does to it except for the two
bytes of the checksum itself, which it counts as 0 first and then adds as the complement of the
rest; a word and its complement are 65535 together, which is 0 for the fold.
-/

namespace LinuxRouter

/-! ### The carry loop -/

/-- The loop ends in 16 bits, congruent to the sum modulo 65535.  The two words that stand for zero
are told apart: the sum of a header is zero only if all its words are. -/
theorem foldCarry_spec {s : ℕ} (h : s < 2 ^ 32) :
    foldCarry s < 2 ^ 16 ∧ foldCarry s % 65535 = s % 65535 ∧ (foldCarry s = 0 ↔ s = 0) := by
  unfold foldCarry
  dsimp only
  omega

/-- Two 16-bit numbers that are congruent to zero: only one of them is the sum of something. -/
theorem foldCarry_eq_max {s : ℕ} (h : s < 2 ^ 32) (h₀ : s ≠ 0) (hm : s % 65535 = 0) :
    foldCarry s = 65535 := by
  obtain ⟨hlt, hmod, hz⟩ := foldCarry_spec h
  have hne : foldCarry s ≠ 0 := fun e => h₀ (hz.mp e)
  omega

/-! ### The sum of the words -/

theorem wordSum_append {a b : List Byte} (h : a.length % 2 = 0) :
    wordSum (a ++ b) = wordSum a + wordSum b := by
  induction a using wordSum.induct with
  | case1 x y s ih =>
      have hs : s.length % 2 = 0 := by
        rw [List.length_cons, List.length_cons] at h
        omega
      simp only [List.cons_append, wordSum, ih hs, Nat.add_assoc]
  | case2 x => simp at h
  | case3 => simp [wordSum]

theorem wordSum_le (s : List Byte) : wordSum s ≤ 65535 * ((s.length + 1) / 2) := by
  induction s using wordSum.induct with
  | case1 x y s ih =>
      have hx := (getBe16 [x, y] 0).isLt
      simp only [wordSum, List.length_cons]
      omega
  | case2 x =>
      have hx := x.isLt
      simp only [wordSum, List.length_singleton]
      omega
  | case3 => simp [wordSum]

/-- One word. -/
theorem wordSum_word (v : BitVec 16) :
    wordSum [(v >>> 8).setWidth 8, v.setWidth 8] = v.toNat := by
  simp only [wordSum, getBe16_bytes, Nat.add_zero]

/-! ### The header -/

section Header

variable {f : List Byte} {n : ℕ}

/-- The header with other bytes in the checksum's field. -/
theorem header_blit (hf : 26 ≤ f.length) (hn : 12 ≤ n) (x y : Byte) :
    ((blit f 24 [x, y]).drop 14).take n =
      (f.drop 14).take 10 ++ ([x, y] ++ (f.drop 26).take (n - 12)) := by
  have h₁ : (blit f 24 [x, y]).drop 14 = (f.drop 14).take 10 ++ ([x, y] ++ f.drop 26) := by
    rw [blit, List.append_assoc, List.drop_append_of_le_length (by simp; omega), List.drop_take]
    rfl
  have hl : ((f.drop 14).take 10).length = 10 := by
    rw [List.length_take, List.length_drop]
    omega
  rw [h₁, List.take_append, hl, List.take_of_length_le (by omega), List.take_append]
  congr 2
  exact List.take_of_length_le (by simp; omega)

/-- The second write goes to the same bytes as the first one. -/
theorem blit_blit {a b : List Byte} {i : ℕ} (hf : i + a.length ≤ f.length)
    (hab : a.length = b.length) : blit (blit f i a) i b = blit f i b := by
  have hl : (f.take i).length = i := by
    rw [List.length_take]
    omega
  unfold blit
  congr 1
  · rw [List.append_assoc, List.take_append_of_le_length (by omega), List.take_take, Nat.min_self]
  · rw [List.append_assoc, List.drop_append, hl, List.drop_append, ← hab]
    simp [hl]

/-- **The law of the checksum.** -/
theorem ipChecksum_recompute (hn : 12 ≤ n) (hmax : n ≤ 131072) (hf : 14 + n ≤ f.length) :
    ipChecksum (((ipChecksumRecompute f n).drop 14).take n) = 0 := by
  have hz : ((blit f 24 [0, 0]).drop 14).take n = _ := header_blit (by omega) hn 0 0
  unfold ipChecksumRecompute
  rw [if_neg (by omega)]
  dsimp only
  rw [hz, putBe16, blit_blit (by simp; omega) (by simp), header_blit (by omega) hn]
  -- the words before the field and behind it
  have ha : ((f.drop 14).take 10).length % 2 = 0 := by
    rw [List.length_take, List.length_drop]
    omega
  have hsum : ∀ x y, wordSum ((f.drop 14).take 10 ++ ([x, y] ++ (f.drop 26).take (n - 12))) =
      wordSum ((f.drop 14).take 10) + (wordSum [x, y] + wordSum ((f.drop 26).take (n - 12))) := by
    intro x y
    rw [wordSum_append ha, wordSum_append (show [x, y].length % 2 = 0 by simp)]
  have hl₁ := wordSum_le ((f.drop 14).take 10)
  have hl₂ := wordSum_le ((f.drop 26).take (n - 12))
  rw [List.length_take, List.length_drop] at hl₁ hl₂
  unfold ipChecksum
  rw [hsum, hsum, wordSum_word]
  have h₀ : wordSum [(0 : Byte), 0] = 0 := rfl
  rw [h₀]
  generalize wordSum ((f.drop 14).take 10) = x at *
  generalize wordSum ((f.drop 26).take (n - 12)) = y at *
  have hxy : (x + (0 + y)) % 2 ^ 32 = x + y := by omega
  rw [hxy]
  obtain ⟨hlt, hmod, hzero⟩ := foldCarry_spec (s := x + y) (by omega)
  -- the checksum is the complement of the sum, so that the new sum is congruent to zero
  have hc : (~~~BitVec.ofNat 16 (foldCarry (x + y))).toNat = 65535 - foldCarry (x + y) := by
    rw [BitVec.toNat_not, BitVec.toNat_ofNat, Nat.mod_eq_of_lt hlt]
  rw [hc, Nat.mod_eq_of_lt (by omega), foldCarry_eq_max (by omega) (by omega) (by omega)]
  rfl

end Header

end LinuxRouter
