import LinuxRouter.Model.Router

/-!
# Model — Bytes

How the readers and the writers of a frame's fields compose.

* A reader sees the bytes of its field only: `byteAt_take`, `byteAt_drop`, `byteAt_append`, and the
  same for the wider fields.
* A write that fits leaves every other field (`Patched`), and gives its own one back
  (`macAt_blit_self`, `getBe16_putBe16`, `getBe32_putBe32`).
-/

namespace LinuxRouter

variable {f p rest src : List Byte} {n i j : ℕ}

/-! ### Readers -/

theorem byteAt_take (h : i < n) : byteAt (f.take n) i = byteAt f i := by
  rw [byteAt, byteAt, List.getD_eq_getElem?_getD, List.getD_eq_getElem?_getD,
    List.getElem?_take_of_lt h]

theorem byteAt_drop (f : List Byte) (n i : ℕ) : byteAt (f.drop n) i = byteAt f (n + i) := by
  rw [byteAt, byteAt, List.getD_eq_getElem?_getD, List.getD_eq_getElem?_getD, List.getElem?_drop]

theorem byteAt_append (h : i < p.length) : byteAt (p ++ rest) i = byteAt p i := by
  rw [byteAt, byteAt, List.getD_eq_getElem?_getD, List.getD_eq_getElem?_getD,
    List.getElem?_append_left h]

theorem getBe16_take (h : i + 1 < n) : getBe16 (f.take n) i = getBe16 f i := by
  rw [getBe16, getBe16, byteAt_take (by omega), byteAt_take h]

theorem getBe16_drop (f : List Byte) (n i : ℕ) : getBe16 (f.drop n) i = getBe16 f (n + i) := by
  rw [getBe16, getBe16, byteAt_drop, byteAt_drop, Nat.add_assoc]

theorem getBe32_take (h : i + 3 < n) : getBe32 (f.take n) i = getBe32 f i := by
  rw [getBe32, getBe32, byteAt_take (by omega), byteAt_take (by omega), byteAt_take (by omega),
    byteAt_take h]

theorem getBe32_drop (f : List Byte) (n i : ℕ) : getBe32 (f.drop n) i = getBe32 f (n + i) := by
  simp only [getBe32, byteAt_drop, Nat.add_assoc]

theorem macAt_take (h : i + 5 < n) : macAt (f.take n) i = macAt f i := by
  refine Vector.ext fun j hj => ?_
  simp only [macAt, Vector.getElem_ofFn]
  exact byteAt_take (by omega)

/-- A field of two bytes is read where they are. -/
theorem getBe16_congr (h : ∀ n < 2, byteAt f (i + n) = byteAt p (j + n)) :
    getBe16 f i = getBe16 p j := by
  rw [getBe16, getBe16, h 1 (by decide), show byteAt f i = byteAt p j from h 0 (by decide)]

theorem getBe32_congr (h : ∀ n < 4, byteAt f (i + n) = byteAt p (j + n)) :
    getBe32 f i = getBe32 p j := by
  rw [getBe32, getBe32, h 1 (by decide), h 2 (by decide), h 3 (by decide),
    show byteAt f i = byteAt p j from h 0 (by decide)]

/-! ### Writers -/

theorem length_blit (h : i + src.length ≤ p.length) : (blit p i src).length = p.length := by
  simp only [blit, List.length_append, List.length_take, List.length_drop]
  omega

/-- A write to a frame leaves the bytes behind it. -/
theorem blit_append (h : i + src.length ≤ p.length) :
    blit (p ++ rest) i src = blit p i src ++ rest := by
  rw [blit, blit, List.take_append_of_le_length (by omega), List.drop_append_of_le_length h]
  simp only [List.append_assoc]

theorem byteAt_blit (h : i + src.length ≤ p.length) {j : ℕ} (hj : j < i ∨ i + src.length ≤ j) :
    byteAt (blit p i src) j = byteAt p j := by
  have hl : (p.take i).length = i := by
    rw [List.length_take]
    omega
  rw [byteAt, byteAt, List.getD_eq_getElem?_getD, List.getD_eq_getElem?_getD, blit, List.append_assoc]
  rcases hj with hj | hj
  · rw [List.getElem?_append_left (by omega), List.getElem?_take_of_lt hj]
  · rw [List.getElem?_append_right (by omega), List.getElem?_append_right (by omega),
      List.getElem?_drop, hl]
    congr 2
    omega

/-- What was written is read. -/
theorem byteAt_blit_self (h : i ≤ p.length) (hj : j < src.length) :
    byteAt (blit p i src) (i + j) = byteAt src j := by
  have hl : (p.take i).length = i := by
    rw [List.length_take]
    omega
  rw [blit, List.append_assoc, byteAt, byteAt, List.getD_eq_getElem?_getD,
    List.getD_eq_getElem?_getD, List.getElem?_append_right (by omega), hl, Nat.add_sub_cancel_left,
    List.getElem?_append_left hj]

/-- A write at the front needs no room. -/
theorem byteAt_blit_zero (h : i < src.length) : byteAt (blit p 0 src) i = byteAt src i := by
  simpa only [Nat.zero_add] using byteAt_blit_self (p := p) (Nat.zero_le _) h

/-! The field that is written. -/

theorem macAt_blit_self (h : i ≤ p.length) (mac : Mac) : macAt (blit p i mac.toList) i = mac := by
  refine Vector.ext fun j hj => ?_
  simp only [macAt, Vector.getElem_ofFn]
  rw [byteAt_blit_self h (by simpa using hj), byteAt, List.getD_eq_getElem?_getD]
  simp [hj]

theorem getBe16_bytes (v : BitVec 16) : getBe16 [(v >>> 8).setWidth 8, v.setWidth 8] 0 = v := by
  refine BitVec.eq_of_getLsbD_eq fun i hi => ?_
  simp only [getBe16, byteAt, List.getD_cons_zero, List.getD_cons_succ, BitVec.getLsbD_or,
    BitVec.getLsbD_shiftLeft, BitVec.getLsbD_setWidth, BitVec.getLsbD_ushiftRight]
  by_cases h : i < 8
  · simp [h, hi]
  · have e : 8 + (i - 8) = i := by omega
    simp only [h, e, show i - 8 < 8 by omega, show i - 8 < 16 by omega, hi, decide_true,
      decide_false, Bool.not_false, Bool.true_and, Bool.false_and, Bool.or_false]

theorem getBe32_bytes (v : Ip) :
    getBe32 [(v >>> 24).setWidth 8, (v >>> 16).setWidth 8, (v >>> 8).setWidth 8, v.setWidth 8] 0 =
      v := by
  refine BitVec.eq_of_getLsbD_eq fun i hi => ?_
  simp only [getBe32, byteAt, List.getD_cons_zero, List.getD_cons_succ, BitVec.getLsbD_or,
    BitVec.getLsbD_shiftLeft, BitVec.getLsbD_setWidth, BitVec.getLsbD_ushiftRight]
  -- the byte that the bit is in
  have hbyte : i < 8 ∨ 8 ≤ i ∧ i < 16 ∨ 16 ≤ i ∧ i < 24 ∨ 24 ≤ i := by omega
  rcases hbyte with h | ⟨h, h'⟩ | ⟨h, h'⟩ | h
  · simp [h, hi, show i < 16 by omega, show i < 24 by omega]
  · have e : 8 + (i - 8) = i := by omega
    simp [e, h', hi, show ¬ i < 8 by omega, show i < 24 by omega, show i - 8 < 8 by omega,
      show i - 8 < 32 by omega]
  · have e : 16 + (i - 16) = i := by omega
    simp [e, h', hi, show ¬ i < 8 by omega, show ¬ i < 16 by omega, show ¬ i - 8 < 8 by omega,
      show i - 16 < 8 by omega, show i - 16 < 32 by omega]
  · have e : 24 + (i - 24) = i := by omega
    simp [e, hi, show ¬ i < 8 by omega, show ¬ i < 16 by omega, show ¬ i < 24 by omega,
      show ¬ i - 8 < 8 by omega, show ¬ i - 16 < 8 by omega, show i - 24 < 8 by omega,
      show i - 24 < 32 by omega]

theorem getBe16_putBe16 (h : i ≤ p.length) (v : BitVec 16) : getBe16 (putBe16 p i v) i = v := by
  refine (getBe16_congr fun n hn => ?_).trans (getBe16_bytes v)
  rw [Nat.zero_add]
  exact byteAt_blit_self h hn

theorem getBe32_putBe32 (h : i ≤ p.length) (v : Ip) : getBe32 (putBe32 p i v) i = v := by
  refine (getBe32_congr fun n hn => ?_).trans (getBe32_bytes v)
  rw [Nat.zero_add]
  exact byteAt_blit_self h hn

/-! ### A frame with some bytes written -/

/-- `q` is `p` with the `n` bytes at `i` written. -/
structure Patched (p q : List Byte) (i n : ℕ) : Prop where
  length : q.length = p.length
  outside : ∀ j, j < i ∨ i + n ≤ j → byteAt q j = byteAt p j

theorem patched_blit (h : i + src.length ≤ p.length) : Patched p (blit p i src) i src.length :=
  ⟨length_blit h, fun _ hj => byteAt_blit h hj⟩

theorem patched_mac (h : i + 6 ≤ p.length) (mac : Mac) : Patched p (blit p i mac.toList) i 6 := by
  have hm : mac.toList.length = 6 := by simp
  have hp := @patched_blit p mac.toList i (hm.symm ▸ h)
  rwa [hm] at hp

theorem patched_putBe16 (h : i + 2 ≤ p.length) (v : BitVec 16) : Patched p (putBe16 p i v) i 2 :=
  patched_blit h

theorem patched_putBe32 (h : i + 4 ≤ p.length) (v : Ip) : Patched p (putBe32 p i v) i 4 :=
  patched_blit h

namespace Patched

variable {q : List Byte}

/-! A field outside the bytes that are written. -/

theorem getBe16 (h : Patched p q i n) (hj : j + 2 ≤ i ∨ i + n ≤ j) :
    getBe16 q j = LinuxRouter.getBe16 p j :=
  getBe16_congr fun m hm => h.outside _ (by omega)

theorem getBe32 (h : Patched p q i n) (hj : j + 4 ≤ i ∨ i + n ≤ j) :
    getBe32 q j = LinuxRouter.getBe32 p j :=
  getBe32_congr fun m hm => h.outside _ (by omega)

theorem macAt (h : Patched p q i n) (hj : j + 6 ≤ i ∨ i + n ≤ j) :
    macAt q j = LinuxRouter.macAt p j := by
  refine Vector.ext fun m hm => ?_
  simp only [LinuxRouter.macAt, Vector.getElem_ofFn]
  exact h.outside _ (by omega)

end Patched

end LinuxRouter
