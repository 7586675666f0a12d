import Mathlib.Data.List.GetD
import LinuxRouter.Support.Sha2
import LinuxRouter.Model.Sha256

/-!
# Upgrade — the hash

The streaming hash of `sha256.c` is SHA-256.

* `shaTransform_eq`: its `transform` is the hash of a block.
* `Hashing c m` says that `c` has taken in `m`, however it was cut; `Hashing.update` is the step.
* `Hashing.final`: the digest at its end.
* `sha256_streams`: over any list of pieces.

The state of the hash is a chaining value, a buffer of fewer than 64 bytes and the length so far.
`Hashing c m` says that the whole blocks of `m` have been compressed into the first, that the rest
of `m` is in the second, and that the third counts `m` in bits.  It holds of the beginning, an
update keeps it by filling up the block and going on with the rest, and at the end the padding of
the code is the padding of the standard.  The standard itself is `Support/Sha2`, on whole messages,
and nothing of it is about pieces.
-/

namespace LinuxRouter

open Text (Byte)

/-! ### A block -/

theorem shaK_eq : shaK = (List.range 64).map Sha2.K := by decide +kernel

/-- The chaining value at the start. -/
theorem shaH0_eq : shaH0 = Sha2.H0 := by decide +kernel

/-- A byte in its place in a word. -/
theorem toNat_shl {a : Byte} {k : ℕ} (hk : k ≤ 24) :
    (a.setWidth 32 <<< k).toNat = a.toNat <<< k := by
  have ha : a.toNat < 2 ^ 8 := a.isLt
  have ha' : a.toNat < 2 ^ 32 := ha.trans (by decide)
  have hlt : a.toNat <<< k < 2 ^ 32 := by
    rw [Nat.shiftLeft_eq]
    calc a.toNat * 2 ^ k < 2 ^ 8 * 2 ^ k := Nat.mul_lt_mul_of_pos_right ha (Nat.two_pow_pos k)
      _ ≤ 2 ^ 8 * 2 ^ 24 := Nat.mul_le_mul_left _ (Nat.pow_le_pow_right (by decide) hk)
      _ = 2 ^ 32 := rfl
  rw [BitVec.toNat_shiftLeft, BitVec.toNat_setWidth, Nat.mod_eq_of_lt ha', Nat.mod_eq_of_lt hlt]

/-- Four bytes, most significant first, are a word. -/
theorem be32_eq (a b c d : Byte) :
    a.setWidth 32 <<< 24 ||| b.setWidth 32 <<< 16 ||| c.setWidth 32 <<< 8 ||| d.setWidth 32 =
      Sha2.word a b c d := by
  have hd : (d.setWidth 32).toNat = d.toNat := by
    rw [BitVec.toNat_setWidth]
    omega
  refine BitVec.eq_of_toNat_eq ?_
  simp only [Sha2.word, BitVec.toNat_or, toNat_shl (le_refl 24), toNat_shl (show 16 ≤ 24 by decide),
    toNat_shl (show 8 ≤ 24 by decide), hd, BitVec.toNat_append, Nat.shiftLeft_or_distrib,
    ← Nat.shiftLeft_add]

theorem loadBe32_eq (block : List Byte) (t : ℕ) :
    loadBe32 (block.drop (t * 4)) = Sha2.blockWord block t := by
  have hget : ∀ i, (block.drop (t * 4)).getD i 0 = block.getD (4 * t + i) 0 := by
    intro i
    rw [List.getD_eq_getElem?_getD, List.getD_eq_getElem?_getD, List.getElem?_drop, Nat.mul_comm]
  simp only [loadBe32, hget, be32_eq]
  rfl

theorem storeBe32_eq (v : Word) : storeBe32 v = Sha2.wordBytes v := by
  simp only [storeBe32, Sha2.wordBytes, ← BitVec.setWidth_ushiftRight_eq_extractLsb,
    BitVec.ushiftRight_zero]

/-- The rounds that extend the schedule. -/
theorem shaExtend_spec {block : List Byte} (n : ℕ) {w : List Word} (hl : 16 ≤ w.length)
    (hw : ∀ t < w.length, w.getD t 0 = Sha2.schedule block t) :
    (shaExtend n w).length = w.length + n ∧
      ∀ t < w.length + n, (shaExtend n w).getD t 0 = Sha2.schedule block t := by
  induction n generalizing w with
  | zero => exact ⟨rfl, hw⟩
  | succ n ih =>
      obtain ⟨x, hx, hnext⟩ : ∃ x, x = Sha2.schedule block w.length ∧
          shaExtend (n + 1) w = shaExtend n (w ++ [x]) := by
        refine ⟨_, ?_, rfl⟩
        rw [hw _ (by omega), hw _ (by omega), hw _ (by omega), hw _ (by omega)]
        conv_rhs => rw [Sha2.schedule, if_neg (by omega)]
        rfl
      have hl' : (w ++ [x]).length = w.length + 1 := by simp
      obtain ⟨h₁, h₂⟩ := ih (w := w ++ [x]) (by omega) fun t ht => by
        by_cases htw : t < w.length
        · rw [List.getD_append _ _ _ _ htw]
          exact hw t htw
        · obtain rfl : t = w.length := by omega
          rw [List.getD_append_right _ _ _ _ le_rfl, Nat.sub_self, List.getD_cons_zero, hx]
      rw [hnext]
      exact ⟨by omega, fun t ht => h₂ t (by omega)⟩

/-- The words of a block. -/
theorem loadBe32_words (block : List Byte) (n : ℕ) {t : ℕ} (ht : t < n) (hn : n ≤ 16) :
    ((List.range n).map fun i => loadBe32 (block.drop (i * 4))).getD t 0 =
      Sha2.schedule block t := by
  rw [List.getD_eq_getElem _ _ (by simpa using ht), List.getElem_map, List.getElem_range,
    loadBe32_eq, Sha2.schedule, if_pos (by omega)]

/-- The message schedule of a block. -/
theorem shaSchedule_eq (block : List Byte) :
    shaSchedule block = (List.range 64).map (Sha2.schedule block) := by
  have hlen : ((List.range 16).map fun i => loadBe32 (block.drop (i * 4))).length = 16 := by
    rw [List.length_map, List.length_range]
  have hspec := @shaExtend_spec block 48 _ hlen.ge fun t ht =>
    loadBe32_words block 16 (hlen ▸ ht) le_rfl
  rw [hlen, ← shaSchedule] at hspec
  generalize shaSchedule block = w at hspec
  obtain ⟨hl, hw⟩ := hspec
  refine List.ext_getElem (by rw [hl, List.length_map, List.length_range]) fun t ht _ => ?_
  rw [List.getElem_map, List.getElem_range, ← hw t (by omega), List.getD_eq_getElem]

/-- **A block.** -/
theorem shaTransform_eq (h : Vector Word 8) (block : List Byte) :
    shaTransform h block = Sha2.compress h block := by
  rw [shaTransform, Sha2.compress, shaK_eq, shaSchedule_eq, List.zip_map', List.foldl_map]
  rfl

/-! ### A message -/

/-- The hash has taken in `m`. -/
structure Hashing (c : Sha256) (m : List Byte) : Prop where
  state : c.state = Sha2.chain m
  buf : c.buf = Sha2.pending m
  bitlen : c.bitlen = BitVec.ofNat 64 (8 * m.length)

theorem hashing_init : Hashing sha256Init [] := by
  refine ⟨?_, rfl, rfl⟩
  simp [sha256Init, shaH0_eq, Sha2.chain, Sha2.blocks]

/-- The loop of `sha256_update` takes in all it is given. -/
theorem absorb_spec (n : ℕ) {c : Sha256} {m p : List Byte} (hn : p.length ≤ n)
    (hs : c.state = Sha2.chain m) (hb : c.buf = Sha2.pending m) :
    (sha256Absorb n c p).state = Sha2.chain (m ++ p) ∧
      (sha256Absorb n c p).buf = Sha2.pending (m ++ p) ∧
      (sha256Absorb n c p).bitlen = c.bitlen := by
  induction n generalizing c m p with
  | zero =>
      obtain rfl : p = [] := List.eq_nil_of_length_eq_zero (by omega)
      simpa [sha256Absorb] using ⟨hs, hb⟩
  | succ n ih =>
      unfold sha256Absorb
      split
      · rename_i hp
        subst hp
        simpa using ⟨hs, hb⟩
      · rename_i hp
        have hpos : 0 < p.length := List.length_pos_iff.mpr hp
        have hlb : c.buf.length < 64 := by
          rw [hb, Sha2.length_pending]
          omega
        dsimp only
        -- one turn of the loop: as much as the buffer has room for
        generalize ht : min (64 - c.buf.length) p.length = take
        have hlt : (Sha2.pending m ++ p.take take).length = c.buf.length + take := by
          rw [List.length_append, List.length_take, ← hb]
          omega
        have hrest : (p.drop take).length ≤ n := by
          rw [List.length_drop]
          omega
        have hmp : m ++ p = (m ++ p.take take) ++ p.drop take := by
          rw [List.append_assoc, List.take_append_drop]
        rw [hb, hs, hmp]
        split
        · rename_i hfull
          -- the block is full and is transformed
          obtain ⟨h₁, h₂⟩ := Sha2.chain_full (m := m) hfull
          exact ih hrest (by rw [shaTransform_eq, h₁]) h₂.symm
        · rename_i hsmall
          obtain ⟨h₁, h₂⟩ := Sha2.chain_small (m := m) (q := p.take take) (by omega)
          exact ih hrest h₁.symm h₂.symm

/-- **A piece** more. -/
theorem Hashing.update {c : Sha256} {m : List Byte} (h : Hashing c m) (p : List Byte) :
    Hashing (sha256Update c p) (m ++ p) := by
  obtain ⟨hs, hb, hl⟩ := absorb_spec p.length le_rfl
    (c := { c with bitlen := c.bitlen + BitVec.ofNat 64 (p.length * 8) }) h.state h.buf
  refine ⟨hs, hb, hl.trans ?_⟩
  simp only [h.bitlen, List.length_append, Nat.mul_add, BitVec.ofNat_add, Nat.mul_comm p.length 8]

/-- The length, as `sha256_final` stores it. -/
theorem bitlen_bytes {n : ℕ} (hn : n < 2 ^ 61) :
    ((List.range 8).map fun i => (BitVec.ofNat 64 (8 * n) >>> (56 - i * 8)).setWidth 8) =
      Sha2.lengthBytes n := by
  refine List.map_congr_left fun i _ => BitVec.eq_of_toNat_eq ?_
  have hlt : 8 * n < 2 ^ 64 := by omega
  rw [BitVec.toNat_setWidth, BitVec.toNat_ushiftRight, BitVec.toNat_ofNat, BitVec.toNat_ofNat,
    Nat.mod_eq_of_lt hlt, Nat.shiftRight_eq_div_pow, Nat.mul_comm i 8]

/-- **The digest** of what the hash has taken in. -/
theorem Hashing.final {c : Sha256} {m : List Byte} (h : Hashing c m) (hm : m.length < 2 ^ 61) :
    sha256Final c = Sha2.digest m := by
  have hlen : (Sha2.pending m).length = m.length % 64 := Sha2.length_pending m
  have hbytes : (Sha2.lengthBytes m.length).length = 8 := by simp [Sha2.lengthBytes]
  simp only [sha256Final, h.state, h.buf, h.bitlen, bitlen_bytes hm, shaTransform_eq, Sha2.digest_eq,
    List.length_append, List.length_singleton, hlen]
  have hfinal : ∀ {v w : Vector Word 8}, v = w →
      v.toList.flatMap storeBe32 = w.toList.flatMap Sha2.wordBytes := by
    rintro v _ rfl
    rw [funext storeBe32_eq]
  refine hfinal ?_
  split
  · rename_i hlong
    -- the zeros run over into a second block
    have hk : (119 - m.length % 64) % 64 = (64 - (m.length % 64 + 1)) + 56 := by omega
    obtain ⟨h₁, h₂⟩ := Sha2.chain_full (m := m)
      (q := [0x80#8] ++ List.replicate (64 - (m.length % 64 + 1)) 0#8) (by
        simp only [List.length_append, List.length_singleton, List.length_replicate, hlen]
        omega)
    obtain ⟨h₃, -⟩ := Sha2.chain_full
      (m := m ++ ([0x80#8] ++ List.replicate (64 - (m.length % 64 + 1)) 0#8))
      (q := List.replicate 56 0#8 ++ Sha2.lengthBytes m.length) (by
        simp only [h₂, List.nil_append, List.length_append, List.length_replicate, hbytes])
    rw [h₂, h₁] at h₃
    rw [hk, ← List.replicate_append_replicate]
    simp only [List.append_assoc, List.nil_append, List.length_nil, Nat.sub_zero] at h₃ ⊢
    exact h₃.symm
  · rename_i hshort
    have hk : (119 - m.length % 64) % 64 = 56 - (m.length % 64 + 1) := by omega
    obtain ⟨h₁, -⟩ := Sha2.chain_full (m := m) (q := [0x80#8] ++
      List.replicate (56 - (m.length % 64 + 1)) 0#8 ++ Sha2.lengthBytes m.length) (by
        simp only [List.length_append, List.length_singleton, List.length_replicate, hlen, hbytes]
        omega)
    rw [hk, h₁]
    simp only [List.append_assoc, List.length_append, List.length_singleton, hlen]
    rfl

/-- Less than a block is kept. -/
theorem Hashing.buf_lt {c : Sha256} {m : List Byte} (h : Hashing c m) : c.buf.length < 64 := by
  rw [h.buf, Sha2.length_pending]
  exact Nat.mod_lt _ (by decide)

theorem Hashing.updates {c : Sha256} {m : List Byte} (h : Hashing c m) (chunks : List (List Byte)) :
    Hashing (chunks.foldl sha256Update c) (m ++ chunks.flatten) := by
  induction chunks generalizing c m with
  | nil => simpa using h
  | cons p chunks ih =>
      rw [List.foldl_cons, List.flatten_cons, ← List.append_assoc]
      exact ih (h.update p)

/-- **Streaming SHA-256 is SHA-256**, however the data was cut: after any updates the context hashes
their concatenation, and what `sha256_final` writes is the digest of the standard's definition, with
its padding and its length in bits.  Less than a block is kept between the calls. -/
theorem sha256_streams (chunks : List (List Byte)) (h : chunks.flatten.length < 2 ^ 61) :
    sha256Final (chunks.foldl sha256Update sha256Init) = Sha2.digest chunks.flatten ∧
      ∀ n, ((chunks.take n).foldl sha256Update sha256Init).buf.length < 64 :=
  ⟨(hashing_init.updates chunks).final h, fun n => (hashing_init.updates (chunks.take n)).buf_lt⟩

/-- The three bytes of `abc`, in two pieces and an empty one. -/
theorem sha256_streams_abc :
    sha256Final ([[97, 98], [], [99]].foldl sha256Update sha256Init) = Sha2.digest [97, 98, 99] ∧
      ∀ n, (([[97, 98], [], [99]].take n).foldl sha256Update sha256Init).buf.length < 64 :=
  sha256_streams [[97, 98], [], [99]] (by decide)

end LinuxRouter
