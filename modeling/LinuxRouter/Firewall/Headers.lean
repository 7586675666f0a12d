import LinuxRouter.Model.Forward
import LinuxRouter.Firewall.FirstMatch

/-!
# Firewall — the header checks

What `forward_task` knows of a frame behind its first step, and what the matcher and `forward_send`
make of it.

* `CutShort`: a frame that passes, although the last bytes of its datagram are missing.  The total
  length is compared with the length of the frame, Ethernet header included.
* `whole_packet_iff`: on every other frame that passes, the whole datagram is there, the matcher lets
  every rule decide, and `forward_send` reads received bytes only.

An Ethernet header is 14 bytes long, so that the test lets a datagram through that is up to 14 bytes
longer than what was received.  On every other frame that passes, `ruleMatch_conditions` says that
no guard of the matcher turns a rule away before its conditions are looked at, and
`forwardFrame_append` that the rewrite of `forward_send` has all it needs in the frame.
-/

namespace LinuxRouter

/-- The IP total length. -/
def totalLen (f : List Byte) : ℕ := (getBe16 f 16).toNat

/-- A frame of `len` bytes, in a block with the bytes of older frames behind it, is judged and
forwarded as the packet it is. -/
structure WholePacket (f : List Byte) (len : ℕ) : Prop where
  /-- the datagram is in the frame -/
  datagram : 14 + headerLen f ≤ 14 + totalLen f ∧ 14 + totalLen f ≤ len
  /-- no rule is skipped: its conditions decide -/
  judged : ∀ r, ruleMatch r f len = (addrMatch r f &&
    (r.proto < 0 || byteAt f 23 == BitVec.ofInt 8 r.proto.toInt) &&
      portMatch r f len (14 + headerLen f) && keywordMatch r f len (14 + headerLen f))
  /-- the header that is summed up is in the frame, so that the bytes behind the frame are not read -/
  summed : 14 + headerLen f ≤ len ∧ ∀ mac src,
    forwardFrame mac src f = forwardFrame mac src (f.take len) ++ f.drop len

/-- A frame that passes the header checks, but whose datagram ends behind it: its total length is at
most the frame's, but not with the 14 bytes of the Ethernet header. -/
def CutShort (f : List Byte) (len : ℕ) : Prop :=
  headerOk f len = true ∧ len - 14 < totalLen f ∧ totalLen f ≤ len

theorem headerOk_iff {f : List Byte} {len : ℕ} : headerOk f len = true ↔
    34 ≤ len ∧ byteAt f 14 >>> 4 = 4#8 ∧ 20 ≤ headerLen f ∧ headerLen f ≤ totalLen f ∧
      totalLen f ≤ len := by
  simp only [headerOk, totalLen, Bool.and_eq_true, decide_eq_true_eq, beq_iff_eq, and_assoc]

/-! ### The bytes behind a frame -/

section Behind

variable {p rest src : List Byte} {i : ℕ}

/-- The checksum of a header that is in the frame. -/
theorem ipChecksumRecompute_append {n : ℕ} (h : 14 + n ≤ p.length) (hn : 12 ≤ n) :
    ipChecksumRecompute (p ++ rest) n = ipChecksumRecompute p n ++ rest := by
  have h₂ : 24 + [(0 : Byte), 0].length ≤ p.length := by
    simp only [List.length_cons, List.length_nil]
    omega
  have hl := length_blit h₂
  have hd : (blit p 24 [0, 0] ++ rest).drop 14 = (blit p 24 [0, 0]).drop 14 ++ rest :=
    List.drop_append_of_le_length (by omega)
  have ht : ((blit p 24 [0, 0]).drop 14 ++ rest).take n = ((blit p 24 [0, 0]).drop 14).take n :=
    List.take_append_of_le_length (by rw [List.length_drop]; omega)
  unfold ipChecksumRecompute
  rw [if_neg (by omega), if_neg (by omega), blit_append h₂]
  dsimp only
  rw [hd, ht, putBe16, putBe16, blit_append (by rw [hl]; exact h₂)]

/-- **`forward_send` neither reads nor writes behind a frame that has its IP header.** -/
theorem forwardFrame_append (mac src : Mac) (h₃₄ : 34 ≤ p.length) (h₁₂ : 12 ≤ headerLen p)
    (h : 14 + headerLen p ≤ p.length) :
    forwardFrame mac src (p ++ rest) = forwardFrame mac src p ++ rest := by
  have hm : ∀ m : Mac, m.toList.length = 6 := fun m => by simp
  have h₀ : 0 + mac.toList.length ≤ p.length := by
    rw [hm]
    omega
  have h₁ : 6 + src.toList.length ≤ (blit p 0 mac.toList).length := by
    rw [hm, length_blit h₀]
    omega
  have h₂ : ∀ b : Byte, 22 + [b].length ≤ (blit (blit p 0 mac.toList) 6 src.toList).length := by
    intro b
    rw [length_blit h₁, length_blit h₀, List.length_singleton]
    omega
  have hlen : ∀ b : Byte,
      (blit (blit (blit p 0 mac.toList) 6 src.toList) 22 [b]).length = p.length := by
    intro b
    rw [length_blit (h₂ b), length_blit h₁, length_blit h₀]
  -- the header's length is read behind the three writes
  have hihl : ∀ b : Byte,
      headerLen (blit (blit (blit p 0 mac.toList) 6 src.toList) 22 [b]) = headerLen p := by
    intro b
    rw [headerLen, headerLen, byteAt_blit (h₂ b) (.inl (by decide)),
      byteAt_blit h₁ (.inr (by rw [hm]; decide)), byteAt_blit h₀ (.inr (by rw [hm]; decide))]
  have happ : ∀ q : List Byte, 14 < q.length → headerLen (q ++ rest) = headerLen q := by
    intro q hq
    rw [headerLen, headerLen, byteAt_append hq]
  unfold forwardFrame
  dsimp only
  rw [blit_append h₀, blit_append h₁, byteAt_append (by rw [length_blit h₁, length_blit h₀]; omega),
    blit_append (h₂ _), happ _ (by rw [hlen]; omega), hihl,
    ipChecksumRecompute_append (by rw [hlen]; exact h) h₁₂]

end Behind

/-! ### The checks -/

variable {f : List Byte} {len : ℕ}

/-- `rule_match` behind its guards. -/
theorem ruleMatch_conditions (h₃₄ : 34 ≤ len) (hv : byteAt f 14 >>> 4 = 4#8) (h₂₀ : 20 ≤ headerLen f)
    (hle : 14 + headerLen f ≤ len) (r : FwRule) : ruleMatch r f len = (addrMatch r f &&
      (r.proto < 0 || byteAt f 23 == BitVec.ofInt 8 r.proto.toInt) &&
        portMatch r f len (14 + headerLen f) && keywordMatch r f len (14 + headerLen f)) := by
  unfold ruleMatch
  dsimp only
  rw [if_neg (by omega), if_neg (not_not.mpr hv), if_neg (by omega)]

/-- **Only whole packets are judged and forwarded**, exactly but for the frames that are cut short: the
length check of `forward_task` leaves out the 14 bytes of the Ethernet header, so that it passes a
datagram which ends up to 14 bytes behind the frame.  Every other frame that passes is judged by all
its fields and forwarded without a byte from behind it. -/
theorem whole_packet_iff (f : List Byte) (len : ℕ) :
    (headerOk f len = true → WholePacket f len) ↔ ¬ CutShort f len := by
  constructor
  · rintro h ⟨hok, hlt, -⟩
    have := (h hok).datagram.2
    omega
  · intro h hok
    obtain ⟨h₃₄, hv, h₂₀, hi, htot⟩ := headerOk_iff.mp hok
    have hle : 14 + totalLen f ≤ len := by
      by_contra hlt
      exact h ⟨hok, by omega, htot⟩
    have hhdr : 14 + headerLen f ≤ len := (Nat.add_le_add_left hi 14).trans hle
    refine ⟨⟨Nat.add_le_add_left hi 14, hle⟩, ruleMatch_conditions h₃₄ hv h₂₀ hhdr, hhdr, ?_⟩
    intro mac src
    rcases Nat.lt_or_ge f.length len with hf | hf
    · rw [List.take_of_length_le hf.le, List.drop_eq_nil_of_le hf.le, List.append_nil]
    · have hl : (f.take len).length = len := by
        rw [List.length_take]
        omega
      have hh : headerLen (f.take len) = headerLen f := by
        rw [headerLen, headerLen, byteAt_take (by omega)]
      conv_lhs => rw [← List.take_append_drop len f]
      exact forwardFrame_append mac src (by omega) (by omega) (by omega)

/-- A frame of 34 bytes with a total length of 34. -/
def cutFrame : List Byte :=
  List.replicate 12 2 ++ [8, 0, 0x45, 0, 0, 34, 0, 0, 0, 0, 64] ++ List.replicate 7 0 ++ [10, 1, 0, 2]

/-- It passes, although the last 14 bytes of its datagram are missing: the total length is compared
with the length of the frame, the Ethernet header included. -/
theorem whole_packet_cut :
    ¬ ∀ f : List Byte, headerOk f f.length = true → 14 + totalLen f ≤ f.length := by
  intro h
  have hlt : ¬ 14 + totalLen cutFrame ≤ cutFrame.length := by decide
  exact hlt (h cutFrame (by decide))

end LinuxRouter
