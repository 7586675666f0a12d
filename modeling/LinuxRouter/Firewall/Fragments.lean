import Mathlib.Data.List.Find
import LinuxRouter.Firewall.Headers

/-!
# Firewall — fragments

A fragment with an offset carries no transport header.  `rule_match` looks at the offset before it
searches for a keyword, but not before it compares ports.

* `PortsOnly`: no rule with a port matches fragments with this header, and the verdict is one,
  whatever their payload is.
* `TakesPorts`: the rules that take the first bytes of such a payload for ports.
* `port_rules_iff`: there is one exactly if the payload can decide.

The order of two tests decides.  A rule with a keyword is turned away at the offset of the fragment;
a rule with a port never sees the offset, and reads the first four bytes behind the header, whatever
they are.  `ruleMatch_eq` is `rule_match` on such a fragment with that order carried out.  For the
converse a payload is built that has the ports a given rule asks for (`exists_match`), so that the
condition is exact.
-/

namespace LinuxRouter

open Text (lit)

/-- An IPv4 frame of `len` bytes, with its IP header, whose fragment offset is not zero. -/
structure LaterFragment (f : List Byte) (len : ℕ) : Prop where
  bytes : len ≤ f.length
  room : 34 ≤ len
  version : byteAt f 14 >>> 4 = 4#8
  header : 20 ≤ headerLen f ∧ 14 + headerLen f ≤ len
  offset : getBe16 f 20 &&& 0x1fff#16 ≠ 0

/-- The frame `g` is the frame `f` with another payload. -/
structure SameHeader (f g : List Byte) : Prop where
  length : g.length = f.length
  header : ∀ i < 14 + headerLen f, byteAt g i = byteAt f i

/-- The rule has a source or a destination port. -/
def FwRule.asksPort (r : FwRule) : Prop := ¬ (r.sport < 0 ∧ r.dport < 0)

/-- For fragments with the header of this one, whatever their payload is, no rule with a port matches,
and the verdict is one. -/
def PortsOnly (rules : List FwRule) (f : List Byte) (len : ℕ) : Prop :=
  ∀ g, SameHeader f g →
    (∀ r ∈ rules, r.asksPort → ruleMatch r g len = false) ∧ fwCheck rules g len = fwCheck rules f len

/-- The rule takes the first bytes of the payload for ports: it has a port and no keyword, the header is
one that it is for, with TCP or UDP in it, and four bytes follow. -/
structure TakesPorts (r : FwRule) (f : List Byte) (len : ℕ) : Prop where
  asks : r.asksPort
  word : r.keyword.1 = []
  addr : addrMatch r f = true
  proto : (decide (r.proto < 0) || byteAt f 23 == BitVec.ofInt 8 r.proto.toInt) = true
  tcpUdp : isTcpUdp f = true
  room : 14 + headerLen f + 4 ≤ len
  ports : r.sport.toInt ≤ 65535 ∧ r.dport.toInt ≤ 65535

variable {f g : List Byte} {len : ℕ} {r : FwRule}

/-! ### The header -/

namespace SameHeader

theorem refl (f : List Byte) : SameHeader f f := ⟨rfl, fun _ _ => rfl⟩

theorem getBe16 {i : ℕ} (h : SameHeader f g) (hi : i + 2 ≤ 14 + headerLen f) :
    getBe16 g i = LinuxRouter.getBe16 f i :=
  getBe16_congr fun n hn => h.header _ (by omega)

theorem getBe32 {i : ℕ} (h : SameHeader f g) (hi : i + 4 ≤ 14 + headerLen f) :
    getBe32 g i = LinuxRouter.getBe32 f i :=
  getBe32_congr fun n hn => h.header _ (by omega)

variable (h : SameHeader f g) (h₂₀ : 20 ≤ headerLen f)
include h h₂₀

theorem headerLen_eq : headerLen g = headerLen f := by
  rw [headerLen, headerLen, h.header 14 (by omega)]

theorem addrMatch_eq (r : FwRule) : addrMatch r g = addrMatch r f := by
  rw [addrMatch, addrMatch, h.getBe32 (by omega), h.getBe32 (by omega)]

theorem isTcpUdp_eq : isTcpUdp g = isTcpUdp f := by
  rw [isTcpUdp, isTcpUdp, h.header 23 (by omega)]

end SameHeader

namespace LaterFragment

theorem sameHeader (h : LaterFragment f len) (hs : SameHeader f g) : LaterFragment g len where
  bytes := hs.length ▸ h.bytes
  room := h.room
  version := by
    have h₂₀ := h.header.1
    rw [hs.header 14 (by omega)]
    exact h.version
  header := hs.headerLen_eq h.header.1 ▸ h.header
  offset := by
    have h₂₀ := h.header.1
    rw [hs.getBe16 (by omega)]
    exact h.offset

/-- A rule with a keyword does not match. -/
theorem keywordMatch_eq (h : LaterFragment f len) (r : FwRule) :
    keywordMatch r f len (14 + headerLen f) = decide (r.keyword.1 = []) := by
  have hoff : ∀ v : BitVec 16, v &&& 0x1fff#16 ≠ 0 → (v &&& 0x1fff#16) <<< 3 ≠ 0 := by
    intro v hv he
    refine hv (BitVec.eq_of_toNat_eq ?_)
    have hlt : (v &&& 0x1fff#16).toNat ≤ 0x1fff := by
      rw [BitVec.toNat_and]
      exact Nat.and_le_right
    have he := congrArg BitVec.toNat he
    rw [BitVec.toNat_shiftLeft, Nat.shiftLeft_eq, Nat.mod_eq_of_lt (by omega)] at he
    simp only [BitVec.ofNat_eq_ofNat, BitVec.toNat_ofNat, Nat.zero_mod] at he ⊢
    omega
  unfold keywordMatch
  split
  · rename_i hk
    simp [hk]
  · rename_i hk
    rw [if_pos (hoff _ h.offset), decide_eq_false hk]

theorem ruleMatch_eq (h : LaterFragment f len) (r : FwRule) : ruleMatch r f len = (addrMatch r f &&
    (decide (r.proto < 0) || byteAt f 23 == BitVec.ofInt 8 r.proto.toInt) &&
      portMatch r f len (14 + headerLen f) && decide (r.keyword.1 = [])) := by
  rw [ruleMatch_conditions h.room h.version h.header.1 h.header.2, h.keywordMatch_eq]

/-- A rule without a port does not look at the payload. -/
theorem ruleMatch_header (h : LaterFragment f len) (hs : SameHeader f g) (hr : ¬ r.asksPort) :
    ruleMatch r g len = ruleMatch r f len := by
  have h₂₀ := h.header.1
  have hports : ∀ p l, portMatch r p len l = true := by
    intro p l
    obtain ⟨h₁, h₂⟩ := not_not.mp hr
    simp [portMatch, h₁, h₂]
  rw [(h.sameHeader hs).ruleMatch_eq, h.ruleMatch_eq, hports, hports, hs.addrMatch_eq h₂₀,
    hs.header 23 (by omega)]

/-- A rule with a port that matches takes the payload for ports. -/
theorem takesPorts_of_match (h : LaterFragment f len) (hs : SameHeader f g) (hr : r.asksPort)
    (hm : ruleMatch r g len = true) : TakesPorts r f len := by
  have h₂₀ := h.header.1
  rw [(h.sameHeader hs).ruleMatch_eq, hs.addrMatch_eq h₂₀, hs.header 23 (by omega),
    hs.headerLen_eq h₂₀] at hm
  simp only [Bool.and_eq_true, decide_eq_true_eq] at hm
  obtain ⟨⟨⟨haddr, hproto⟩, hports⟩, hword⟩ := hm
  have hno : (decide (r.sport < 0) && decide (r.dport < 0)) = false := by
    rw [← Bool.not_eq_true, Bool.and_eq_true, decide_eq_true_eq, decide_eq_true_eq]
    exact hr
  have hle : ∀ {p : CInt} {i : ℕ}, portIs g i p = true → p.toInt ≤ 65535 := by
    intro p i hp
    rcases Bool.or_eq_true_iff.mp hp with hp | hp
    · have hp := Int32.lt_iff_toInt_lt.mp (of_decide_eq_true hp)
      have hz : (0 : Int32).toInt = 0 := rfl
      omega
    · have := (LinuxRouter.getBe16 g i).isLt
      rw [← eq_of_beq hp]
      omega
  simp only [portMatch, hno, Bool.false_eq_true, if_false, Bool.and_eq_true, decide_eq_true_eq,
    hs.isTcpUdp_eq h₂₀] at hports
  exact ⟨hr, hword, haddr, hproto, hports.1.1.1, hports.1.1.2, hle hports.1.2, hle hports.2⟩

/-- A payload that the rule takes for its ports. -/
theorem exists_match (h : LaterFragment f len) (ht : TakesPorts r f len) :
    ∃ g, SameHeader f g ∧ ruleMatch r g len = true := by
  have h₂₀ := h.header.1
  have hb := h.bytes
  have hroom := ht.room
  generalize hl : 14 + headerLen f = l at hroom
  -- the two ports, one after the other
  have p₁ := patched_putBe16 (p := f) (i := l) (by omega) (BitVec.ofInt 16 r.sport.toInt)
  have v₁ := getBe16_putBe16 (p := f) (i := l) (by omega) (BitVec.ofInt 16 r.sport.toInt)
  generalize putBe16 f l (BitVec.ofInt 16 r.sport.toInt) = f₁ at p₁ v₁
  have l₁ := p₁.length
  have p₂ := patched_putBe16 (p := f₁) (i := l + 2) (by omega) (BitVec.ofInt 16 r.dport.toInt)
  have v₂ := getBe16_putBe16 (p := f₁) (i := l + 2) (by omega) (BitVec.ofInt 16 r.dport.toInt)
  generalize putBe16 f₁ (l + 2) (BitVec.ofInt 16 r.dport.toInt) = g at p₂ v₂
  have hs : SameHeader f g := by
    refine ⟨p₂.length.trans p₁.length, fun i hi => ?_⟩
    rw [p₂.outside i (by omega), p₁.outside i (by omega)]
  have hport : ∀ {p : CInt} {i : ℕ}, p.toInt ≤ 65535 →
      LinuxRouter.getBe16 g i = BitVec.ofInt 16 p.toInt → portIs g i p = true := by
    intro p i hp hv
    unfold portIs
    by_cases hn : p < 0
    · simp [hn]
    · have hn := Int32.le_iff_toInt_le.mp (Int32.not_lt.mp hn)
      have hz : (0 : Int32).toInt = 0 := rfl
      have hval : ((BitVec.ofInt 16 p.toInt).toNat : ℤ) = p.toInt := by
        rw [BitVec.toNat_ofInt]
        omega
      rw [hv, hval]
      simp
  have hno : (decide (r.sport < 0) && decide (r.dport < 0)) = false := by
    rw [← Bool.not_eq_true, Bool.and_eq_true, decide_eq_true_eq, decide_eq_true_eq]
    exact ht.asks
  have hports : portMatch r g len l = true := by
    simp only [portMatch, hno, Bool.false_eq_true, if_false, Bool.and_eq_true, decide_eq_true_eq,
      hs.isTcpUdp_eq h₂₀]
    refine ⟨⟨⟨ht.tcpUdp, hroom⟩, hport ht.ports.1 ?_⟩, hport ht.ports.2 v₂⟩
    rw [p₂.getBe16 (by omega), v₁]
  refine ⟨g, hs, ?_⟩
  rw [(h.sameHeader hs).ruleMatch_eq, hs.headerLen_eq h₂₀, hl, hs.addrMatch_eq h₂₀,
    hs.header 23 (by omega), ht.addr, ht.proto, hports, ht.word]
  rfl

end LaterFragment

/-- **Port rules judge ports only**, for fragments with the header of this one, exactly if no rule takes
the first bytes of their payload for ports. -/
theorem port_rules_iff {rules : List FwRule} (h : LaterFragment f len) :
    PortsOnly rules f len ↔ ∀ r ∈ rules, ¬ TakesPorts r f len := by
  constructor
  · intro hp r hr ht
    obtain ⟨g, hs, hm⟩ := h.exists_match ht
    have hno := (hp g hs).1 r hr ht.asks
    rw [hm] at hno
    cases hno
  · intro ht g hs
    have hno : ∀ r ∈ rules, r.asksPort → ∀ p, SameHeader f p → ruleMatch r p len = false := by
      intro r hr ha p hs
      by_contra hm
      exact ht r hr (h.takesPorts_of_match hs ha (by simpa using hm))
    have hsame : ∀ r ∈ rules, ruleMatch r g len = ruleMatch r f len := by
      intro r hr
      by_cases ha : r.asksPort
      · rw [hno r hr ha g hs, hno r hr ha f (.refl f)]
      · exact h.ruleMatch_header hs ha
    refine ⟨fun r hr ha => hno r hr ha g hs, ?_⟩
    rw [fwCheck, fwCheck, List.find?_congr hsame]

/-- A later fragment of a UDP datagram, with four bytes of it. -/
def laterFragment : List Byte :=
  List.replicate 12 2 ++ [8, 0, 0x45, 0, 0, 24, 0, 0, 0, 1, 64, 17, 0, 0, 10, 0, 0, 2, 10, 1, 0, 2] ++
    [0, 53, 0, 53]

/-- The rule that drops what is for port 53. -/
def dropNames : FwRule := { FwRule.blank fwDrop with dport := 53 }

/-- A rule for the ports of TCP leaves a fragment of a UDP datagram alone. -/
theorem port_rules_tcp :
    PortsOnly [{ dropNames with proto := protoTcp }] laterFragment 38 := by
  refine (port_rules_iff ⟨by decide, by decide, by decide, by decide, by decide⟩).mpr ?_
  rintro r hr ht
  obtain rfl := List.mem_singleton.mp hr
  have := ht.proto
  revert this
  decide

/-- **A rule for a port drops a fragment that has none**: behind the header of a later fragment is
payload, and its first four bytes are taken for the ports. -/
theorem fragment_ports :
    ¬ ∀ (r : FwRule) (f : List Byte) (len : ℕ), r.asksPort → LaterFragment f len →
      ruleMatch r f len = false := by
  intro h
  have hm := h dropNames laterFragment 38 (by unfold FwRule.asksPort; decide)
    ⟨by decide, by decide, by decide, by decide, by decide⟩
  revert hm
  decide

end LinuxRouter
