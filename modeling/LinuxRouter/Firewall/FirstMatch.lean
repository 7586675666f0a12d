import LinuxRouter.Firewall.Table
import LinuxRouter.Model.Bytes

/-!
# Firewall — the first match

What a rule says of a packet, and that `fw_check` finds the first rule whose conditions all hold.

* `Packet`: the fields of an IPv4 packet; `Packet.ofFrame` reads them header by header.
* `FwRule.source` and the like: the conditions a rule states, without its wildcards.
  `FwRule.Holds`: they all hold of a packet.
* `WholeFrame`: the frames whose headers are complete.  `ruleMatch_iff`: on them `rule_match` is
  `Holds`.
* `first_match`: over any history of the table.

The matcher reads single bytes at computed offsets; a packet has fields.  `Packet.ofFrame` is a
separate reading of the frame, with its own arithmetic of lengths and no reference to the code, and
`WholeFrame` says that what it reads is there.  `ruleMatch_iff` then goes condition by condition:
each test of the code is that of the field it names, or true where the rule has a wildcard.  What
remains is that a scan with an early return finds the first element with a property.
-/

namespace LinuxRouter

open Text (lit)

/-! ### Packets -/

/-- The part of a TCP or UDP packet that a rule can name. -/
structure Segment where
  sport : BitVec 16
  dport : BitVec 16
  payload : List Byte

/-- The part of an IPv4 packet that a rule can name. -/
structure Packet where
  src : Ip
  dst : Ip
  proto : Byte
  segment : Option Segment

/-- The length of a TCP header. -/
def tcpHeaderLen (s : List Byte) : ℕ := 4 * (byteAt s 12 >>> 4).toNat

/-- The segment in the bytes behind an IP header. -/
def Segment.ofBytes (proto : Byte) (s : List Byte) : Option Segment :=
  if proto = 6#8 then some ⟨getBe16 s 0, getBe16 s 2, s.drop (tcpHeaderLen s)⟩
  else if proto = 17#8 then some ⟨getBe16 s 0, getBe16 s 2, s.drop 8⟩
  else none

/-- The length of an IP header. -/
def ipHeaderLen (d : List Byte) : ℕ := 4 * (byteAt d 0 &&& 0x0f#8).toNat

/-- The packet in a datagram. -/
def Packet.ofDatagram (d : List Byte) : Packet where
  src := getBe32 d 12
  dst := getBe32 d 16
  proto := byteAt d 9
  segment := Segment.ofBytes (byteAt d 9) (d.drop (ipHeaderLen d))

/-- The packet in the first `len` bytes of a frame, behind its Ethernet header. -/
def Packet.ofFrame (f : List Byte) (len : ℕ) : Packet := .ofDatagram ((f.take len).drop 14)

/-! ### Rules -/

/-- The first `q.2` bits of the two addresses agree. -/
def InPrefix (q : Ip × ℕ) (ip : Ip) : Prop := ∀ i < q.2, ip.getMsbD i = q.1.getMsbD i

/-- The prefix length of a mask. -/
def maskLen (m : Ip) : ℕ := (List.range 32).countP fun i => m.getMsbD i

namespace FwRule

variable (r : FwRule)

/-- The source prefix a rule states: a mask of 0 is a wildcard. -/
def source : Option (Ip × ℕ) := if r.sipMask = 0 then none else some (r.sip, maskLen r.sipMask)

/-- The destination prefix a rule states. -/
def dest : Option (Ip × ℕ) := if r.dipMask = 0 then none else some (r.dip, maskLen r.dipMask)

/-- The protocol a rule states: a negative one is a wildcard. -/
def protocol : Option ℤ := if r.proto < 0 then none else some r.proto.toInt

/-- The source port a rule states: a negative one is a wildcard. -/
def sourcePort : Option ℤ := if r.sport < 0 then none else some r.sport.toInt

/-- The destination port a rule states. -/
def destPort : Option ℤ := if r.dport < 0 then none else some r.dport.toInt

/-- The keyword a rule states: the empty one is a wildcard. -/
def word : Option (List Byte) := if r.keyword.1 = [] then none else some r.keyword.1

/-- Every condition that the rule states holds of the packet. -/
structure Holds (p : Packet) : Prop where
  source : ∀ q ∈ r.source, InPrefix q p.src
  dest : ∀ q ∈ r.dest, InPrefix q p.dst
  protocol : ∀ n ∈ r.protocol, (p.proto.toNat : ℤ) = n
  sourcePort : ∀ n ∈ r.sourcePort, ∃ s ∈ p.segment, (s.sport.toNat : ℤ) = n
  destPort : ∀ n ∈ r.destPort, ∃ s ∈ p.segment, (s.dport.toNat : ℤ) = n
  word : ∀ w ∈ r.word, ∃ s ∈ p.segment, w <:+: s.payload

end FwRule

/-- The action is that of the first rule whose conditions all hold, and `FW_ALLOW` if there is
none. -/
def FirstMatch (rules : List FwRule) (p : Packet) (action : CInt) : Prop :=
  (∃ l r t, rules = l ++ r :: t ∧ (∀ q ∈ l, ¬ q.Holds p) ∧ r.Holds p ∧ action = r.action) ∨
    ((∀ q ∈ rules, ¬ q.Holds p) ∧ action = fwAllow)

/-! ### Frames -/

/-- A frame of `len` bytes that is an IPv4 packet, whole and not fragmented, with its transport
header. -/
structure WholeFrame (f : List Byte) (len : ℕ) : Prop where
  bytes : len ≤ f.length
  version : byteAt f 14 >>> 4 = 4#8
  header : 20 ≤ headerLen f ∧ headerLen f ≤ (getBe16 f 16).toNat
  total : len = 14 + (getBe16 f 16).toNat
  offset : getBe16 f 20 &&& 0x1fff#16 = 0
  tcp : byteAt f 23 = 6#8 → 20 ≤ tcpHeaderLen (f.drop (14 + headerLen f)) ∧
    14 + headerLen f + tcpHeaderLen (f.drop (14 + headerLen f)) ≤ len
  udp : byteAt f 23 = 17#8 → 14 + headerLen f + 8 ≤ len

/-! ### Prefixes -/

variable {f : List Byte} {len n i : ℕ}

/-- The bits of a mask: ones, as many as its length says, then zeros. -/
theorem getMsbD_mask {m : Ip} (h : IsMask m) {i : ℕ} (hi : i < 32) :
    m.getMsbD i = decide (i < maskLen m) := by
  obtain ⟨p, h₀, h₃₂, rfl⟩ := h
  obtain ⟨n, rfl⟩ := exists_length h₀ h₃₂
  have hall : ∀ n : Fin 33, ∀ i : Fin 32, (maskFromPrefix (Int32.ofNat n)).getMsbD i =
      decide (i.1 < maskLen (maskFromPrefix (Int32.ofNat n))) := by decide +kernel
  exact hall n ⟨i, hi⟩

/-- **The test of an address** against a masked one: the prefix is the same. -/
theorem and_mask_iff {m a ip : Ip} (hm : IsMask m) (ha : a &&& m = a) :
    ip &&& m = a ↔ InPrefix (a, maskLen m) ip := by
  constructor
  · rintro h i hi
    have hi₃₂ : i < 32 := hi.trans_le (List.countP_le_length.trans (by simp))
    have hbit := getMsbD_mask hm hi₃₂
    rw [decide_eq_true hi] at hbit
    rw [← h, BitVec.getMsbD_and, hbit, Bool.and_true]
  · intro h
    refine BitVec.eq_of_getMsbD_eq fun i hi => ?_
    have hbit := getMsbD_mask hm hi
    rw [← ha, BitVec.getMsbD_and, BitVec.getMsbD_and, hbit]
    by_cases hlt : i < maskLen m
    · rw [h i hlt]
    · rw [decide_eq_false hlt, Bool.and_false, Bool.and_false]

/-! ### Keywords -/

theorem findFrom_isSome (needle hay : List Byte) (i : ℕ) :
    (findFrom needle hay i).isSome = true ↔ needle <:+: hay := by
  induction hay generalizing i with
  | nil =>
      rw [findFrom, List.infix_nil]
      split <;> simp_all
  | cons c hay ih =>
      rw [findFrom, List.infix_cons_iff, ← ih (i + 1), ← List.isPrefixOf_iff_prefix]
      split
      · rename_i h
        simp [h]
      · rename_i h
        simp [h]

/-- **`find_bytes` finds the needle exactly if it is there.** -/
theorem findBytes_isSome (hay needle : List Byte) :
    (findBytes hay needle).isSome = true ↔ needle <:+: hay := by
  unfold findBytes
  split
  · rename_i h
    rw [h]
    simp
  · split
    · rename_i h
      constructor
      · intro e
        cases e
      · exact fun e => absurd e.length_le (Nat.not_le.mpr h)
    · exact findFrom_isSome needle hay 0

/-! ### A rule -/

variable {r : FwRule}

/-- An address of a rule. -/
theorem addr_iff {m a ip : Ip} (h : IsMask m ∧ (m ≠ 0 → a &&& m = a)) :
    (m == 0 || ip &&& m == a) = true ↔
      ∀ q ∈ (if m = 0 then none else some (a, maskLen m)), InPrefix q ip := by
  by_cases hm : m = 0
  · simp [hm]
  · simp only [hm, beq_iff_eq, if_false, Bool.or_eq_true, false_or, Option.mem_def,
      Option.some.injEq, forall_eq']
    exact and_mask_iff h.1 (h.2 hm)

theorem proto_iff (hr : r.Coded) (b : Byte) :
    (decide (r.proto < 0) || b == BitVec.ofInt 8 r.proto.toInt) = true ↔
      ∀ n ∈ r.protocol, (b.toNat : ℤ) = n := by
  have hbyte : ∀ k : ℕ, k < 256 → (b = BitVec.ofNat 8 k ↔ (b.toNat : ℤ) = k) := by
    intro k hk
    rw [← BitVec.toNat_inj, BitVec.toNat_ofNat, Nat.mod_eq_of_lt hk]
    exact Int.natCast_inj.symm
  unfold FwRule.protocol
  rcases hr.proto with h | h | h | h
  · rw [h]
    simp [protoAny]
  · rw [h]
    simpa [protoIcmp] using hbyte 1 (by decide)
  · rw [h]
    simpa [protoTcp] using hbyte 6 (by decide)
  · rw [h]
    simpa [protoUdp] using hbyte 17 (by decide)

theorem portIs_iff (f : List Byte) (i : ℕ) (port : CInt) : portIs f i port = true ↔
    ∀ n ∈ (if port < 0 then none else some port.toInt), ((getBe16 f i).toNat : ℤ) = n := by
  unfold portIs
  by_cases h : port < 0
  · simp [h]
  · simp [h]

/-! ### A frame -/

theorem tcpHeader_eq (b : Byte) : ((b &&& 0xf0#8) >>> 2).toNat = 4 * (b >>> 4).toNat := by
  have hall : ∀ n : Fin 256, ((BitVec.ofFin (w := 8) n &&& 0xf0#8) >>> 2).toNat =
      4 * (BitVec.ofFin (w := 8) n >>> 4).toNat := by decide +kernel
  exact hall b.toFin

namespace WholeFrame

theorem header_le (h : WholeFrame f len) : 34 ≤ len ∧ 14 + headerLen f ≤ len := by
  obtain ⟨h₁, h₂⟩ := h.header
  have := h.total
  omega

/-- The packet's fields, where the matcher reads them. -/
theorem packet (h : WholeFrame f len) : Packet.ofFrame f len =
    { src := getBe32 f 26, dst := getBe32 f 30, proto := byteAt f 23
      segment := Segment.ofBytes (byteAt f 23) ((f.take len).drop (14 + headerLen f)) } := by
  obtain ⟨h₃₄, -⟩ := h.header_le
  have hlen : ipHeaderLen ((f.take len).drop 14) = headerLen f := by
    rw [ipHeaderLen, byteAt_drop, byteAt_take (by omega), headerLen, Nat.mul_comm]
  rw [Packet.ofFrame, Packet.ofDatagram, hlen, getBe32_drop, getBe32_drop, byteAt_drop,
    getBe32_take (by omega), getBe32_take (by omega), byteAt_take (by omega), List.drop_drop]

/-- The segment of a packet: there is one exactly if the protocol is TCP or UDP, with the ports and
the payload where the matcher looks for them. -/
theorem segment (h : WholeFrame f len) :
    (isTcpUdp f = false ∧ (Packet.ofFrame f len).segment = none) ∨
      (isTcpUdp f = true ∧ 14 + headerLen f + 4 ≤ len ∧
        ∃ off, payloadOffset f len (14 + headerLen f) = some off ∧ off ≤ len ∧
          (Packet.ofFrame f len).segment =
            some ⟨getBe16 f (14 + headerLen f), getBe16 f (14 + headerLen f + 2),
              (f.take len).drop off⟩) := by
  rw [h.packet]
  generalize hl : 14 + headerLen f = l4off
  have ht : byteAt f 23 = 6#8 → 20 ≤ tcpHeaderLen (f.drop l4off) ∧
      l4off + tcpHeaderLen (f.drop l4off) ≤ len := hl ▸ h.tcp
  have hu : byteAt f 23 = 17#8 → l4off + 8 ≤ len := hl ▸ h.udp
  by_cases h₆ : byteAt f 23 = 6#8
  · obtain ⟨h₁, h₂⟩ := ht h₆
    have htcp : tcpHeaderLen ((f.take len).drop l4off) = tcpHeaderLen (f.drop l4off) := by
      rw [tcpHeaderLen, tcpHeaderLen, byteAt_drop, byteAt_drop, byteAt_take (by omega)]
    refine .inr ⟨by simp [isTcpUdp, h₆], by omega, l4off + tcpHeaderLen (f.drop l4off), ?_, h₂, ?_⟩
    · rw [payloadOffset, if_pos h₆, if_neg (by omega), tcpHeader_eq, tcpHeaderLen, byteAt_drop]
    · rw [Segment.ofBytes, if_pos h₆, htcp, getBe16_drop, getBe16_drop, getBe16_take (by omega),
        getBe16_take (by omega), List.drop_drop, Nat.add_zero]
  · by_cases h₁₇ : byteAt f 23 = 17#8
    · have h₈ := hu h₁₇
      refine .inr ⟨by simp [isTcpUdp, h₁₇], by omega, l4off + 8, ?_, h₈, ?_⟩
      · rw [payloadOffset, if_neg h₆]
      · rw [Segment.ofBytes, if_neg h₆, if_pos h₁₇, getBe16_drop, getBe16_drop,
          getBe16_take (by omega), getBe16_take (by omega), List.drop_drop, Nat.add_zero]
    · refine .inl ⟨by simp [isTcpUdp, h₆, h₁₇], ?_⟩
      rw [Segment.ofBytes, if_neg h₆, if_neg h₁₇]

/-- **The ports of a rule.** -/
theorem portMatch_iff (h : WholeFrame f len) (r : FwRule) :
    portMatch r f len (14 + headerLen f) = true ↔
      (∀ n ∈ r.sourcePort, ∃ s ∈ (Packet.ofFrame f len).segment, (s.sport.toNat : ℤ) = n) ∧
        ∀ n ∈ r.destPort, ∃ s ∈ (Packet.ofFrame f len).segment, (s.dport.toNat : ℤ) = n := by
  unfold portMatch FwRule.sourcePort FwRule.destPort
  rcases h.segment with ⟨hno, hs⟩ | ⟨hyes, hlen, off, -, -, hs⟩
  · rw [hs, hno]
    by_cases h₁ : r.sport < 0 <;> by_cases h₂ : r.dport < 0 <;> simp [h₁, h₂]
  · rw [hs, hyes]
    have h₁ := portIs_iff f (14 + headerLen f) r.sport
    have h₂ := portIs_iff f (14 + headerLen f + 2) r.dport
    simp only [Option.mem_def, Option.some.injEq, exists_eq_left', hlen, decide_true,
      Bool.and_true, Bool.true_and] at h₁ h₂ ⊢
    rw [← h₁, ← h₂]
    by_cases h₃ : r.sport < 0 <;> by_cases h₄ : r.dport < 0 <;> simp [h₃, h₄, portIs]

/-- **The keyword of a rule.** -/
theorem keywordMatch_iff (h : WholeFrame f len) (r : FwRule) :
    keywordMatch r f len (14 + headerLen f) = true ↔
      ∀ w ∈ r.word, ∃ s ∈ (Packet.ofFrame f len).segment, w <:+: s.payload := by
  unfold keywordMatch FwRule.word
  by_cases hk : r.keyword.1 = []
  · simp [hk]
  · rw [if_neg hk, if_neg hk, h.offset, if_neg (by decide)]
    rcases h.segment with ⟨hno, hs⟩ | ⟨hyes, -, off, ho, hle, hs⟩
    · rw [hs, hno]
      simp
    · rw [hs, hyes, ho]
      simp [hle, findBytes_isSome]

/-- **`rule_match` is the conjunction of the conditions that the rule states.** -/
theorem ruleMatch_iff (h : WholeFrame f len) (hr : r.Coded) :
    ruleMatch r f len = true ↔ r.Holds (.ofFrame f len) := by
  obtain ⟨h₃₄, hle⟩ := h.header_le
  have h₂₀ := h.header.1
  have hp := h.packet
  have hsrc : (Packet.ofFrame f len).src = getBe32 f 26 := by rw [hp]
  have hdst : (Packet.ofFrame f len).dst = getBe32 f 30 := by rw [hp]
  have hpro : (Packet.ofFrame f len).proto = byteAt f 23 := by rw [hp]
  have hs := @addr_iff _ _ (getBe32 f 26) hr.source
  have hd := @addr_iff _ _ (getBe32 f 30) hr.dest
  have hn := proto_iff hr (byteAt f 23)
  have hports := h.portMatch_iff r
  have hword := h.keywordMatch_iff r
  unfold ruleMatch
  dsimp only
  rw [if_neg (by omega), if_neg (not_not.mpr h.version), if_neg (by omega), Bool.and_eq_true,
    Bool.and_eq_true, Bool.and_eq_true, addrMatch, Bool.and_eq_true, hs, hd, hn, hports, hword]
  constructor
  · rintro ⟨⟨⟨⟨h₁, h₂⟩, h₃⟩, h₄, h₅⟩, h₆⟩
    exact ⟨hsrc ▸ h₁, hdst ▸ h₂, hpro ▸ h₃, h₄, h₅, h₆⟩
  · rintro ⟨h₁, h₂, h₃, h₄, h₅, h₆⟩
    exact ⟨⟨⟨⟨hsrc ▸ h₁, hdst ▸ h₂⟩, hpro ▸ h₃⟩, h₄, h₅⟩, h₆⟩

end WholeFrame

/-! ### A table -/

theorem fwCheck_firstMatch {rules : List FwRule} (h : WholeFrame f len)
    (hr : ∀ r ∈ rules, r.Coded) : FirstMatch rules (.ofFrame f len) (fwCheck rules f len) := by
  have hno : ∀ q ∈ rules, ruleMatch q f len = false → ¬ q.Holds (.ofFrame f len) := by
    intro q hq hf hh
    rw [(h.ruleMatch_iff (hr q hq)).mpr hh] at hf
    cases hf
  unfold fwCheck
  cases hfind : rules.find? fun r => ruleMatch r f len with
  | none =>
      refine .inr ⟨fun q hq => hno q hq ?_, rfl⟩
      simpa using List.find?_eq_none.mp hfind q hq
  | some r =>
      obtain ⟨hm, l, t, rfl, hl⟩ := List.find?_eq_some_iff_append.mp hfind
      refine .inl ⟨l, r, t, rfl, fun q hq => hno q (by simp [hq]) (by simpa using hl q hq), ?_, rfl⟩
      exact (h.ruleMatch_iff (hr r (by simp))).mp hm

/-- There is only one first match. -/
theorem FirstMatch.unique {rules : List FwRule} {p : Packet} {a b : CInt}
    (ha : FirstMatch rules p a) (hb : FirstMatch rules p b) : a = b := by
  induction rules with
  | nil =>
      rcases ha with ⟨l, r, t, h, -⟩ | ⟨-, rfl⟩
      · simp at h
      · rcases hb with ⟨l, r, t, h, -⟩ | ⟨-, rfl⟩
        · simp at h
        · rfl
  | cons q rules ih =>
      -- a first match is the head's action, if it holds, or a first match of the tail
      have hcons : ∀ {c}, FirstMatch (q :: rules) p c →
          (q.Holds p ∧ c = q.action) ∨ (¬ q.Holds p ∧ FirstMatch rules p c) := by
        rintro c (⟨l, r, t, h, hl, hr, hc⟩ | ⟨h, hc⟩)
        · cases l with
          | nil =>
              obtain ⟨rfl, -⟩ := List.cons.inj h
              exact .inl ⟨hr, hc⟩
          | cons q' l =>
              obtain ⟨rfl, rfl⟩ := List.cons.inj h
              refine .inr ⟨hl q List.mem_cons_self, .inl ⟨l, r, t, rfl, fun x hx => ?_, hr, hc⟩⟩
              exact hl x (List.mem_cons_of_mem q hx)
        · exact .inr ⟨h q List.mem_cons_self, .inr ⟨fun x hx => h x (List.mem_cons_of_mem q hx), hc⟩⟩
      rcases hcons ha with ⟨h, rfl⟩ | ⟨h, ha⟩
      · rcases hcons hb with ⟨-, rfl⟩ | ⟨h', -⟩
        · rfl
        · exact absurd h h'
      · rcases hcons hb with ⟨h', -⟩ | ⟨-, hb⟩
        · exact absurd h' h
        · exact ih ha hb

/-- **The firewall decides by the first match**, after every sequence of `fw_add`, `fw_del` and
`fw_clear` calls since `fw_init`. -/
theorem firewall_first_match (t : FwTable) (cs : List FwCall) {f : List Byte} {len : ℕ}
    (h : WholeFrame f len) (action : CInt) :
    (cs.foldl FwTable.call t.clear).check f len = action ↔
      FirstMatch (cs.foldl FwCall.apply []) (.ofFrame f len) action := by
  have hnil : ∀ r ∈ ([] : List FwRule), r.Coded := by simp
  have hspec := fwCheck_firstMatch h (coded_history cs hnil)
  rw [FwTable.check_eq, FwTable.calls_rules, FwTable.clear_rules]
  constructor
  · rintro rfl
    exact hspec
  · exact fun ha => hspec.unique ha

/-- A datagram to port 53, with five bytes of payload. -/
def nameQuery : List Byte :=
  List.replicate 12 2 ++ [8, 0, 0x45, 0, 0, 33, 0, 0, 0, 0, 64, 17, 0, 0, 10, 0, 0, 2, 10, 1, 0, 2] ++
    [0, 53, 0, 53, 0, 13, 0, 0] ++ lit "query"

/-- A rule for its words is deleted, and one with its keyword is left. -/
theorem firewall_first_match_keyword :
    ([.add [lit "allow", lit "dport", lit "53"], .add [lit "drop", lit "keyword", lit "ery"],
        .del 0].foldl FwTable.call (FwTable.clear ⟨fun _ => .blank fwAllow, 0, by decide⟩)).check
          nameQuery 47 = fwDrop ↔
      FirstMatch ([.add [lit "allow", lit "dport", lit "53"],
        .add [lit "drop", lit "keyword", lit "ery"], .del 0].foldl FwCall.apply [])
          (.ofFrame nameQuery 47) fwDrop :=
  firewall_first_match _ _ ⟨by decide, by decide, by decide, by decide, by decide, by decide, by decide⟩
    _

end LinuxRouter
