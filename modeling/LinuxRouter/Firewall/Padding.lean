import LinuxRouter.Firewall.Headers

/-!
# Firewall — padding

Two frames that carry one datagram, with other bytes behind it.

* `ReadsBehind`: what `rule_match` can find behind the datagram: ports, the TCP data offset, and an
  occurrence of the keyword that does not end within it.
* `padding_reads`: a rule that tells the frames apart reads there.
* `padding_iff`: the verdict is the same, exactly unless such a rule decides for one of the frames
  and the rules behind it decide otherwise for the other.

`rule_match` is given the length of the frame and not that of the datagram, so a field that begins
within the datagram may be read behind it.  `padding_reads` goes through the conditions and finds
the three that can be.  The verdict is that of the first rule that matches, so one has to compare
two searches with two predicates over one list: `find?_elim_eq_iff` says when they come to the same,
and `padding_iff` is that with rules for elements.
-/

namespace LinuxRouter

open Text (lit)

/-- Two frames with one Ethernet header and one datagram, both whole. -/
structure SameDatagram (f : List Byte) (m : ℕ) (g : List Byte) (n : ℕ) : Prop where
  pass : headerOk f m = true ∧ headerOk g n = true
  bytes : m ≤ f.length ∧ n ≤ g.length
  eth : f.take 14 = g.take 14
  total : totalLen g = totalLen f
  fit : 14 + totalLen f ≤ m ∧ 14 + totalLen f ≤ n
  data : ∀ i, 14 ≤ i → i < 14 + totalLen f → byteAt f i = byteAt g i

/-- The rule looks for something behind the datagram of this frame: a port or the TCP data offset, or
it finds the keyword, but not in the datagram. -/
def ReadsBehind (r : FwRule) (f : List Byte) (m : ℕ) : Prop :=
  (¬ (r.sport < 0 ∧ r.dport < 0) ∧ totalLen f < headerLen f + 4) ∨
    (r.keyword.1 ≠ [] ∧ byteAt f 23 = 6#8 ∧ totalLen f < headerLen f + 13) ∨
    ∃ off, payloadOffset f m (14 + headerLen f) = some off ∧
      r.keyword.1 <:+: (f.take m).drop off ∧
        ¬ r.keyword.1 <:+: (f.take (14 + totalLen f)).drop off

/-! ### What the frames share -/

namespace SameDatagram

variable {f g : List Byte} {m n i : ℕ}

theorem symm (h : SameDatagram f m g n) : SameDatagram g n f m where
  pass := h.pass.symm
  bytes := h.bytes.symm
  eth := h.eth.symm
  total := h.total.symm
  fit := h.total ▸ h.fit.symm
  data i h₁ h₂ := (h.data i h₁ (h.total ▸ h₂)).symm

/-- Up to the end of the datagram they are one list. -/
theorem take_eq (h : SameDatagram f m g n) :
    f.take (14 + totalLen f) = g.take (14 + totalLen f) := by
  obtain ⟨hf, hg⟩ := h.bytes
  obtain ⟨h₁, h₂⟩ := h.fit
  have hlf : (f.take (14 + totalLen f)).length = 14 + totalLen f := by
    rw [List.length_take]
    omega
  have hlg : (g.take (14 + totalLen f)).length = 14 + totalLen f := by
    rw [List.length_take]
    omega
  refine List.ext_getElem (hlf.trans hlg.symm) fun i hi hi' => ?_
  rw [hlf] at hi
  rw [List.getElem_take, List.getElem_take]
  rcases Nat.lt_or_ge i 14 with hlt | hge
  · have := congrArg (fun l => l[i]?) h.eth
    rw [List.getElem?_take_of_lt hlt, List.getElem?_take_of_lt hlt,
      List.getElem?_eq_getElem (by omega), List.getElem?_eq_getElem (by omega)] at this
    exact Option.some.inj this
  · have := h.data i hge hi
    rwa [byteAt, byteAt, List.getD_eq_getElem?_getD, List.getD_eq_getElem?_getD,
      List.getElem?_eq_getElem (by omega), List.getElem?_eq_getElem (by omega)] at this

theorem byteAt_eq (h : SameDatagram f m g n) (hi : i < 14 + totalLen f) :
    byteAt g i = byteAt f i := by
  rw [← byteAt_take hi, ← h.take_eq, byteAt_take hi]

theorem getBe16_eq (h : SameDatagram f m g n) (hi : i + 1 < 14 + totalLen f) :
    getBe16 g i = getBe16 f i := by
  rw [← getBe16_take hi, ← h.take_eq, getBe16_take hi]

theorem getBe32_eq (h : SameDatagram f m g n) (hi : i + 3 < 14 + totalLen f) :
    getBe32 g i = getBe32 f i := by
  rw [← getBe32_take hi, ← h.take_eq, getBe32_take hi]

/-- The IP header is in the datagram. -/
theorem header (h : SameDatagram f m g n) : 20 ≤ headerLen f ∧ headerLen f ≤ totalLen f ∧
    byteAt f 14 >>> 4 = 4#8 := by
  obtain ⟨-, hv, h₂₀, hi, -⟩ := headerOk_iff.mp h.pass.1
  exact ⟨h₂₀, hi, hv⟩

theorem headerLen_eq (h : SameDatagram f m g n) : headerLen g = headerLen f := by
  obtain ⟨h₂₀, hi, -⟩ := h.header
  rw [headerLen, headerLen, h.byteAt_eq (by omega)]

/-- Ports that are in the datagram. -/
theorem portMatch_eq (h : SameDatagram f m g n) {r : FwRule}
    (hr : ¬ (¬ (r.sport < 0 ∧ r.dport < 0) ∧ totalLen f < headerLen f + 4)) :
    portMatch r g n (14 + headerLen f) = portMatch r f m (14 + headerLen f) := by
  obtain ⟨h₂₀, hi, -⟩ := h.header
  obtain ⟨h₁, h₂⟩ := h.fit
  unfold portMatch
  by_cases hp : r.sport < 0 ∧ r.dport < 0
  · simp [hp]
  · have hl : headerLen f + 4 ≤ totalLen f := by
      by_contra hlt
      exact hr ⟨hp, by omega⟩
    have ht : isTcpUdp g = isTcpUdp f := by
      rw [isTcpUdp, isTcpUdp, h.byteAt_eq (by omega)]
    have hn : 14 + headerLen f + 4 ≤ n := by omega
    have hm : 14 + headerLen f + 4 ≤ m := by omega
    simp only [portIs, ht, hn, hm, h.getBe16_eq (i := 14 + headerLen f) (by omega),
      h.getBe16_eq (i := 14 + headerLen f + 2) (by omega)]

/-- The payload starts at one place. -/
theorem payloadOffset_eq (h : SameDatagram f m g n)
    (hr : ¬ (byteAt f 23 = 6#8 ∧ totalLen f < headerLen f + 13)) :
    payloadOffset g n (14 + headerLen f) = payloadOffset f m (14 + headerLen f) ∧
      (payloadOffset f m (14 + headerLen f)).isSome = true := by
  obtain ⟨h₂₀, hi, -⟩ := h.header
  obtain ⟨h₁, h₂⟩ := h.fit
  unfold payloadOffset
  rw [h.byteAt_eq (i := 23) (by omega)]
  by_cases ht : byteAt f 23 = 6#8
  · have hl : headerLen f + 13 ≤ totalLen f := by
      by_contra hlt
      exact hr ⟨ht, by omega⟩
    rw [if_pos ht, if_pos ht, if_neg (by omega), if_neg (by omega),
      h.byteAt_eq (i := 14 + headerLen f + 12) (by omega)]
    exact ⟨rfl, rfl⟩
  · rw [if_neg ht, if_neg ht]
    exact ⟨rfl, rfl⟩

/-- What a keyword match is, on a frame whose payload starts at `off`. -/
theorem keywordMatch_found {r : FwRule} {off : ℕ} (hk : r.keyword.1 ≠ [])
    (ho : payloadOffset f m (14 + headerLen f) = some off) :
    keywordMatch r f m (14 + headerLen f) = true ↔
      (getBe16 f 20 &&& 0x1fff#16) <<< 3 = 0 ∧ isTcpUdp f = true ∧
        r.keyword.1 <:+: (f.take m).drop off := by
  have hoff : r.keyword.1 <:+: (f.take m).drop off → off ≤ m := by
    intro hin
    by_contra hlt
    have hlen := (List.length_take_le m f)
    rw [List.drop_eq_nil_of_le (by omega), List.infix_nil] at hin
    exact hk hin
  unfold keywordMatch
  rw [if_neg hk]
  by_cases h₁ : (getBe16 f 20 &&& 0x1fff#16) <<< 3 = 0
  · cases h₂ : isTcpUdp f with
    | false => simp [h₁]
    | true =>
        simp only [h₁, ho, ne_eq, not_true_eq_false, if_false, Bool.not_true, Bool.false_eq_true,
          Bool.and_eq_true, decide_eq_true_eq, findBytes_isSome, true_and]
        exact ⟨fun h => h.2, fun h => ⟨hoff h, h⟩⟩
  · rw [if_pos h₁]
    exact ⟨fun e => (nomatch e), fun e => absurd e.1 h₁⟩

/-- A keyword that is found in the datagram, or in neither frame. -/
theorem keywordMatch_eq (h : SameDatagram f m g n) {r : FwRule} (hf : ¬ ReadsBehind r f m)
    (hg : ¬ ReadsBehind r g n) :
    keywordMatch r g n (14 + headerLen f) = keywordMatch r f m (14 + headerLen f) := by
  by_cases hk : r.keyword.1 = []
  · rw [keywordMatch, keywordMatch, if_pos hk, if_pos hk]
  · obtain ⟨h₂₀, hi, -⟩ := h.header
    obtain ⟨h₁, h₂⟩ := h.fit
    have hshort : ¬ (byteAt f 23 = 6#8 ∧ totalLen f < headerLen f + 13) :=
      fun e => hf (.inr (.inl ⟨hk, e⟩))
    obtain ⟨ho, hsome⟩ := h.payloadOffset_eq hshort
    obtain ⟨off, hoff⟩ := Option.isSome_iff_exists.mp hsome
    rw [hoff] at ho
    have hog : payloadOffset g n (14 + headerLen g) = some off := by rw [h.headerLen_eq, ho]
    have ht : isTcpUdp g = isTcpUdp f := by
      rw [isTcpUdp, isTcpUdp, h.byteAt_eq (by omega)]
    have hin : ∀ {x : List Byte} {k : ℕ}, 14 + totalLen f ≤ k →
        (x.take (14 + totalLen f)).drop off <:+: (x.take k).drop off := by
      intro x k hle
      refine List.IsPrefix.isInfix (List.IsPrefix.drop ?_ off)
      exact List.take_prefix_take_left hle
    -- found in a frame exactly if it is found in the datagram
    have hff : r.keyword.1 <:+: (f.take m).drop off ↔
        r.keyword.1 <:+: (f.take (14 + totalLen f)).drop off :=
      ⟨fun e => by_contra fun e' => hf (.inr (.inr ⟨off, hoff, e, e'⟩)), fun e => e.trans (hin h₁)⟩
    have hgg : r.keyword.1 <:+: (g.take n).drop off ↔
        r.keyword.1 <:+: (g.take (14 + totalLen f)).drop off :=
      ⟨fun e => by_contra fun e' => hg (.inr (.inr ⟨off, hog, e, h.total ▸ e'⟩)),
        fun e => e.trans (hin h₂)⟩
    have hmf := keywordMatch_found hk hoff
    have hmg := keywordMatch_found hk hog
    rw [h.headerLen_eq] at hmg
    rw [Bool.eq_iff_iff, hmf, hmg, hff, hgg, ht, h.getBe16_eq (i := 20) (by omega), h.take_eq]

/-- **A rule that tells the frames apart reads behind the datagram.** -/
theorem padding_reads (h : SameDatagram f m g n) {r : FwRule}
    (hr : ruleMatch r f m ≠ ruleMatch r g n) : ReadsBehind r f m ∨ ReadsBehind r g n := by
  by_contra hno
  obtain ⟨hf, hg⟩ := not_or.mp hno
  obtain ⟨h₂₀, hi, hv⟩ := h.header
  obtain ⟨h₁, h₂⟩ := h.fit
  have hvg : byteAt g 14 >>> 4 = 4#8 := by rw [h.byteAt_eq (by omega), hv]
  have hport := h.portMatch_eq (r := r) fun e => hf (.inl e)
  have hword := h.keywordMatch_eq hf hg
  refine hr ?_
  rw [ruleMatch_conditions (by omega) hv h₂₀ (by omega),
    ruleMatch_conditions (by omega) hvg (by rw [h.headerLen_eq]; exact h₂₀)
      (by rw [h.headerLen_eq]; omega), h.headerLen_eq, hport, hword, addrMatch, addrMatch,
    h.getBe32_eq (i := 26) (by omega), h.getBe32_eq (i := 30) (by omega),
    h.byteAt_eq (i := 23) (by omega)]

end SameDatagram

/-! ### First matches -/

/-- **Two searches give one answer** exactly if the first element that only one of them stops at has
the answer that the other one finds behind it. -/
theorem find?_elim_eq_iff {α β : Type} (a b : α → Bool) (d : β) (v : α → β) (xs : List α) :
    (xs.find? a).elim d v = (xs.find? b).elim d v ↔
      ∀ l x t, xs = l ++ x :: t → (∀ y ∈ l, a y = false ∧ b y = false) → a x ≠ b x →
        v x = (t.find? (if a x then b else a)).elim d v := by
  induction xs with
  | nil => exact ⟨fun _ l x t e => absurd e (by simp), fun _ => rfl⟩
  | cons x xs ih =>
      -- a split of the longer list: at its head, or behind it
      have hcons : ∀ {P : List α → α → List α → Prop}, (∀ l y t, x :: xs = l ++ y :: t → P l y t) ↔
          P [] x xs ∧ ∀ l y t, xs = l ++ y :: t → P (x :: l) y t := by
        intro P
        constructor
        · exact fun h => ⟨h [] x xs rfl, fun l y t e => h (x :: l) y t (by rw [e]; rfl)⟩
        · rintro ⟨h₁, h₂⟩ l y t e
          cases l with
          | nil =>
              obtain ⟨rfl, rfl⟩ := List.cons.inj e
              exact h₁
          | cons z l =>
              obtain ⟨rfl, e'⟩ := List.cons.inj e
              exact h₂ l y t e'
      have hnil : ∀ y ∈ ([] : List α), a y = false ∧ b y = false := by simp
      rw [hcons, List.find?_cons, List.find?_cons]
      cases ha : a x with
      | false =>
          cases hb : b x with
          | false =>
              dsimp only
              rw [ih]
              constructor
              · intro h
                refine ⟨fun _ hne => absurd rfl hne, fun l y t e hl => h l y t e ?_⟩
                exact fun z hz => hl z (List.mem_cons_of_mem x hz)
              · rintro ⟨-, h⟩ l y t e hl
                refine h l y t e fun z hz => ?_
                rcases List.mem_cons.mp hz with rfl | hz
                · exact ⟨ha, hb⟩
                · exact hl z hz
          | true =>
              constructor
              · intro h
                refine ⟨fun _ _ => h.symm, fun l y t _ hl => ?_⟩
                exact absurd (hb.symm.trans (hl x List.mem_cons_self).2) (by decide)
              · exact fun h => (h.1 hnil (by decide)).symm
      | true =>
          have hskip : ∀ l y t, xs = l ++ y :: t → (∀ z ∈ x :: l, a z = false ∧ b z = false) →
              a y ≠ b y → v y = (t.find? (if a y then b else a)).elim d v := fun l y t _ hl =>
            absurd (ha.symm.trans (hl x List.mem_cons_self).1) (by decide)
          cases hb : b x with
          | false => exact ⟨fun h => ⟨fun _ _ => h, hskip⟩, fun h => h.1 hnil (by decide)⟩
          | true => exact ⟨fun _ => ⟨fun _ hne => absurd rfl hne, hskip⟩, fun _ => rfl⟩

/-! ### The verdict -/

/-- The padding decides whether the rule matches. -/
def PaddingDecides (r : FwRule) (f : List Byte) (m : ℕ) (g : List Byte) (n : ℕ) : Prop :=
  ruleMatch r f m ≠ ruleMatch r g n ∧ (ReadsBehind r f m ∨ ReadsBehind r g n)

/-- Where the padding decides whether the first rule that matches either frame matches, its action
is also that of the first rule behind it that matches the other frame. -/
def PaddingHarmless (rules : List FwRule) (f : List Byte) (m : ℕ) (g : List Byte) (n : ℕ) : Prop :=
  ∀ l r t, rules = l ++ r :: t → (∀ q ∈ l, ruleMatch q f m = false ∧ ruleMatch q g n = false) →
    PaddingDecides r f m g n →
      r.action = (t.find? fun q => if ruleMatch r f m then ruleMatch q g n else ruleMatch q f m).elim
        fwAllow (·.action)

/-- **Verdicts and padding**: two frames with one datagram get one verdict, exactly if no rule that
reads behind the datagram decides for one of them otherwise than the rules behind it for the
other. -/
theorem padding_iff {f g : List Byte} {m n : ℕ} (h : SameDatagram f m g n) (rules : List FwRule) :
    fwCheck rules f m = fwCheck rules g n ↔ PaddingHarmless rules f m g n := by
  have hcheck : ∀ f m, fwCheck rules f m =
      (rules.find? fun r => ruleMatch r f m).elim fwAllow (·.action) := by
    intro f m
    unfold fwCheck
    cases rules.find? fun r => ruleMatch r f m <;> rfl
  have hdec : ∀ r, PaddingDecides r f m g n ↔ ruleMatch r f m ≠ ruleMatch r g n :=
    fun r => ⟨And.left, fun e => ⟨e, h.padding_reads e⟩⟩
  rw [hcheck, hcheck, find?_elim_eq_iff]
  unfold PaddingHarmless
  refine forall_congr' fun l => forall_congr' fun r => forall_congr' fun t => forall_congr' fun _ =>
    forall_congr' fun _ => ?_
  rw [hdec]
  refine forall_congr' fun _ => ?_
  cases ruleMatch r f m <;> exact Iff.rfl

/-- A UDP datagram without a payload, in a frame of 42 bytes. -/
def bareDatagram : List Byte :=
  List.replicate 12 2 ++ [8, 0, 0x45, 0, 0, 28, 0, 0, 0, 0, 64, 17, 0, 0, 10, 0, 0, 2, 10, 1, 0, 2] ++
    [0, 53, 0, 53, 0, 8, 0, 0]

/-- The datagram with and without padding. -/
theorem sameDatagram_bare (pad : List Byte) :
    SameDatagram bareDatagram 42 (bareDatagram ++ pad) (42 + pad.length) := by
  have hb : bareDatagram.length = 42 := by decide
  have hl : headerLen (bareDatagram ++ pad) = headerLen bareDatagram := by
    rw [headerLen, headerLen, byteAt_append (by decide)]
  have ht : totalLen (bareDatagram ++ pad) = totalLen bareDatagram := by
    rw [totalLen, totalLen, getBe16, getBe16, byteAt_append (by decide), byteAt_append (by decide)]
  have hok : headerOk bareDatagram 42 = true := by decide
  refine ⟨⟨hok, ?_⟩, ⟨hb.ge, by rw [List.length_append, hb]⟩, rfl, ht, ⟨by decide, ?_⟩, ?_⟩
  · obtain ⟨h₁, h₂, h₃, h₄, h₅⟩ := headerOk_iff.mp hok
    rw [headerOk_iff, byteAt_append (by decide), hl, ht]
    exact ⟨by omega, h₂, h₃, h₄, by omega⟩
  · exact (by decide : 14 + totalLen bareDatagram ≤ 42).trans (Nat.le_add_right 42 _)
  · exact fun i _ hi => (byteAt_append (hi.trans_le (by decide))).symm

/-- A padding that no rule finds anything in, and one with the keyword. -/
theorem padding_iff_bare :
    let rules := (fwParseRule [lit "drop", lit "keyword", lit "spam"]).toList
    PaddingHarmless rules bareDatagram 42 (bareDatagram ++ lit "eggs") 46 ∧
      ¬ PaddingHarmless rules bareDatagram 42 (bareDatagram ++ lit "spam") 46 :=
  ⟨(padding_iff (sameDatagram_bare (lit "eggs")) _).mp (by decide +kernel),
    fun h => absurd ((padding_iff (sameDatagram_bare (lit "spam")) _).mpr h) (by decide +kernel)⟩

/-- **A keyword in the padding.**  The datagram is allowed without it and dropped with it: the search
goes to the end of the frame, and not only to the end of the datagram. -/
theorem padding_decides :
    ¬ ∀ (rules : List FwRule) (f g : List Byte) (m n : ℕ), SameDatagram f m g n →
      fwCheck rules f m = fwCheck rules g n := by
  intro h
  have hne : fwCheck (fwParseRule [lit "drop", lit "keyword", lit "spam"]).toList bareDatagram 42 ≠
      fwCheck (fwParseRule [lit "drop", lit "keyword", lit "spam"]).toList
        (bareDatagram ++ lit "spam") 46 := by decide +kernel
  exact hne (h _ _ _ _ _ (sameDatagram_bare (lit "spam")))

end LinuxRouter
