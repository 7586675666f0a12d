import LinuxRouter.Config.Cidr
import LinuxRouter.Config.Load

/-!
# Config — the firewall's rules, saved and loaded

A rule as `fw_rule_to_line` writes it, and as `fw_parse_rule` reads it.

* `FwRule.Proper`: what a parsed rule satisfies (`proper_fwParseRule`).
* `fwRuleWords`: the words of its line.  `fwParseRule_words`: they read back as the rule, with the
  addresses of 0 that a wildcard does not use (`FwRule.canonical`).
* `rules_survive`: a table of parsed rules decides after saving and loading as it did before.

Saving and loading is not the identity on rules: a wildcard has an address that no test looks at,
and a loaded one has 0 there.  So a rule is compared with its canonical form, which decides as it
does.  That the words of a line are read back as the canonical rule is shown option by option, in
the order in which they are written; that the line is cut into these words needs that none of them
is empty or has a blank in it, which is what `Proper` says of the keyword.
-/

namespace LinuxRouter

open Text (lit fmtInt nl cr IsWord spaced)
open Program (replay)

/-! ### Parsed rules -/

/-- A port as a rule has it: none, or one. -/
def IsPort (p : CInt) : Prop := p = -1 ∨ 0 ≤ p ∧ p ≤ 65535

/-- What `fw_parse_rule` gives, of words without white space. -/
structure FwRule.Proper (r : FwRule) : Prop where
  action : r.action = fwDrop ∨ r.action = fwAllow
  source : IsMask r.sipMask ∧ (r.sipMask ≠ 0 → r.sip &&& r.sipMask = r.sip)
  dest : IsMask r.dipMask ∧ (r.dipMask ≠ 0 → r.dip &&& r.dipMask = r.dip)
  proto : r.proto = protoAny ∨ r.proto = protoIcmp ∨ r.proto = protoTcp ∨ r.proto = protoUdp
  sport : IsPort r.sport
  dport : IsPort r.dport
  keyword : ∀ c ∈ r.keyword.1, Text.isWhite c = false

theorem FwRule.Proper.nl_keyword {r : FwRule} (hr : r.Proper) : nl ∉ r.keyword.1 := by
  intro hm
  have := hr.keyword _ hm
  revert this
  decide

theorem isMask_zero : IsMask 0 := ⟨0, by decide, by decide, by decide⟩

theorem proper_blank {a : CInt} (h : a = fwDrop ∨ a = fwAllow) : (FwRule.blank a).Proper :=
  ⟨h, ⟨isMask_zero, fun h => absurd rfl h⟩, ⟨isMask_zero, fun h => absurd rfl h⟩, .inl rfl, .inl rfl,
    .inl rfl, fun _ hc => nomatch hc⟩

variable {r r' : FwRule} {tok : List Byte}

theorem proper_setSource (hr : r.Proper) (h : r.setSource tok = some r') : r'.Proper := by
  unfold FwRule.setSource at h
  split at h
  · cases h
    exact { hr with source := ⟨isMask_zero, fun h => absurd rfl h⟩ }
  · obtain ⟨x, hx, rfl⟩ := Option.map_eq_some_iff.mp h
    exact { hr with source := ⟨isMask_of_parseCidr hx, fun _ => by simp [BitVec.and_assoc]⟩ }

theorem proper_setDest (hr : r.Proper) (h : r.setDest tok = some r') : r'.Proper := by
  unfold FwRule.setDest at h
  split at h
  · cases h
    exact { hr with dest := ⟨isMask_zero, fun h => absurd rfl h⟩ }
  · obtain ⟨x, hx, rfl⟩ := Option.map_eq_some_iff.mp h
    exact { hr with dest := ⟨isMask_of_parseCidr hx, fun _ => by simp [BitVec.and_assoc]⟩ }

theorem parseProto_proper {p : CInt} (h : parseProto tok = some p) :
    p = protoAny ∨ p = protoIcmp ∨ p = protoTcp ∨ p = protoUdp := by
  unfold parseProto at h
  split_ifs at h <;> cases h
  · exact .inr (.inr (.inl rfl))
  · exact .inr (.inr (.inr rfl))
  · exact .inr (.inl rfl)
  · exact .inl rfl

theorem parsePort_isPort {p : CInt} (h : parsePort tok = some p) : IsPort p := by
  simp only [parsePort] at h
  split at h
  · cases h
  · rename_i hp
    cases h
    rw [not_or, Int32.not_lt, Int32.not_lt] at hp
    exact .inr hp

theorem parseKeyword_subset (tok : List Byte) : (parseKeyword tok).1 ⊆ tok := by
  have hstore : ∀ s : List Byte, (Text.CStr.store 64 s).1 ⊆ s := fun s c hc =>
    (List.takeWhile_prefix _).subset (List.mem_of_mem_take hc)
  have hfront : (if tok.head? = some 34#8 then tok.tail else tok) ⊆ tok := by
    split
    · exact List.tail_subset tok
    · exact List.Subset.refl tok
  have hback : ∀ s : List Byte, (if s.getLast? = some 34#8 then s.dropLast else s) ⊆ s := by
    intro s
    split
    · exact List.dropLast_subset s
    · exact List.Subset.refl s
  exact List.Subset.trans (hstore _) (List.Subset.trans (hback _) hfront)

/-- What the options of a rule keep, its arguments keep: the loop of `fw_parse_rule`. -/
theorem fwParseArgs_keeps {P : FwRule → Prop} {args : List (List Byte)}
    (hsrc : ∀ r tok r', P r → r.setSource tok = some r' → P r')
    (hdest : ∀ r tok r', P r → r.setDest tok = some r' → P r')
    (hproto : ∀ r tok p, P r → parseProto tok = some p → P { r with proto := p })
    (hsport : ∀ r tok p, P r → parsePort tok = some p → P { r with sport := p })
    (hdport : ∀ r tok p, P r → parsePort tok = some p → P { r with dport := p })
    (hword : ∀ r, ∀ tok ∈ args, P r → P { r with keyword := parseKeyword tok })
    (hr : P r) (h : fwParseArgs args r = some r') : P r' := by
  fun_induction fwParseArgs args r with
  | case1 r =>
      cases h
      exact hr
  | case2 => cases h
  | case3 arg r => exact hsrc r arg r' hr h
  | case4 arg r arg' args' haddr ih =>
      obtain ⟨r₁, h₁, h⟩ := Option.bind_eq_some_iff.mp h
      obtain ⟨r₂, h₂, h⟩ := Option.bind_eq_some_iff.mp h
      exact ih r₂ (fun r tok hm => hword r tok (by simp [hm]))
        (hdest r₁ arg' r₂ (hsrc r arg r₁ hr h₁) h₂) h
  | case5 arg r arg' args' haddr ih =>
      obtain ⟨r₁, h₁, h⟩ := Option.bind_eq_some_iff.mp h
      exact ih r₁ (fun r tok hm => hword r tok (List.mem_cons_of_mem _ (List.mem_cons_of_mem _ hm)))
        (hsrc r arg r₁ hr h₁) h
  | case6 arg args r hip ih =>
      obtain ⟨p, hp, h⟩ := Option.bind_eq_some_iff.mp h
      exact ih p (fun r tok hm => hword r tok (by simp [hm])) (hproto r arg p hr hp) h
  | case7 arg args r hip hproto' ih =>
      obtain ⟨p, hp, h⟩ := Option.bind_eq_some_iff.mp h
      exact ih p (fun r tok hm => hword r tok (by simp [hm])) (hsport r arg p hr hp) h
  | case8 arg args r hip hproto' hsport' ih =>
      obtain ⟨p, hp, h⟩ := Option.bind_eq_some_iff.mp h
      exact ih p (fun r tok hm => hword r tok (by simp [hm])) (hdport r arg p hr hp) h
  | case9 arg args r hip hproto' hsport' hdport' ih =>
      exact ih (fun r tok hm => hword r tok (by simp [hm])) (hword r arg (by simp) hr) h
  | case10 => cases h

/-- A rule is its action and its arguments: `fw_parse_rule`. -/
theorem fwParseRule_args {argv : List (List Byte)} (h : fwParseRule argv = some r) :
    ∃ a args, (a = fwDrop ∨ a = fwAllow) ∧ args ⊆ argv ∧ fwParseArgs args (.blank a) = some r := by
  cases argv with
  | nil => cases h
  | cons tok args =>
      rw [fwParseRule] at h
      split at h
      · exact ⟨fwDrop, args, .inl rfl, List.subset_cons_self tok args, h⟩
      · split at h
        · exact ⟨fwAllow, args, .inr rfl, List.subset_cons_self tok args, h⟩
        · cases h

/-- **A parsed rule is proper.** -/
theorem proper_fwParseRule {argv : List (List Byte)}
    (hw : ∀ tok ∈ argv, ∀ c ∈ tok, Text.isWhite c = false) (h : fwParseRule argv = some r) :
    r.Proper := by
  obtain ⟨a, args, ha, hs, h⟩ := fwParseRule_args h
  refine fwParseArgs_keeps (fun _ _ _ => proper_setSource) (fun _ _ _ => proper_setDest)
    (fun _ _ _ hr hp => { hr with proto := parseProto_proper hp })
    (fun _ _ _ hr hp => { hr with sport := parsePort_isPort hp })
    (fun _ _ _ hr hp => { hr with dport := parsePort_isPort hp })
    (fun _ tok ht hr => { hr with keyword := fun c hc => ?_ }) (proper_blank ha) h
  exact hw tok (hs ht) c (parseKeyword_subset tok hc)

/-! ### The words of a line -/

def addrWords (clz0 : CInt) (r : FwRule) : List (List Byte) :=
  if r.sipMask ≠ 0 ∨ r.dipMask ≠ 0 then
    [lit "ip", if r.sipMask ≠ 0 then cidrToStr clz0 r.sip r.sipMask else lit "any"] ++
      if r.dipMask ≠ 0 then [cidrToStr clz0 r.dip r.dipMask] else []
  else []

def protoWords (r : FwRule) : List (List Byte) :=
  if r.proto ≠ protoAny then
    [lit "proto", if r.proto = protoTcp then lit "tcp" else if r.proto = protoUdp then lit "udp"
      else lit "icmp"]
  else []

def portWords (key : List Byte) (p : CInt) : List (List Byte) :=
  if 0 ≤ p then [key, fmtInt p.toInt] else []

def keywordWords (r : FwRule) : List (List Byte) :=
  if r.keyword.1 ≠ [] then [lit "keyword", lit "\"" ++ r.keyword.1 ++ lit "\""] else []

/-- The options after the addresses. -/
def moreWords (r : FwRule) : List (List Byte) :=
  protoWords r ++ (portWords (lit "sport") r.sport ++
    (portWords (lit "dport") r.dport ++ keywordWords r))

def actionWord (r : FwRule) : List Byte := if r.action = fwDrop then lit "drop" else lit "allow"

/-- The words of the line of a rule. -/
def fwRuleWords (clz0 : CInt) (r : FwRule) : List (List Byte) :=
  actionWord r :: (addrWords clz0 r ++ moreWords r)

/-- The text of a rule is its words, with a blank between them. -/
theorem fwRulePieces_flatten (clz0 : CInt) (r : FwRule) :
    (fwRulePieces clz0 r).flatten = actionWord r ++ spaced (addrWords clz0 r ++ moreWords r) := by
  -- each piece begins with the blank that separates its words from those before it
  have h₁ : lit " ip " = Text.blank :: (lit "ip" ++ [Text.blank]) := by decide
  have h₂ : lit " proto " = Text.blank :: (lit "proto" ++ [Text.blank]) := by decide
  have h₃ : lit " sport " = Text.blank :: (lit "sport" ++ [Text.blank]) := by decide
  have h₄ : lit " dport " = Text.blank :: (lit "dport" ++ [Text.blank]) := by decide
  have h₅ : lit " keyword \"" = Text.blank :: (lit "keyword" ++ Text.blank :: lit "\"") := by decide
  have h₆ : lit " " = [Text.blank] := by decide
  have haddr : (if r.sipMask ≠ 0 ∨ r.dipMask ≠ 0 then
      [lit " ip ", if r.sipMask ≠ 0 then cidrToStr clz0 r.sip r.sipMask else lit "any"] ++
        if r.dipMask ≠ 0 then [lit " " ++ cidrToStr clz0 r.dip r.dipMask] else []
      else []).flatten = spaced (addrWords clz0 r) := by
    have hdip : (if r.dipMask ≠ 0 then [lit " " ++ cidrToStr clz0 r.dip r.dipMask] else []).flatten =
        spaced (if r.dipMask ≠ 0 then [cidrToStr clz0 r.dip r.dipMask] else []) := by
      rw [h₆]
      split
      · simp [spaced]
      · rfl
    rw [addrWords, h₁]
    split
    · rw [List.flatten_append, hdip, Text.spaced_append]
      simp [spaced]
    · rfl
  have hproto : (if r.proto ≠ protoAny then
      [lit " proto " ++ if r.proto = protoTcp then lit "tcp" else if r.proto = protoUdp then lit "udp"
        else lit "icmp"]
      else []).flatten = spaced (protoWords r) := by
    rw [protoWords, h₂]
    split
    · simp [spaced]
    · rfl
  have hport : ∀ (key text : List Byte) (p : CInt), text = Text.blank :: (key ++ [Text.blank]) →
      (if 0 ≤ p then [text ++ fmtInt p.toInt] else []).flatten = spaced (portWords key p) := by
    rintro key _ p rfl
    rw [portWords]
    split
    · simp [spaced]
    · rfl
  have hkey : (if r.keyword.1 ≠ [] then [lit " keyword \"" ++ r.keyword.1 ++ lit "\""]
      else []).flatten = spaced (keywordWords r) := by
    rw [keywordWords, h₅]
    split
    · simp [spaced]
    · rfl
  rw [fwRulePieces, List.flatten_append, List.flatten_append, List.flatten_append,
    List.flatten_append, List.flatten_append, haddr, hproto, hport _ _ _ h₃, hport _ _ _ h₄, hkey,
    moreWords]
  simp only [Text.spaced_append, List.append_assoc, List.flatten_cons, List.flatten_nil,
    List.append_nil, actionWord]

theorem isWord_quoted {s : List Byte} (h : ∀ c ∈ s, Text.isWhite c = false) :
    IsWord (lit "\"" ++ s ++ lit "\"") :=
  isWord_append (isWord_append (by decide) h) (by decide)

theorem isWord_cidrToStr {m : Ip} (h : IsMask m) (ip : Ip) (clz0 : CInt) :
    IsWord (cidrToStr clz0 ip m) := by
  rw [cidrToStr_eq h]
  split
  · exact isWord_ipToStr ip
  · exact isWord_prefix ip _

theorem isWord_options {clz0 : CInt} (hr : r.Proper) :
    ∀ w ∈ addrWords clz0 r ++ moreWords r, IsWord w := by
  have hproto : IsWord (if r.proto = protoTcp then lit "tcp" else if r.proto = protoUdp then lit "udp"
      else lit "icmp") := by
    split
    · decide
    · split <;> decide
  have hsrc : IsWord (if r.sipMask ≠ 0 then cidrToStr clz0 r.sip r.sipMask else lit "any") := by
    split
    · exact isWord_cidrToStr hr.source.1 _ _
    · decide
  intro w hw
  simp only [addrWords, moreWords, protoWords, portWords, keywordWords, List.mem_append,
    List.mem_ite_nil_right, List.mem_cons, List.not_mem_nil, or_false] at hw
  rcases hw with ⟨-, (rfl | rfl) | ⟨-, rfl⟩⟩ | ⟨-, rfl | rfl⟩ | ⟨-, rfl | rfl⟩ | ⟨-, rfl | rfl⟩ |
    ⟨-, rfl | rfl⟩
  · decide
  · exact hsrc
  · exact isWord_cidrToStr hr.dest.1 _ _
  · decide
  · exact hproto
  · decide
  · exact isWord_fmtInt _
  · decide
  · exact isWord_fmtInt _
  · decide
  · exact isWord_quoted hr.keyword

theorem length_options (clz0 : CInt) (r : FwRule) :
    (addrWords clz0 r ++ moreWords r).length < 15 := by
  have hite : ∀ (p : Prop) [Decidable p] (l : List (List Byte)),
      (if p then l else []).length ≤ l.length := by
    intro p _ l
    split
    · exact le_rfl
    · exact Nat.zero_le _
  have h₁ : (addrWords clz0 r).length ≤ 3 := by
    refine (hite _ _).trans ?_
    have := hite (r.dipMask ≠ 0) [cidrToStr clz0 r.dip r.dipMask]
    rw [List.length_append]
    simp only [List.length_cons, List.length_nil] at this ⊢
    omega
  have h₂ : (protoWords r).length ≤ 2 := hite _ _
  have h₃ : (portWords (lit "sport") r.sport).length ≤ 2 := hite _ _
  have h₄ : (portWords (lit "dport") r.dport).length ≤ 2 := hite _ _
  have h₅ : (keywordWords r).length ≤ 2 := hite _ _
  simp only [moreWords, List.length_append]
  omega

/-- **The words of a saved rule**, as `parse_firewall_line` splits them. -/
theorem lineWords_rule {clz0 : CInt} {stack : ℕ → Byte} (hr : r.Proper) :
    lineWords (fwRuleToLine clz0 stack r) = fwRuleWords clz0 r := by
  rw [fwRuleToLine_eq clz0 stack r, fwRulePieces_flatten]
  have hact : IsWord (actionWord r) ∧ ∃ c t, actionWord r = c :: t ∧ isGap c = false ∧ c ≠ 47#8 := by
    unfold actionWord
    split
    · exact ⟨by decide, 100#8, lit "rop", by decide, by decide, by decide⟩
    · exact ⟨by decide, 97#8, lit "llow", by decide, by decide, by decide⟩
  obtain ⟨hw, c, t, ht, hgap, hslash⟩ := hact
  have hdrop : (actionWord r ++ spaced (addrWords clz0 r ++ moreWords r)).dropWhile isGap =
      actionWord r ++ spaced (addrWords clz0 r ++ moreWords r) := by
    rw [ht, List.cons_append, List.dropWhile_cons_of_neg (by simp [hgap])]
  have hhead : (actionWord r ++ spaced (addrWords clz0 r ++ moreWords r)).head? ≠ some 47#8 := by
    rw [ht, List.cons_append, List.head?_cons]
    exact fun e => hslash (Option.some.inj e)
  simp only [lineWords, hdrop, if_neg hhead, tokSplit]
  exact Text.splitWords_spaced hw (isWord_options hr) (length_options clz0 r)

/-! ### Reading them back -/

/-- The rule with the addresses of 0 that its wildcards do not use. -/
def FwRule.canonical (r : FwRule) : FwRule :=
  { r with
    sip := if r.sipMask = 0 then 0 else r.sip
    dip := if r.dipMask = 0 then 0 else r.dip }

theorem dot_mem_cidrToStr {m : Ip} (h : IsMask m) (ip : Ip) (clz0 : CInt) :
    46#8 ∈ cidrToStr clz0 ip m := by
  have hd : 46#8 ∈ ipToStr ip := by simp [ipToStr]
  rw [cidrToStr_eq h]
  split
  · exact hd
  · rw [List.append_assoc]
    exact List.mem_append_left _ hd

theorem cidrToStr_ne_any {m : Ip} (h : IsMask m) (ip : Ip) (clz0 : CInt) :
    cidrToStr clz0 ip m ≠ lit "any" := by
  intro e
  have := e ▸ dot_mem_cidrToStr h ip clz0
  revert this
  decide

variable {r₀ : FwRule} {rest : List (List Byte)} {clz0 : CInt}

theorem setSource_cidr {m : Ip} (h : IsMask m) (ip : Ip) :
    r₀.setSource (cidrToStr clz0 ip m) = some { r₀ with sip := ip &&& m, sipMask := m } := by
  rw [FwRule.setSource, if_neg (cidrToStr_ne_any h ip clz0), parseCidr_cidrToStr h]
  rfl

theorem setDest_cidr {m : Ip} (h : IsMask m) (ip : Ip) :
    r₀.setDest (cidrToStr clz0 ip m) = some { r₀ with dip := ip &&& m, dipMask := m } := by
  rw [FwRule.setDest, if_neg (cidrToStr_ne_any h ip clz0), parseCidr_cidrToStr h]
  rfl

/-- A source that no destination follows. -/
theorem fwParseArgs_source {arg : List Byte} {r₁ : FwRule} (h : r₀.setSource arg = some r₁)
    (hrest : ∀ w ∈ rest.head?, isAddrToken w = false) :
    fwParseArgs (lit "ip" :: arg :: rest) r₀ = fwParseArgs rest r₁ := by
  cases rest with
  | nil =>
      simp only [fwParseArgs, if_true]
      exact h
  | cons w rest =>
      have hw : isAddrToken w = false := hrest w rfl
      rw [fwParseArgs, if_pos rfl]
      simp only [hw, h, Bool.false_eq_true, if_false, Option.bind_some]

theorem fwParseArgs_both {arg arg' : List Byte} {r₁ r₂ : FwRule} (h : r₀.setSource arg = some r₁)
    (ha : isAddrToken arg' = true) (h' : r₁.setDest arg' = some r₂) :
    fwParseArgs (lit "ip" :: arg :: arg' :: rest) r₀ = fwParseArgs rest r₂ := by
  rw [fwParseArgs, if_pos rfl]
  simp only [ha, h, h', if_true, Option.bind_some]

/-- The addresses, in a rule that has nothing yet. -/
theorem fwParseArgs_addrWords {a : CInt} (hr : r.Proper)
    (hrest : ∀ w ∈ rest.head?, isAddrToken w = false) :
    fwParseArgs (addrWords clz0 r ++ rest) (.blank a) =
      fwParseArgs rest { FwRule.blank a with
        sip := r.canonical.sip, sipMask := r.sipMask
        dip := r.canonical.dip, dipMask := r.dipMask } := by
  obtain ⟨hs, hsip⟩ := hr.source
  obtain ⟨hd, hdip⟩ := hr.dest
  have hany : (FwRule.blank a).setSource (lit "any") = some (.blank a) := rfl
  have hdot : isAddrToken (cidrToStr clz0 r.dip r.dipMask) = true := by
    simp [isAddrToken, dot_mem_cidrToStr hd]
  simp only [addrWords, FwRule.canonical]
  by_cases h₁ : r.sipMask = 0 <;> by_cases h₂ : r.dipMask = 0
  · simp only [h₁, h₂, ne_eq, not_true_eq_false, or_self, if_false, if_true]
    rfl
  · simp only [h₁, h₂, ne_eq, not_true_eq_false, not_false_eq_true, or_true, if_false, if_true,
      List.cons_append, List.nil_append]
    rw [fwParseArgs_both hany hdot (setDest_cidr hd _), hdip h₂]
    rfl
  · simp only [h₁, h₂, ne_eq, not_true_eq_false, not_false_eq_true, or_false, if_false, if_true,
      List.cons_append, List.nil_append]
    rw [fwParseArgs_source (setSource_cidr hs _) hrest, hsip h₁]
    rfl
  · simp only [h₁, h₂, ne_eq, not_false_eq_true, or_self, if_false, if_true, List.cons_append,
      List.nil_append]
    rw [fwParseArgs_both (setSource_cidr hs _) hdot (setDest_cidr hd _), hsip h₁, hdip h₂]

/-- An option with one argument. -/
theorem fwParseArgs_option {arg : List Byte} (h : tok ≠ lit "ip") :
    fwParseArgs (tok :: arg :: rest) r₀ =
      if tok = lit "proto" then
        (parseProto arg).bind fun p => fwParseArgs rest { r₀ with proto := p }
      else if tok = lit "sport" then
        (parsePort arg).bind fun p => fwParseArgs rest { r₀ with sport := p }
      else if tok = lit "dport" then
        (parsePort arg).bind fun p => fwParseArgs rest { r₀ with dport := p }
      else if tok = lit "keyword" then fwParseArgs rest { r₀ with keyword := parseKeyword arg }
      else none := by
  cases rest <;> simp only [fwParseArgs, if_neg h]

/-- The protocol, in a rule that has none yet. -/
theorem fwParseArgs_protoWords (hr : r.Proper) (h₀ : r₀.proto = protoAny) :
    fwParseArgs (protoWords r ++ rest) r₀ = fwParseArgs rest { r₀ with proto := r.proto } := by
  have hne : lit "proto" ≠ lit "ip" := by decide
  have hstep : ∀ arg p, parseProto arg = some p →
      fwParseArgs (lit "proto" :: arg :: rest) r₀ = fwParseArgs rest { r₀ with proto := p } := by
    intro arg p hp
    rw [fwParseArgs_option hne, if_pos rfl, hp, Option.bind_some]
  rw [protoWords]
  rcases hr.proto with h | h | h | h
  · rw [h, if_neg (by simp), List.nil_append, ← h₀]
  · rw [h, if_pos (by decide), if_neg (by decide), if_neg (by decide)]
    exact hstep _ _ rfl
  · rw [h, if_pos (by decide), if_pos rfl]
    exact hstep _ _ rfl
  · rw [h, if_pos (by decide), if_neg (by decide), if_pos rfl]
    exact hstep _ _ rfl

theorem parsePort_fmtInt {p : CInt} (h : 0 ≤ p ∧ p ≤ 65535) : parsePort (fmtInt p.toInt) = some p := by
  simp only [parsePort, Text.atoi_fmtInt]
  exact if_neg (not_or.mpr ⟨Int32.not_lt.mpr h.1, Int32.not_lt.mpr h.2⟩)

theorem portWords_none (key : List Byte) : portWords key (-1) = [] := if_neg (by decide)

theorem portWords_some {key : List Byte} {p : CInt} (h : 0 ≤ p ∧ p ≤ 65535) :
    portWords key p = [key, fmtInt p.toInt] := if_pos h.1

/-- The source port, in a rule that has none yet. -/
theorem fwParseArgs_sport {p : CInt} (hp : IsPort p) (h₀ : r₀.sport = -1) :
    fwParseArgs (portWords (lit "sport") p ++ rest) r₀ =
      fwParseArgs rest { r₀ with sport := p } := by
  rcases hp with rfl | hp
  · rw [portWords_none, List.nil_append, ← h₀]
  · have h₁ : lit "sport" ≠ lit "ip" ∧ lit "sport" ≠ lit "proto" := by decide
    rw [portWords_some hp, List.cons_append, List.cons_append, List.nil_append,
      fwParseArgs_option h₁.1, if_neg h₁.2, if_pos rfl, parsePort_fmtInt hp, Option.bind_some]

/-- The destination port, in a rule that has none yet. -/
theorem fwParseArgs_dport {p : CInt} (hp : IsPort p) (h₀ : r₀.dport = -1) :
    fwParseArgs (portWords (lit "dport") p ++ rest) r₀ =
      fwParseArgs rest { r₀ with dport := p } := by
  rcases hp with rfl | hp
  · rw [portWords_none, List.nil_append, ← h₀]
  · have h₁ : lit "dport" ≠ lit "ip" ∧ lit "dport" ≠ lit "proto" ∧ lit "dport" ≠ lit "sport" := by
      decide
    rw [portWords_some hp, List.cons_append, List.cons_append, List.nil_append,
      fwParseArgs_option h₁.1, if_neg h₁.2.1, if_neg h₁.2.2, if_pos rfl, parsePort_fmtInt hp, Option.bind_some]

/-- One quote is put at each end of a keyword, and one is stripped there. -/
theorem parseKeyword_quoted (k : Text.CStr 64) : parseKeyword (lit "\"" ++ k.1 ++ lit "\"") = k := by
  have hq : lit "\"" = [34#8] := by decide
  rw [hq, List.append_assoc, List.singleton_append]
  simp only [parseKeyword, List.head?_cons, if_true, List.tail_cons, List.getLast?_append,
    List.getLast?_singleton, Option.some_or, List.dropLast_concat]
  exact Text.CStr.store_self k

/-- The keyword, in a rule that has none yet. -/
theorem fwParseArgs_keyword (h₀ : r₀.keyword.1 = []) :
    fwParseArgs (keywordWords r) r₀ = some { r₀ with keyword := r.keyword } := by
  rw [keywordWords]
  split
  · have h₁ : lit "keyword" ≠ lit "ip" ∧ lit "keyword" ≠ lit "proto" ∧ lit "keyword" ≠ lit "sport" ∧
        lit "keyword" ≠ lit "dport" := by decide
    rw [fwParseArgs_option h₁.1, if_neg h₁.2.1, if_neg h₁.2.2.1, if_neg h₁.2.2.2, if_pos rfl,
      parseKeyword_quoted, fwParseArgs]
  · rename_i h
    have hk : r.keyword = r₀.keyword := Subtype.ext ((not_not.mp h).trans h₀.symm)
    rw [hk, fwParseArgs]

/-- What follows the addresses is no address. -/
theorem head_moreWords : ∀ w ∈ (moreWords r).head?, isAddrToken w = false := by
  intro w hw
  have hmem : w = lit "proto" ∨ w = lit "sport" ∨ w = lit "dport" ∨ w = lit "keyword" := by
    simp only [moreWords, protoWords, portWords, keywordWords] at hw
    split_ifs at hw <;> simp at hw <;> simp [hw]
  rcases hmem with rfl | rfl | rfl | rfl <;> decide

/-- **The words of a rule read back**, but for the addresses that its wildcards do not use. -/
theorem fwParseRule_words (hr : r.Proper) : fwParseRule (fwRuleWords clz0 r) = some r.canonical := by
  have hargs : ∀ a, fwParseArgs (addrWords clz0 r ++ moreWords r) (.blank a) =
      some { r.canonical with action := a } := by
    intro a
    rw [fwParseArgs_addrWords hr head_moreWords, moreWords, fwParseArgs_protoWords hr rfl,
      fwParseArgs_sport hr.sport rfl, fwParseArgs_dport hr.dport rfl, fwParseArgs_keyword rfl]
    rfl
  have hne : fwAllow ≠ fwDrop ∧ lit "allow" ≠ lit "drop" := by decide
  rw [fwRuleWords, fwParseRule, actionWord]
  rcases hr.action with h | h
  · rw [h, if_pos rfl, if_pos rfl, hargs, ← h]
    rfl
  · rw [h, if_neg hne.1, if_neg hne.2, if_pos rfl, hargs, ← h]
    rfl

/-! ### The table -/

theorem ruleMatch_canonical (r : FwRule) (f : List Byte) (len : ℕ) :
    ruleMatch r.canonical f len = ruleMatch r f len := by
  have hone : ∀ x m ip : Ip, (m == 0 || x &&& m == if m = 0 then 0 else ip) =
      (m == 0 || x &&& m == ip) := by
    intro x m ip
    split
    · rename_i h
      simp [h]
    · rfl
  have haddr : addrMatch r.canonical f = addrMatch r f := by
    simp only [addrMatch, FwRule.canonical, hone]
  unfold ruleMatch
  rw [haddr]
  rfl

/-- The addresses that a wildcard does not use decide nothing. -/
theorem fwCheck_canonical (rules : List FwRule) (f : List Byte) (len : ℕ) :
    fwCheck (rules.map (·.canonical)) f len = fwCheck rules f len := by
  have hm : ((fun r => ruleMatch r f len) ∘ fun r : FwRule => r.canonical) =
      fun r => ruleMatch r f len := funext fun r => ruleMatch_canonical r f len
  unfold fwCheck
  rw [List.find?_map, hm]
  cases rules.find? fun r => ruleMatch r f len <;> rfl

/-- Rules as `fw_rule_to_line` writes them, one per line under `[firewall]`. -/
def rulesText (clz0 : CInt) (stack : ℕ → Byte) (rules : List FwRule) : List Byte :=
  Text.unlines (lit "[firewall]" :: rules.map (fwRuleToLine clz0 stack))

/-- The lines of such a text, with their section. -/
theorem confLines_rulesText {stack : ℕ → Byte} {rules : List FwRule} (h : ∀ r ∈ rules, r.Proper) :
    confLines [] (Text.fgetsAll 512 (rulesText clz0 stack rules)) =
      rules.map fun r => (lit "firewall", fwRuleToLine clz0 stack r) := by
  have hline : ∀ l ∈ rules.map (fwRuleToLine clz0 stack), TextLine l := by
    intro l hl
    obtain ⟨r, hr, rfl⟩ := List.mem_map.mp hl
    exact textLine_fwRuleToLine clz0 stack (h r hr).nl_keyword
  have hcr : ∀ r ∈ rules, dropEnd cr (fwRuleToLine clz0 stack r) = fwRuleToLine clz0 stack r := by
    intro r hr
    refine dropEnd_of_notMem ?_
    rw [fwRuleToLine_eq clz0 stack r, fwRulePieces_flatten, List.mem_append, not_or]
    refine ⟨?_, Text.notMem_spaced (by decide) (by decide) (isWord_options (h r hr))⟩
    unfold actionWord
    split <;> decide
  have hw : trimLine (lit "[firewall]" ++ [nl]) = 91#8 :: lit "firewall]" := by decide
  have hw' : ((lit "firewall]").takeWhile (· != 93#8)).take 15 = lit "firewall" := by decide
  have hl := @confLines_lines (lit "firewall") _ [] hline
  rw [List.append_nil] at hl
  rw [rulesText, Text.fgetsAll_unlines, List.map_cons, confLines_section hw, hw', hl]
  · simp only [confLines, List.append_nil, List.map_map]
    exact List.map_congr_left fun r hr => congrArg (Prod.mk _) (hcr r hr)
  · intro l hl
    rcases List.mem_cons.mp hl with rfl | hl
    · decide
    · exact ⟨(hline l hl).plain.2, (hline l hl).short⟩

/-- **Every saved rule is read back**, without the addresses its wildcards do not use. -/
theorem ruleOfLine_saved {stack : ℕ → Byte} (hr : r.Proper) :
    ruleOfLine (lit "firewall", fwRuleToLine clz0 stack r) = some r.canonical := by
  have hne : lit "firewall" ≠ lit "filter" := by decide
  rw [ruleOfLine, if_neg hne, if_pos rfl, parseFirewallLine, lineWords_rule hr, fwParseRule_words hr]

/-- Rules of `fw_parse_rule`, of words without white space. -/
def Parsed (rules : List FwRule) : Prop :=
  ∀ r ∈ rules, ∃ argv : List (List Byte), (∀ tok ∈ argv, ∀ c ∈ tok, Text.isWhite c = false) ∧
    fwParseRule argv = some r

/-- **Parsed rules survive saving and loading**: no line is rejected, and the table that
`config_load` leaves decides every frame as the saved one. -/
theorem rules_survive {stack : ℕ → Byte} {rules : List FwRule} (hrules : Parsed rules)
    (hn : rules.length ≤ maxRule) {e : World} {s : Manage} (he : e.opened = true)
    (hs : s.disk.read configFile = some (rulesText clz0 stack rules)) :
    let y := (replay execM e configLoadSteps s).2
    (∀ l ∈ confLines [] (Text.fgetsAll 512 (rulesText clz0 stack rules)), ∃ r, ruleOfLine l = some r) ∧
      y.rules.length = rules.length ∧ ∀ f len, fwCheck y.rules f len = fwCheck rules f len := by
  have hproper : ∀ r ∈ rules, r.Proper := by
    intro r hr
    obtain ⟨argv, hw, h⟩ := hrules r hr
    exact proper_fwParseRule hw h
  have hlines := @confLines_rulesText clz0 stack _ hproper
  have hfile : fileRules (some (rulesText clz0 stack rules)) = rules.map (·.canonical) := by
    rw [fileRules, hlines, List.filterMap_map, ← List.filterMap_eq_map]
    refine List.filterMap_congr fun r hr => ?_
    rw [Function.comp_apply, Function.comp_apply, ruleOfLine_saved (hproper r hr)]
  have hy := (configLoad_tables he hs).1
  rw [described, hfile, List.take_of_length_le (by rwa [List.length_map])] at hy
  refine ⟨fun l hl => ?_, ?_, fun f len => ?_⟩
  · rw [hlines] at hl
    obtain ⟨r, hr, rfl⟩ := List.mem_map.mp hl
    exact ⟨_, ruleOfLine_saved (hproper r hr)⟩
  · rw [hy, List.length_map]
  · rw [hy, fwCheck_canonical]

/-- The arguments of three rules; the second one is given two sources. -/
def someArgs : List (List (List Byte)) :=
  [[lit "drop", lit "ip", lit "any", lit "10.0.0.0/8", lit "keyword", lit "\"a\"b\""],
    [lit "allow", lit "ip", lit "10.0.0.0/8", lit "ip", lit "10.1.0.1"], [lit "drop"]]

/-- An IP header without addresses is dropped by the third of them, also after a reload. -/
theorem rules_survive_some :
    fwCheck (replay execM .fair configLoadSteps
      (.guarded [] (rulesText 0 (fun _ => 0) (someArgs.filterMap fwParseRule)))).2.rules
      (List.replicate 14 0 ++ 0x45#8 :: List.replicate 19 0) 34 = fwDrop := by
  have hw : ∀ argv ∈ someArgs, ∀ tok ∈ argv, ∀ c ∈ tok, Text.isWhite c = false := by decide +kernel
  refine ((rules_survive ?_ ?_ rfl rfl).2.2 _ _).trans (by decide +kernel)
  · intro r hr
    obtain ⟨argv, hargv, h⟩ := List.mem_filterMap.mp hr
    exact ⟨argv, hw argv hargv, h⟩
  · exact (List.length_filterMap_le _ _).trans (by decide)

end LinuxRouter
