import LinuxRouter.Config.Serialize

/-!
# Config — saving and loading the settings

What `config_load` makes of a file that `config_save` wrote.

* `confText_unlines`: the saved text is a list of lines, which `fgets` returns one by one.
* `routerLines_saved`: of these, `parse_router_key` gets the seven settings of `[router]`.
* `load_saved`: so the loader restores every setting but the password, which is not written, and
  a carriage return at the end of the hostname, which the loader takes for a part of the newline.
* `save_load`: the settings survive exactly if there is no such thing; `save_drops_password`.

The proof follows the bytes both ways.  Written, the configuration is a list of lines, none of which
is so long that `fgets` would cut it; read, each of them is trimmed, put into its section, and split
at the `=`.  A setting survives if its text passes through all of these as it is, and for all but
two that is a matter of the bytes it can have.  For the converse one needs to know what the texts of
a running router can be: what came out of a file holds no newline (`nl_notMem_texts`).
-/

namespace LinuxRouter

open Text (lit fmtInt cstr nul nl cr Plain unlines plain_append)

/-! ### The saved lines -/

/-- The settings that are saved. -/
def settingLines (cfg : RouterCfg) : List (List Byte) :=
  [lit "hostname=" ++ cfg.hostname.1,
    lit "threads=" ++ fmtInt cfg.threads.toInt,
    lit "tcp_port=" ++ fmtInt cfg.tcpPort.toInt,
    lit "udp_port=" ++ fmtInt cfg.udpPort.toInt,
    lit "arp_timeout=" ++ fmtInt cfg.arpTimeout.toInt,
    lit "arp_proxy=" ++ fmtInt cfg.arpProxy.toInt,
    lit "log_level=" ++ fmtInt cfg.logLevel.toInt]

def ruleLines (c : ConfSource) : List (List Byte) := c.rules.map (fwRuleToLine c.clz0 c.stack)

def staticLines (c : ConfSource) : List (List Byte) :=
  (c.routes.filter (·.isStatic)).map (routeText c.clz0 c.ifaces)

/-- The lines of the saved text. -/
def savedLines (c : ConfSource) : List (List Byte) :=
  lit "[router]" :: settingLines c.cfg ++
    [[], lit "[filter]", lit "# 旧格式兼容段：drop ip X", [], lit "[firewall]"] ++ ruleLines c ++
    [[], lit "[route]"] ++ staticLines c

/-- **The saved text is a list of lines.** -/
theorem confText_unlines (c : ConfSource) : confText c = unlines (savedLines c) := by
  have h₁ : lit "[router]\n" = lit "[router]" ++ [nl] := by decide
  have h₂ : lit "\n[filter]\n# 旧格式兼容段：drop ip X\n" =
      [nl] ++ (lit "[filter]" ++ ([nl] ++ (lit "# 旧格式兼容段：drop ip X" ++ [nl]))) := by decide
  have h₃ : lit "\n[firewall]\n" = [nl] ++ (lit "[firewall]" ++ [nl]) := by decide
  have h₄ : lit "\n[route]\n" = [nl] ++ (lit "[route]" ++ [nl]) := by decide
  have h₅ : ((c.rules.map fun r => fwRuleToLine c.clz0 c.stack r ++ [nl])).flatten =
      unlines (ruleLines c) := by
    rw [unlines, ruleLines, List.flatMap_map, List.flatMap_def]
  have h₆ : ((c.routes.filter (·.isStatic)).map fun r => routeText c.clz0 c.ifaces r ++ [nl]).flatten =
      unlines (staticLines c) := by
    rw [unlines, staticLines, List.flatMap_map, List.flatMap_def]
  simp only [confText, confPieces, routerPieces, savedLines, settingLines, List.flatten_append,
    List.flatten_cons, List.flatten_nil, h₁, h₂, h₃, h₄, h₅, h₆]
  simp only [unlines, List.flatMap_append, List.flatMap_cons, List.append_assoc,
    List.nil_append, List.append_nil, List.cons_append]

/-! ### Each of them is one line -/

/-- The rules and the interfaces have names of one line: a keyword is a part of one line of a file,
of the terminal or of a connection, and no interface has a blank in its name. -/
structure ConfSource.OneLine (c : ConfSource) : Prop where
  hostname : nl ∉ c.cfg.hostname.1
  keyword : ∀ r ∈ c.rules, nl ∉ r.keyword.1
  name : ∀ it ∈ c.ifaces, nl ∉ it.name.1

theorem plain_ipToStr (ip : Ip) : Plain (ipToStr ip) := by
  have h : ∀ s : List Byte, Plain (46#8 :: s) ↔ Plain s := by
    intro s
    simp [Plain, nul, nl]
  simp only [ipToStr, plain_append, h]
  exact ⟨⟨⟨Text.plain_fmtNat _, Text.plain_fmtNat _⟩, Text.plain_fmtNat _⟩, Text.plain_fmtNat _⟩

theorem plain_cidrToStr (clz0 : CInt) (ip mask : Ip) : Plain (cidrToStr clz0 ip mask) := by
  refine Text.CStr.plain_store ?_
  split
  · exact (plain_ipToStr ip).2
  · exact (plain_append.mpr ⟨plain_append.mpr ⟨plain_ipToStr ip, by decide⟩,
      Text.plain_fmtInt _⟩).2

/-- What holds of plain texts and of the keyword, and of texts put together, holds of a rule's. -/
theorem forall_fwRulePieces {P : List Byte → Prop} (happend : ∀ {s t}, P s → P t → P (s ++ t))
    (hplain : ∀ {s}, Plain s → P s) (clz0 : CInt) {r : FwRule} (hk : P r.keyword.1) :
    ∀ s ∈ fwRulePieces clz0 r, P s := by
  intro s hs
  simp only [fwRulePieces, List.mem_append, List.mem_ite_nil_right, List.mem_cons,
    List.not_mem_nil, or_false] at hs
  rcases hs with ((((rfl | ⟨-, (rfl | rfl) | ⟨-, rfl⟩⟩) | ⟨-, rfl⟩) | ⟨-, rfl⟩) | ⟨-, rfl⟩) | ⟨-, rfl⟩
  · refine hplain ?_
    split <;> decide
  · exact hplain (by decide)
  · refine hplain ?_
    split
    · exact plain_cidrToStr clz0 _ _
    · decide
  · exact happend (hplain (by decide)) (hplain (plain_cidrToStr clz0 _ _))
  · refine happend (hplain (by decide)) (hplain ?_)
    split
    · decide
    · split <;> decide
  · exact happend (hplain (by decide)) (hplain (Text.plain_fmtInt _))
  · exact happend (hplain (by decide)) (hplain (Text.plain_fmtInt _))
  · exact happend (happend (hplain (by decide)) hk) (hplain (by decide))

theorem plain_fwRulePieces (clz0 : CInt) {r : FwRule} (h : nl ∉ r.keyword.1) :
    ∀ s ∈ fwRulePieces clz0 r, Plain s :=
  forall_fwRulePieces (fun h h' => plain_append.mpr ⟨h, h'⟩) id clz0 ⟨r.keyword.2.2, h⟩

theorem nul_notMem_fwRulePieces (clz0 : CInt) (r : FwRule) : ∀ s ∈ fwRulePieces clz0 r, nul ∉ s :=
  forall_fwRulePieces (fun h h' => by rw [List.mem_append, not_or]; exact ⟨h, h'⟩) And.left clz0
    r.keyword.2.2

theorem length_cidrToStr (clz0 : CInt) (ip mask : Ip) : (cidrToStr clz0 ip mask).length ≤ 23 :=
  Nat.le_of_lt_succ (Text.CStr.store 24 _).2.1

/-- The text of a rule fits its `char[256]`. -/
theorem length_fwRulePieces (clz0 : CInt) (r : FwRule) :
    (fwRulePieces clz0 r).flatten.length < 256 := by
  have hite : ∀ (p : Prop) [Decidable p] (l : List (List Byte)) (k : ℕ), l.flatten.length ≤ k →
      (if p then l else []).flatten.length ≤ k := by
    intro p _ l k h
    split
    · exact h
    · simp
  have hone : ∀ s t : List Byte, ([s ++ t] : List (List Byte)).flatten.length = s.length + t.length := by
    simp
  -- the longest piece of each condition, in the order of the text
  have h₁ : ([if r.action = fwDrop then lit "drop" else lit "allow"]).flatten.length ≤ 5 := by
    split <;> decide
  have h₂ : (if r.sipMask ≠ 0 ∨ r.dipMask ≠ 0 then
      [lit " ip ", if r.sipMask ≠ 0 then cidrToStr clz0 r.sip r.sipMask else lit "any"] ++
        if r.dipMask ≠ 0 then [lit " " ++ cidrToStr clz0 r.dip r.dipMask] else []
      else []).flatten.length ≤ 51 := by
    refine hite _ _ _ ?_
    rw [List.flatten_append, List.length_append]
    have ha : ([lit " ip ", if r.sipMask ≠ 0 then cidrToStr clz0 r.sip r.sipMask
        else lit "any"]).flatten.length ≤ 27 := by
      have := length_cidrToStr clz0 r.sip r.sipMask
      have h₄ : (lit " ip ").length = 4 ∧ (lit "any").length = 3 := by decide
      split <;> simp only [List.flatten_cons, List.flatten_nil, List.length_append,
        List.length_nil, h₄] <;> omega
    have hb : (if r.dipMask ≠ 0 then [lit " " ++ cidrToStr clz0 r.dip r.dipMask]
        else []).flatten.length ≤ 24 := by
      refine hite _ _ _ ?_
      have := length_cidrToStr clz0 r.dip r.dipMask
      have h₄ : (lit " ").length = 1 := by decide
      rw [hone, h₄]
      omega
    omega
  have h₃ : (if r.proto ≠ protoAny then
      [lit " proto " ++ if r.proto = protoTcp then lit "tcp"
        else if r.proto = protoUdp then lit "udp" else lit "icmp"]
      else []).flatten.length ≤ 11 := by
    refine hite _ _ _ ?_
    split
    · decide
    · split <;> decide
  have hport : ∀ (p : Prop) [Decidable p] (k : List Byte) (x : CInt), k.length = 7 →
      (if p then [k ++ fmtInt x.toInt] else []).flatten.length ≤ 18 := by
    intro p _ k x hk
    refine hite _ _ _ ?_
    have := length_fmtInt x
    rw [hone]
    omega
  have h₄ := hport (0 ≤ r.sport) (lit " sport ") r.sport (by decide)
  have h₅ := hport (0 ≤ r.dport) (lit " dport ") r.dport (by decide)
  have h₆ : (if r.keyword.1 ≠ [] then [lit " keyword \"" ++ r.keyword.1 ++ lit "\""]
      else []).flatten.length ≤ 75 := by
    refine hite _ _ _ ?_
    have hk := r.keyword.2.1
    have h₇ : (lit " keyword \"").length = 10 ∧ (lit "\"").length = 1 := by decide
    rw [hone, List.length_append, h₇.1, h₇.2]
    omega
  simp only [fwRulePieces, List.flatten_append, List.length_append] at *
  omega

/-- So the line of a rule is its whole text. -/
theorem fwRuleToLine_eq (clz0 : CInt) (stack : ℕ → Byte) (r : FwRule) :
    fwRuleToLine clz0 stack r = (fwRulePieces clz0 r).flatten := by
  refine Printf.putAll_string (by decide) (length_fwRulePieces clz0 r) (by simp [fwRulePieces]) ?_
  rw [List.mem_flatten, not_exists]
  exact fun s hs => nul_notMem_fwRulePieces clz0 r s hs.1 hs.2

/-- Neither blank nor a comment nor the start of a section. -/
def Opens (c : Byte) : Prop := isGap c = false ∧ c ≠ cr ∧ c ≠ 35#8 ∧ c ≠ 91#8

instance (c : Byte) : Decidable (Opens c) := inferInstanceAs (Decidable (_ ∧ _))

/-- A line with text, which `fgets` reads in one call. -/
structure TextLine (l : List Byte) : Prop where
  plain : Plain l
  short : l.length + 1 < 512
  opens : ∃ c t, l = c :: t ∧ Opens c

theorem textLine_fwRuleToLine (clz0 : CInt) (stack : ℕ → Byte) {r : FwRule}
    (hk : nl ∉ r.keyword.1) : TextLine (fwRuleToLine clz0 stack r) := by
  have hlen := length_fwRulePieces clz0 r
  rw [fwRuleToLine_eq clz0 stack r]
  refine ⟨Text.plain_flatten.mpr (plain_fwRulePieces clz0 hk), by omega, ?_⟩
  have hd : lit "drop" = 100#8 :: lit "rop" := by decide
  have ha : lit "allow" = 97#8 :: lit "llow" := by decide
  obtain ⟨ss, hs⟩ : ∃ ss, fwRulePieces clz0 r =
      (if r.action = fwDrop then lit "drop" else lit "allow") :: ss := ⟨_, rfl⟩
  rw [hs, List.flatten_cons]
  split
  · rw [hd]
    exact ⟨_, _, List.cons_append, by decide⟩
  · rw [ha]
    exact ⟨_, _, List.cons_append, by decide⟩

theorem textLine_rule {c : ConfSource} (h : c.OneLine) : ∀ l ∈ ruleLines c, TextLine l := by
  intro l hl
  obtain ⟨r, hr, rfl⟩ := List.mem_map.mp hl
  exact textLine_fwRuleToLine c.clz0 c.stack (h.keyword r hr)

/-- An address starts with a digit. -/
theorem ipToStr_cons (ip : Ip) : ∃ c t, ipToStr ip = c :: t ∧ Opens c := by
  simp only [ipToStr]
  generalize (ip >>> 24 &&& 255#32).toNat = n
  have hd := Text.digits_fmtNat n
  obtain ⟨c, t, ht⟩ := List.exists_cons_of_ne_nil (Text.fmtNat_ne_nil n)
  rw [ht] at hd ⊢
  refine ⟨c, _, List.cons_append, ?_⟩
  have hc : Text.isDigit c = true := hd c (by simp)
  clear ht hd
  revert c
  decide

/-- The text of a route, with the name of its interface. -/
theorem textLine_routeText {clz0 : CInt} {ifs : Ifaces} {r : Route}
    (h : ∀ it, ifaceByIndex ifs r.ifindex = some it → nl ∉ it.name.1) :
    TextLine (routeText clz0 ifs r) := by
  have hlen := length_routeText clz0 ifs r
  refine ⟨?_, by omega, ?_⟩
  · have hd : Plain (ipToStr r.dest ++ lit "/" ++ fmtInt (prefixLen clz0 r.mask).toInt) :=
      plain_append.mpr ⟨plain_append.mpr ⟨plain_ipToStr _, by decide⟩, Text.plain_fmtInt _⟩
    unfold routeText
    refine plain_append.mpr ⟨plain_append.mpr ⟨?_, by decide⟩, ?_⟩
    · split
      · exact plain_append.mpr ⟨plain_append.mpr ⟨hd, by decide⟩, plain_ipToStr _⟩
      · exact hd
    · split
      · rename_i it hit
        exact ⟨it.name.2.2, h it hit⟩
      · decide
  · obtain ⟨d, t, ht, hd⟩ := ipToStr_cons r.dest
    obtain ⟨t', ht'⟩ : ∃ t', routeText clz0 ifs r = ipToStr r.dest ++ t' := by
      unfold routeText
      simp only [List.append_assoc]
      split <;> exact ⟨_, List.append_assoc _ _ _⟩
    rw [ht', ht]
    exact ⟨d, _, List.cons_append, hd⟩

theorem textLine_static {c : ConfSource} (h : c.OneLine) : ∀ l ∈ staticLines c, TextLine l := by
  intro l hl
  obtain ⟨r, -, rfl⟩ := List.mem_map.mp hl
  exact textLine_routeText fun it hit => h.name it (List.mem_of_find?_eq_some hit)

/-! ### What the loader makes of them -/

theorem dropEnd_append {s t : List Byte} (x : Byte) (ht : t ≠ []) :
    dropEnd x (s ++ t) = s ++ dropEnd x t := by
  unfold dropEnd
  rw [List.getLast?_append_of_ne_nil _ ht, List.dropLast_append_of_ne_nil ht]
  split <;> rfl

theorem dropEnd_cons {c x : Byte} (hc : c ≠ x) (t : List Byte) :
    dropEnd x (c :: t) = c :: dropEnd x t := by
  cases t with
  | nil => simp [dropEnd, hc]
  | cons d t => exact dropEnd_append (s := [c]) x (by simp)

theorem dropEnd_of_notMem {s : List Byte} {x : Byte} (h : x ∉ s) : dropEnd x s = s := by
  unfold dropEnd
  exact if_neg fun e => h (List.mem_of_getLast? e)

theorem trimLine_line {l : List Byte} (h : Plain l) :
    trimLine (l ++ [nl]) = (dropEnd cr l).dropWhile isGap := by
  have hz : nul ∉ l ++ [nl] := by
    simp only [List.mem_append, List.mem_singleton, not_or]
    exact ⟨h.1, by decide⟩
  have hn : dropEnd nl [nl] = [] := by decide
  rw [trimLine, Text.cstr_eq_self hz, dropEnd_append nl (by simp), hn, List.append_nil]

/-- The first byte of a line stays in front. -/
theorem trimLine_cons {c : Byte} {t : List Byte} (h : Plain (c :: t)) (hc : isGap c = false)
    (hr : c ≠ cr) : trimLine (c :: (t ++ [nl])) = c :: dropEnd cr t := by
  rw [← List.cons_append, trimLine_line h, dropEnd_cons hr,
    List.dropWhile_cons_of_neg (by simp [hc])]

theorem confLines_text {sec line p : List Byte} {lines : List (List Byte)} {c : Byte}
    (h : trimLine line = c :: p) (h₁ : c ≠ 35#8) (h₂ : c ≠ 91#8) :
    confLines sec (line :: lines) = (sec, c :: p) :: confLines sec lines := by
  simp only [confLines, h, h₁, h₂, if_false]

theorem confLines_section {sec line p : List Byte} {lines : List (List Byte)}
    (h : trimLine line = 91#8 :: p) :
    confLines sec (line :: lines) = confLines ((p.takeWhile (· != 93#8)).take 15) lines := by
  have : (91#8 : Byte) ≠ 35#8 := by decide
  simp only [confLines, h, this, if_false, if_true]

theorem confLines_blank {sec line : List Byte} {lines : List (List Byte)}
    (h : trimLine line = [] ∨ ∃ p, trimLine line = 35#8 :: p) :
    confLines sec (line :: lines) = confLines sec lines := by
  rcases h with h | ⟨p, h⟩
  · simp only [confLines, h]
  · simp only [confLines, h, if_true]

/-- Lines with text, in the section they are in. -/
theorem confLines_lines {sec : List Byte} {ls rest : List (List Byte)} (h : ∀ l ∈ ls, TextLine l) :
    confLines sec (ls.map (· ++ [nl]) ++ rest) =
      ls.map (fun l => (sec, dropEnd cr l)) ++ confLines sec rest := by
  induction ls with
  | nil => rfl
  | cons l ls ih =>
      obtain ⟨hp, -, c, t, rfl, hg, hr, h35, h91⟩ := h l (by simp)
      rw [List.map_cons, List.cons_append, List.cons_append, confLines_text (trimLine_cons hp hg hr)
        h35 h91, ih fun l' hl' => h l' (by simp [hl']), List.map_cons, List.cons_append,
        dropEnd_cons hr]

/-- A setting of `[router]`. -/
theorem textLine_setting {k v : List Byte} (hk : k.length ≤ 12 ∧ Plain k ∧ ∃ c t, k = c :: t ∧ Opens c)
    (hv : v.length ≤ 40) (hp : Plain v) : TextLine (k ++ v) := by
  obtain ⟨hlen, hpk, c, t, rfl, hc⟩ := hk
  refine ⟨plain_append.mpr ⟨hpk, hp⟩, ?_, c, t ++ v, rfl, hc⟩
  rw [List.length_append]
  omega

theorem textLine_settings {cfg : RouterCfg} (h : nl ∉ cfg.hostname.1) :
    ∀ l ∈ settingLines cfg, TextLine l := by
  have hn : ∀ {k : List Byte} (x : CInt), (k.length ≤ 12 ∧ Plain k ∧ ∃ c t, k = c :: t ∧ Opens c) →
      TextLine (k ++ fmtInt x.toInt) := by
    intro k x hk
    refine textLine_setting hk ?_ (Text.plain_fmtInt _)
    have := length_fmtInt x
    omega
  simp only [settingLines, List.forall_mem_cons, List.not_mem_nil, false_imp_iff, implies_true,
    and_true]
  refine ⟨textLine_setting ⟨by decide, by decide, _, _, rfl, by decide⟩ ?_ ⟨cfg.hostname.2.2, h⟩,
    hn _ ⟨by decide, by decide, _, _, rfl, by decide⟩,
    hn _ ⟨by decide, by decide, _, _, rfl, by decide⟩,
    hn _ ⟨by decide, by decide, _, _, rfl, by decide⟩,
    hn _ ⟨by decide, by decide, _, _, rfl, by decide⟩,
    hn _ ⟨by decide, by decide, _, _, rfl, by decide⟩,
    hn _ ⟨by decide, by decide, _, _, rfl, by decide⟩⟩
  have := cfg.hostname.2.1
  omega

/-- **The lines of a saved file**, each with the section it is in. -/
theorem confLines_saved {c : ConfSource} (hn : nl ∉ c.cfg.hostname.1)
    (hrules : ∀ l ∈ ruleLines c, TextLine l) (hroutes : ∀ l ∈ staticLines c, TextLine l) :
    confLines [] (Text.fgetsAll 512 (confText c)) =
      (settingLines c.cfg).map (fun l => (lit "router", dropEnd cr l)) ++
        ((ruleLines c).map (fun l => (lit "firewall", dropEnd cr l)) ++
          (staticLines c).map fun l => (lit "route", dropEnd cr l)) := by
  have hl : ∀ l ∈ savedLines c, nl ∉ l ∧ l.length + 1 < 512 := by
    intro l hl
    have ht : ∀ {l}, TextLine l → nl ∉ l ∧ l.length + 1 < 512 := fun h => ⟨h.plain.2, h.short⟩
    simp only [savedLines, List.mem_append, List.mem_cons, List.not_mem_nil, or_false] at hl
    rcases hl with ((((rfl | hl) | hl) | hl) | hl) | hl
    · decide
    · exact ht (textLine_settings hn l hl)
    · rcases hl with rfl | rfl | rfl | rfl | rfl <;> decide
    · exact ht (hrules l hl)
    · rcases hl with rfl | rfl <;> decide
    · exact ht (hroutes l hl)
  rw [confText_unlines, Text.fgetsAll_unlines hl, savedLines]
  simp only [List.map_append, List.append_assoc, List.cons_append, List.map_cons,
    List.nil_append]
  have hr : trimLine (lit "[router]" ++ [nl]) = 91#8 :: lit "router]" := by decide
  have hf : trimLine (lit "[filter]" ++ [nl]) = 91#8 :: lit "filter]" := by decide
  have hw : trimLine (lit "[firewall]" ++ [nl]) = 91#8 :: lit "firewall]" := by decide
  have ho : trimLine (lit "[route]" ++ [nl]) = 91#8 :: lit "route]" := by decide
  have hr' : ((lit "router]").takeWhile (· != 93#8)).take 15 = lit "router" := by decide
  have hw' : ((lit "firewall]").takeWhile (· != 93#8)).take 15 = lit "firewall" := by decide
  have ho' : ((lit "route]").takeWhile (· != 93#8)).take 15 = lit "route" := by decide
  have hc : ∃ p, trimLine (lit "# 旧格式兼容段：drop ip X" ++ [nl]) = 35#8 :: p :=
    ⟨(lit "# 旧格式兼容段：drop ip X").tail, by decide⟩
  have he : trimLine [nl] = [] := by decide
  have hs := @confLines_lines (lit "route") _ [] hroutes
  rw [List.append_nil] at hs
  rw [confLines_section hr, hr', confLines_lines (textLine_settings hn),
    confLines_blank (.inl he), confLines_section hf, confLines_blank (.inr hc),
    confLines_blank (.inl he), confLines_section hw, hw', confLines_lines hrules,
    confLines_blank (.inl he), confLines_section ho, ho', hs]
  simp only [confLines, List.append_nil]

/-- The lines for `parse_router_key` among those of a file. -/
def keyLines (sec : List Byte) (lines : List (List Byte)) : List (List Byte) :=
  (confLines sec lines).filterMap fun x => if x.1 = lit "router" then some x.2 else none

/-- **Of a saved file, `parse_router_key` gets the settings.** -/
theorem routerLines_saved {c : ConfSource} (h : c.OneLine) :
    routerLines (confText c) = (settingLines c.cfg).map (dropEnd cr) := by
  have hw : lit "firewall" ≠ lit "router" := by decide
  have ho : lit "route" ≠ lit "router" := by decide
  have hother : ∀ (sec : List Byte) (ls : List (List Byte)), sec ≠ lit "router" →
      (ls.map fun l => (sec, dropEnd cr l)).filterMap
        (fun x => if x.1 = lit "router" then some x.2 else none) = [] := by
    intro sec ls hsec
    rw [List.filterMap_map]
    exact List.filterMap_eq_nil_iff.mpr fun l _ => if_neg hsec
  change keyLines [] _ = _
  rw [keyLines, confLines_saved h.hostname (textLine_rule h) (textLine_static h),
    List.filterMap_append, List.filterMap_append, hother _ _ hw,
    hother _ _ ho, List.append_nil, List.append_nil, List.filterMap_map]
  refine List.filterMap_eq_map_iff_forall_eq_some.mpr fun l _ => ?_
  simp only [Function.comp_apply, if_true]

/-! ### What the parser makes of the settings -/

/-- A key as `parse_router_key` compares it. -/
def IsKey (k : List Byte) : Prop :=
  k.length < 40 ∧ nul ∉ k ∧ 61#8 ∉ k ∧ k.dropWhile isGap = k ∧
    k.reverse.dropWhile isGap = k.reverse

instance (k : List Byte) : Decidable (IsKey k) := inferInstanceAs (Decidable (_ ∧ _))

theorem routerKey_setting {k v : List Byte} (hk : IsKey k) (hv : nul ∉ v) (hl : v.length < 128) :
    routerKey (k ++ 61#8 :: v) = some (k, v) := by
  obtain ⟨hlen, hz, heq, hl₁, hl₂⟩ := hk
  have hne : ∀ c ∈ k, (c != 61#8) = true := by
    intro c hc
    have : c ≠ 61#8 := fun e => heq (e ▸ hc)
    simpa using this
  have hd : (k ++ 61#8 :: v).dropWhile (· != 61#8) = 61#8 :: v := by
    rw [List.dropWhile_append_of_pos hne]
    simp
  have ht : (k ++ 61#8 :: v).takeWhile (· != 61#8) = k := by
    rw [List.takeWhile_append_of_pos hne]
    simp
  simp only [routerKey, hd, ht, Text.CStr.store_val hz hlen,
    Text.CStr.store_val hv hl, hl₁, hl₂, List.reverse_reverse]

/-- What is loaded of a line with a key and a value. -/
theorem parseRouterKey_cfg {p key val : List Byte} (h : routerKey p = some (key, val))
    {s : Settings} {cfg : RouterCfg} (ha : s.cfg.assign key val = some cfg) :
    (parseRouterKey p s).cfg = cfg := by
  have ht : ∀ (x : CInt) (s : Settings), (s.setTimeout x).cfg = s.cfg := by
    intro x s
    unfold Settings.setTimeout
    split <;> rfl
  have hg : ∀ (x : CInt) (s : Settings), (logSetLevel x s).cfg = s.cfg := by
    intro x s
    unfold logSetLevel
    split <;> rfl
  simp only [parseRouterKey, h, ha]
  split <;> split <;> simp only [ht, hg]

/-- A sequence of settings. -/
theorem load_settings {kvs : List (List Byte × List Byte)} {s : Settings} {cfg : RouterCfg}
    (h : ∀ kv ∈ kvs, IsKey kv.1 ∧ nul ∉ kv.2 ∧ kv.2.length < 128)
    (ha : kvs.foldlM (fun cfg kv => cfg.assign kv.1 kv.2) s.cfg = some cfg) :
    ((kvs.map fun kv => kv.1 ++ 61#8 :: kv.2).foldl (fun s p => parseRouterKey p s) s).cfg = cfg := by
  induction kvs generalizing s with
  | nil => exact Option.some.inj ha
  | cons kv kvs ih =>
      obtain ⟨hk, hv, hl⟩ := h kv (by simp)
      rw [List.foldlM_cons] at ha
      obtain ⟨cfg', h₁, h₂⟩ := Option.bind_eq_some_iff.mp ha
      refine ih (fun kv' hkv' => h kv' (by simp [hkv'])) ?_
      rw [parseRouterKey_cfg (routerKey_setting hk hv hl) h₁]
      exact h₂

/-- The keys and values of a saved file. -/
def savedKeys (cfg : RouterCfg) : List (List Byte × List Byte) :=
  [(lit "hostname", dropEnd cr cfg.hostname.1),
    (lit "threads", fmtInt cfg.threads.toInt),
    (lit "tcp_port", fmtInt cfg.tcpPort.toInt),
    (lit "udp_port", fmtInt cfg.udpPort.toInt),
    (lit "arp_timeout", fmtInt cfg.arpTimeout.toInt),
    (lit "arp_proxy", fmtInt cfg.arpProxy.toInt),
    (lit "log_level", fmtInt cfg.logLevel.toInt)]

theorem settingLines_trim (cfg : RouterCfg) :
    (settingLines cfg).map (dropEnd cr) = (savedKeys cfg).map fun kv => kv.1 ++ 61#8 :: kv.2 := by
  have hk : ∀ {k k' : List Byte} (v : List Byte), k = k' ++ [61#8] →
      dropEnd cr (k ++ v) = k' ++ 61#8 :: dropEnd cr v := by
    rintro k k' v rfl
    rw [List.append_assoc, dropEnd_append cr (by simp), List.singleton_append,
      dropEnd_cons (by decide)]
  have hn : ∀ x : CInt, dropEnd cr (fmtInt x.toInt) = fmtInt x.toInt := by
    intro x
    refine dropEnd_of_notMem fun h => ?_
    have := Text.mem_fmtInt h
    revert this
    decide
  have h₁ : lit "hostname=" = lit "hostname" ++ [61#8] := by decide
  have h₂ : lit "threads=" = lit "threads" ++ [61#8] := by decide
  have h₃ : lit "tcp_port=" = lit "tcp_port" ++ [61#8] := by decide
  have h₄ : lit "udp_port=" = lit "udp_port" ++ [61#8] := by decide
  have h₅ : lit "arp_timeout=" = lit "arp_timeout" ++ [61#8] := by decide
  have h₆ : lit "arp_proxy=" = lit "arp_proxy" ++ [61#8] := by decide
  have h₇ : lit "log_level=" = lit "log_level" ++ [61#8] := by decide
  simp only [settingLines, savedKeys, List.map_cons, List.map_nil, hk _ h₁, hk _ h₂, hk _ h₃,
    hk _ h₄, hk _ h₅, hk _ h₆, hk _ h₇, hn]

/-- **What the loader restores**: everything but the password, and the hostname without a carriage
return at its end. -/
theorem load_saved {c : ConfSource} (h : c.OneLine) (s : Settings) :
    (configLoad (confText c) s).cfg =
      { c.cfg with
        hostname := Text.CStr.store 32 (dropEnd cr c.cfg.hostname.1)
        password := Text.CStr.store 64 [] } := by
  rw [configLoad, routerLines_saved h, settingLines_trim]
  have hh := c.cfg.hostname.2
  have hd : dropEnd cr c.cfg.hostname.1 ⊆ c.cfg.hostname.1 ∧
      (dropEnd cr c.cfg.hostname.1).length ≤ c.cfg.hostname.1.length := by
    unfold dropEnd
    split
    · exact ⟨List.dropLast_subset _, by simp⟩
    · exact ⟨List.Subset.refl _, le_rfl⟩
  have hn : ∀ x : CInt, nul ∉ fmtInt x.toInt ∧ (fmtInt x.toInt).length < 128 := by
    intro x
    have := length_fmtInt x
    exact ⟨(Text.plain_fmtInt _).1, by omega⟩
  refine load_settings ?_ ?_
  · simp only [savedKeys, List.forall_mem_cons, List.not_mem_nil, false_imp_iff, implies_true,
      and_true]
    exact ⟨⟨by decide, fun hm => hh.2 (hd.1 hm), by omega⟩, ⟨by decide, hn _⟩, ⟨by decide, hn _⟩,
      ⟨by decide, hn _⟩, ⟨by decide, hn _⟩, ⟨by decide, hn _⟩, ⟨by decide, hn _⟩⟩
  · have ha : ∀ cfg : RouterCfg, (savedKeys cfg).foldlM (fun cfg kv => cfg.assign kv.1 kv.2)
        (configDefault s).cfg = some
          { hostname := Text.CStr.store 32 (dropEnd cr cfg.hostname.1)
            password := cfgDefault.password
            threads := Text.atoi (fmtInt cfg.threads.toInt)
            tcpPort := Text.atoi (fmtInt cfg.tcpPort.toInt)
            udpPort := Text.atoi (fmtInt cfg.udpPort.toInt)
            arpTimeout := Text.atoi (fmtInt cfg.arpTimeout.toInt)
            arpProxy := Text.atoi (fmtInt cfg.arpProxy.toInt)
            logLevel := Text.atoi (fmtInt cfg.logLevel.toInt) } := fun cfg => rfl
    rw [ha]
    simp only [Text.atoi_fmtInt]
    rfl

/-! ### What a file can store -/

theorem notMem_dropEnd {x : Byte} {s : List Byte} (h : x ∉ s.dropLast) : x ∉ dropEnd x s := by
  unfold dropEnd
  split
  · exact h
  · rename_i hne
    exact fun hm => h (List.mem_dropLast_of_mem_of_ne_getLast? hm fun e => hne e.symm)

theorem dropEnd_subset (x : Byte) (s : List Byte) : dropEnd x s ⊆ s := by
  unfold dropEnd
  split
  · exact List.dropLast_subset _
  · exact fun _ h => h

/-- A line of a file holds no newline. -/
theorem nl_notMem_trimLine {l : List Byte} (h : nl ∉ l.dropLast) : nl ∉ trimLine l := by
  have hc : nl ∉ (cstr l).dropLast := by
    obtain ⟨t, ht⟩ : cstr l <+: l := List.takeWhile_prefix _
    rcases eq_or_ne t [] with rfl | hne
    · rw [List.append_nil] at ht
      rwa [ht]
    · rw [← ht, List.dropLast_append_of_ne_nil hne, List.mem_append, not_or] at h
      exact fun hm => h.1 (List.dropLast_subset _ hm)
  intro hm
  have hd := (List.dropWhile_sublist _).subset hm
  exact notMem_dropEnd hc (dropEnd_subset _ _ hd)

theorem nl_notMem_routerLines {file p : List Byte} (h : p ∈ routerLines file) : nl ∉ p := by
  have hl : ∀ {sec ls} {x : List Byte × List Byte}, (∀ l ∈ ls, nl ∉ l.dropLast) →
      x ∈ confLines sec ls → nl ∉ x.2 := by
    intro sec ls x hls hx
    induction ls generalizing sec with
    | nil => cases hx
    | cons l ls ih =>
        have hls' := fun l' hl' => hls l' (List.mem_cons_of_mem _ hl')
        have ht := nl_notMem_trimLine (hls l (by simp))
        simp only [confLines] at hx
        split at hx
        · exact ih hls' hx
        · rename_i c p hp
          rw [hp] at ht
          split at hx
          · exact ih hls' hx
          · split at hx
            · exact ih hls' hx
            · rcases List.mem_cons.mp hx with rfl | hx
              · exact ht
              · exact ih hls' hx
  obtain ⟨x, hx, hp⟩ := List.mem_filterMap.mp h
  split at hp
  · cases hp
    exact hl (Text.fgetsFrom_nl (by simp)) hx
  · cases hp

/-- The texts of the settings are values of lines. -/
theorem assign_texts {cfg cfg' : RouterCfg} {key val : List Byte}
    (h : cfg.assign key val = some cfg') :
    (cfg'.hostname = cfg.hostname ∨ cfg'.hostname = Text.CStr.store 32 val) ∧
      (cfg'.password = cfg.password ∨ cfg'.password = Text.CStr.store 64 val) := by
  unfold RouterCfg.assign at h
  split_ifs at h <;> cases h
  · exact ⟨.inr rfl, .inl rfl⟩
  · exact ⟨.inl rfl, .inl rfl⟩
  · exact ⟨.inl rfl, .inl rfl⟩
  · exact ⟨.inl rfl, .inl rfl⟩
  · exact ⟨.inl rfl, .inr rfl⟩
  all_goals exact ⟨.inl rfl, .inl rfl⟩

theorem routerKey_subset {p key val : List Byte} (h : routerKey p = some (key, val)) : val ⊆ p := by
  unfold routerKey at h
  split at h
  · cases h
  · rename_i c v hv
    cases h
    intro x hx
    have hs : x ∈ v := (List.takeWhile_prefix _).subset (List.mem_of_mem_take hx)
    have : x ∈ p.dropWhile (· != 61#8) := hv ▸ List.mem_cons_of_mem _ hs
    exact (List.dropWhile_sublist _).subset this

/-- **No text of a file holds a newline.** -/
theorem nl_notMem_texts (file : List Byte) (s : Settings) :
    nl ∉ (configLoad file s).cfg.hostname.1 ∧ nl ∉ (configLoad file s).cfg.password.1 := by
  have hs : nl ∉ (configDefault s).cfg.hostname.1 ∧ nl ∉ (configDefault s).cfg.password.1 := by
    show nl ∉ cfgDefault.hostname.1 ∧ nl ∉ cfgDefault.password.1
    decide
  unfold configLoad
  generalize configDefault s = s at hs
  have hp : ∀ p ∈ routerLines file, nl ∉ p := fun p => nl_notMem_routerLines
  generalize routerLines file = ps at hp
  induction ps generalizing s with
  | nil => exact hs
  | cons p ps ih =>
      refine ih _ ?_ fun p' hp' => hp p' (by simp [hp'])
      cases hk : routerKey p with
      | none => simpa only [parseRouterKey, hk] using hs
      | some kv =>
          obtain ⟨key, val⟩ := kv
          cases ha : s.cfg.assign key val with
          | none => simpa only [parseRouterKey, hk, ha] using hs
          | some cfg =>
              have hval : nl ∉ val := fun hm => hp p (by simp) (routerKey_subset hk hm)
              rw [parseRouterKey_cfg hk ha]
              obtain ⟨hh, hw⟩ := assign_texts ha
              constructor
              · rcases hh with e | e
                · rw [e]
                  exact hs.1
                · rw [e]
                  exact (Text.CStr.plain_store hval).2
              · rcases hw with e | e
                · rw [e]
                  exact hs.2
                · rw [e]
                  exact (Text.CStr.plain_store hval).2

/-! ### Saving and loading -/

/-- What `config_save` writes, if it writes. -/
theorem configSave_eq (buf : ℕ → Byte) (c : ConfSource) :
    configSave buf c = if (confText c).length < 16384 then some (confText c) else none := by
  have hl := length_confText c
  have hr := @configSerialize_fst 16384 buf c
  have hm : (-1 : Int32) < 0 := by decide
  unfold configSave
  split
  · rename_i hlt
    have ht := @configSerialize_text 16384 (by decide) buf c hlt
    have hi := Int32.toInt_ofNat_of_lt hl
    rw [if_pos hlt] at hr
    have hn : ¬ (Int32.ofNat (confText c).length < 0) := by
      rw [Int32.lt_iff_toInt_lt, hi]
      have : (0 : Int32).toInt = 0 := rfl
      omega
    simp only [hr, hn, if_false, hi, Int.toNat_natCast, ht]
  · rename_i hlt
    rw [if_neg hlt] at hr
    simp only [hr, hm, if_true]

/-- **The settings survive saving and loading exactly if there is no password and the hostname does not
end in a carriage return.**  The settings are those that some file gives on any earlier ones; no line
for the password is written, and the carriage return of a hostname is taken for the end of its line. -/
theorem save_load {file text : List Byte} {s : Settings} {c : ConfSource} {buf : ℕ → Byte}
    (hc : c.cfg = (configLoad file s).cfg) (hk : ∀ r ∈ c.rules, nl ∉ r.keyword.1)
    (hi : ∀ it ∈ c.ifaces, nl ∉ it.name.1) (hs : configSave buf c = some text) (s' : Settings) :
    (configLoad text s').cfg = c.cfg ↔
      c.cfg.password.1 = [] ∧ c.cfg.hostname.1.getLast? ≠ some cr := by
  have ho : c.OneLine := ⟨hc ▸ (nl_notMem_texts file s).1, hk, hi⟩
  obtain rfl : confText c = text := by
    rw [configSave_eq] at hs
    split at hs
    · exact Option.some.inj hs
    · cases hs
  rw [load_saved ho]
  have hh := c.cfg.hostname.2
  constructor
  · intro e
    have h₁ := congrArg (fun x : RouterCfg => x.password.1) e
    have h₂ := congrArg (fun x : RouterCfg => x.hostname.1) e
    refine ⟨h₁.symm, fun hcr => ?_⟩
    have hlen := congrArg List.length h₂
    have hne : c.cfg.hostname.1 ≠ [] := by
      rintro e
      rw [e] at hcr
      cases hcr
    have hpos := List.length_pos_iff.mpr hne
    simp only [dropEnd, hcr, if_true] at hlen
    rw [Text.CStr.store_val (fun hm => hh.2 (List.dropLast_subset _ hm))
      (by rw [List.length_dropLast]; omega), List.length_dropLast] at hlen
    omega
  · rintro ⟨hp, hcr⟩
    have h₁ : dropEnd cr c.cfg.hostname.1 = c.cfg.hostname.1 := if_neg hcr
    have h₂ : Text.CStr.store 64 [] = c.cfg.password := Subtype.ext hp.symm
    rw [h₁, h₂, Text.CStr.store_self]

/-- A router with no more than what it loaded of `[router]`. -/
def ConfSource.ofFile (file : List Byte) : ConfSource where
  cfg := (configLoad file .fresh).cfg
  rules := []
  routes := []
  ifaces := []
  clz0 := 0
  stack := fun _ => 0
  rules_le := Nat.zero_le _
  routes_le := Nat.zero_le _

theorem save_load_hostname :
    let c := ConfSource.ofFile (lit "[router]\nhostname=r1\narp_proxy=1\n")
    (configLoad (confText c) .fresh).cfg = c.cfg := by
  intro c
  have hs : configSave (fun _ => 0) c = some (confText c) := by
    rw [configSave_eq]
    exact if_pos (by decide +kernel)
  exact (save_load rfl (by simp [c, ConfSource.ofFile]) (by simp [c, ConfSource.ofFile]) hs
    .fresh).mpr (by decide +kernel)

/-- A router whose file asks for a password saves itself: what it saved does not ask for one. -/
theorem save_drops_password :
    let c := ConfSource.ofFile (lit "[router]\npassword=x\n")
    ∃ text, configSave (fun _ => 0) c = some text ∧ c.cfg.password.1 = lit "x" ∧
      (configLoad text .fresh).cfg.password.1 = [] := by
  intro c
  have hs : configSave (fun _ => 0) c = some (confText c) := by
    rw [configSave_eq]
    exact if_pos (by decide +kernel)
  refine ⟨confText c, hs, by decide +kernel, ?_⟩
  rw [load_saved ⟨(nl_notMem_texts _ _).1, by simp [c, ConfSource.ofFile],
    by simp [c, ConfSource.ofFile]⟩]
  rfl

end LinuxRouter
