import Mathlib.Data.Nat.Digits.Lemmas
import LinuxRouter.Model.Config

/-!
# Config — `config_serialize` and its buffer

`config_serialize` adds up the lengths its `snprintf` calls return and gives the next call
`size - off`, without a test that `off` is still within the buffer: once the text is longer than
that, `size - off` wraps and the rest is written past the end.  Headline: `serialize_inside`, with
the counterexample `serialize_overruns`.

The buffer is that of `Support/Printf`, whose lemmas say when every call is given what is left of
it. What is added is the configuration: its pieces in the order of the calls, and how much text they
can come to.
-/

namespace LinuxRouter

open Text (fmtNat fmtInt)
open Printf (InBounds)

/-! ### How long the text can be -/

theorem length_fmtNat {n k : ℕ} (hk : 0 < k) (h : n < 10 ^ k) : (fmtNat n).length ≤ k := by
  unfold fmtNat
  split
  · exact hk
  · rw [List.length_map, List.length_reverse]
    exact (Nat.digits_length_le_iff (by omega) n).mpr h

theorem length_fmtInt (x : Text.CInt) : (fmtInt x.toInt).length ≤ 11 := by
  have h₁ := x.le_toInt
  have h₂ := x.toInt_lt
  have h : (fmtNat x.toInt.natAbs).length ≤ 10 := length_fmtNat (by omega) (by omega)
  unfold fmtInt
  split
  · rw [List.length_cons]
    omega
  · omega

theorem length_ipToStr (ip : Ip) : (ipToStr ip).length ≤ 15 := by
  have hb : ∀ x : Ip, (fmtNat (x &&& 0xff#32).toNat).length ≤ 3 := by
    intro x
    refine length_fmtNat (by omega) (lt_of_le_of_lt (b := 255) ?_ (by omega))
    rw [BitVec.toNat_and]
    exact Nat.and_le_right
  have h₁ := hb (ip >>> 24)
  have h₂ := hb (ip >>> 16)
  have h₃ := hb (ip >>> 8)
  have h₄ := hb (ip >>> 0)
  simp only [ipToStr, List.length_append, List.length_cons]
  omega

theorem length_flatten_le {k : ℕ} {ss : List (List Text.Byte)} (h : ∀ s ∈ ss, s.length ≤ k) :
    ss.flatten.length ≤ ss.length * k := by
  induction ss with
  | nil => simp
  | cons s ss ih =>
      have h₁ := h s (by simp)
      have h₂ := ih fun s' hs' => h s' (by simp [hs'])
      rw [List.flatten_cons, List.length_append, List.length_cons, Nat.add_mul, Nat.one_mul]
      omega

/-- A line of `[router]` with a number. -/
theorem length_setting {key : List Text.Byte} (hk : key.length ≤ 12) (x : Text.CInt) :
    (key ++ fmtInt x.toInt ++ [Text.nl]).length ≤ 300 := by
  have := length_fmtInt x
  simp only [List.length_append, List.length_singleton]
  omega

theorem length_routerPieces (cfg : RouterCfg) : ∀ s ∈ routerPieces cfg, s.length ≤ 300 := by
  have hn := cfg.hostname.2.1
  have hh : (Text.lit "hostname=").length = 9 := by decide
  simp only [routerPieces, List.forall_mem_cons, List.not_mem_nil, false_imp_iff, implies_true,
    and_true]
  refine ⟨by decide, ?_, length_setting (by decide) _, length_setting (by decide) _,
    length_setting (by decide) _, length_setting (by decide) _, length_setting (by decide) _,
    length_setting (by decide) _⟩
  simp only [List.length_append, List.length_singleton, hh]
  omega

theorem length_fwRuleToLine (clz0 : Text.CInt) (stack : ℕ → Text.Byte) (r : FwRule) :
    (fwRuleToLine clz0 stack r).length ≤ 256 := by
  refine (List.takeWhile_prefix _).length_le.trans ?_
  simp [Printf.Out.bytes]

theorem length_routeText (clz0 : CInt) (ifs : Ifaces) (r : Route) :
    (routeText clz0 ifs r).length ≤ 256 := by
  have h₁ := length_ipToStr r.dest
  have h₂ := length_ipToStr r.gw
  have h₃ := length_fmtInt (prefixLen clz0 r.mask)
  have hs : (Text.lit "/").length = 1 ∧ (Text.lit " via ").length = 5 ∧
      (Text.lit " dev ").length = 5 := by decide
  have h₄ : ∀ name : List Text.Byte, name.length ≤ 16 →
      ((if r.gw ≠ 0 then ipToStr r.dest ++ Text.lit "/" ++ fmtInt (prefixLen clz0 r.mask).toInt ++
          Text.lit " via " ++ ipToStr r.gw
        else ipToStr r.dest ++ Text.lit "/" ++ fmtInt (prefixLen clz0 r.mask).toInt) ++
          Text.lit " dev " ++ name).length ≤ 256 := by
    intro name hname
    split <;> simp only [List.length_append, hs] <;> omega
  unfold routeText
  cases ifaceByIndex ifs r.ifindex with
  | none => exact h₄ _ (by decide)
  | some it => exact h₄ _ it.name.2.1.le

/-- The whole text. -/
def confText (c : ConfSource) : List Text.Byte := (confPieces c).flatten

theorem length_confText (c : ConfSource) : (confText c).length < 2 ^ 31 := by
  have hp : ∀ s ∈ confPieces c, s.length ≤ 300 := by
    intro s hs
    simp only [confPieces, List.mem_append, List.mem_map, List.mem_cons, List.not_mem_nil,
      or_false] at hs
    rcases hs with (((hs | rfl | rfl) | ⟨r, -, rfl⟩) | rfl) | ⟨r, -, rfl⟩
    · exact length_routerPieces c.cfg s hs
    · decide
    · decide
    · have := length_fwRuleToLine c.clz0 c.stack r
      simp only [List.length_append, List.length_singleton]
      omega
    · decide
    · have := length_routeText c.clz0 c.ifaces r
      simp only [List.length_append, List.length_singleton]
      omega
  have hn : (confPieces c).length ≤ 203 := by
    have h₁ := c.rules_le
    have h₂ := (List.length_filter_le (·.isStatic) c.routes).trans c.routes_le
    simp only [maxRule, maxRoute] at h₁ h₂
    simp only [confPieces, routerPieces, List.length_append, List.length_map, List.length_cons,
      List.length_nil]
    omega
  have := length_flatten_le hp
  unfold confText
  omega

/-! ### The buffer -/

/-- `config_serialize` stays inside its buffer: every `snprintf` is given what is left of it,
nothing is written outside it, and the result says whether the whole text fits, and is there. -/
structure StaysInside (size : ℕ) (buf : ℕ → Text.Byte) (c : ConfSource) : Prop where
  calls : ∀ x ∈ (configSerialize size buf c).2.calls, InBounds size x
  outside : ∀ j, size ≤ j → (configSerialize size buf c).2.mem j = buf j
  fails : (configSerialize size buf c).1 = -1 ↔ size ≤ (confText c).length
  text : (confText c).length < size →
    (configSerialize size buf c).1.toInt = (confText c).length ∧
      (configSerialize size buf c).2.bytes (confText c).length = confText c

/-- What `config_serialize` returns. -/
theorem configSerialize_fst {size : ℕ} (buf : ℕ → Text.Byte) (c : ConfSource) :
    (configSerialize size buf c).1 =
      if (confText c).length < size then Int32.ofNat (confText c).length else -1 := by
  have hl := length_confText c
  unfold confText at hl ⊢
  unfold configSerialize
  generalize confPieces c = ss at hl ⊢
  have ho : (Printf.putAll size ss (Printf.start buf)).off = 0 + ss.flatten.length :=
    Printf.putAll_off (by simp only [Printf.start]; omega)
  rw [Nat.zero_add] at ho
  simp only [ho]

theorem confPieces_ne_nil (c : ConfSource) : confPieces c ≠ [] := by
  unfold confPieces routerPieces
  exact List.append_ne_nil_of_left_ne_nil (List.append_ne_nil_of_left_ne_nil
    (List.append_ne_nil_of_left_ne_nil (List.append_ne_nil_of_left_ne_nil
      (List.cons_ne_nil _ _) _) _) _) _

/-- The calls of `config_serialize`. -/
theorem configSerialize_calls {size : ℕ} (hs : size < 2 ^ 64) (buf : ℕ → Text.Byte)
    (c : ConfSource) : (∀ x ∈ (configSerialize size buf c).2.calls, InBounds size x) ↔
      (confPieces c).dropLast.flatten.length ≤ size := by
  have hl := length_confText c
  have hne := confPieces_ne_nil c
  unfold confText at hl
  unfold configSerialize
  generalize confPieces c = ss at hl hne ⊢
  have hb := @Printf.putAll_inBounds size ss (Printf.start buf) hs
    (by simp only [Printf.start]; omega)
  simpa only [hne, false_or, Printf.start, Nat.zero_add, List.not_mem_nil, false_imp_iff,
    implies_true, true_and] using hb

/-- What it leaves outside the buffer. -/
theorem configSerialize_outside {size : ℕ} (hs : size < 2 ^ 64) (buf : ℕ → Text.Byte)
    (c : ConfSource) (h : (confPieces c).dropLast.flatten.length ≤ size) {j : ℕ} (hj : size ≤ j) :
    (configSerialize size buf c).2.mem j = buf j := by
  have hl := length_confText c
  unfold confText at hl
  unfold configSerialize
  generalize confPieces c = ss at hl h ⊢
  refine Printf.putAll_outside (o := Printf.start buf) hs ?_ (.inr ?_) hj
  · simp only [Printf.start]
    omega
  · simpa only [Printf.start, Nat.zero_add] using h

/-- What it leaves inside, if the text fits. -/
theorem configSerialize_text {size : ℕ} (hs : size < 2 ^ 64) (buf : ℕ → Text.Byte)
    (c : ConfSource) (h : (confText c).length < size) :
    (configSerialize size buf c).2.bytes (confText c).length = confText c := by
  unfold confText at h ⊢
  unfold configSerialize
  generalize confPieces c = ss at h ⊢
  exact Printf.putAll_text hs h

/-- **`config_serialize` stays inside its buffer exactly if its texts but the last one fit.**  Each
`snprintf` is told what `size - n` is as an unsigned number; that is what is left of the buffer until a
text ends beyond it, and nearly everything from then on.  The last text may be cut, because nothing is
printed after it. -/
theorem serialize_inside {size : ℕ} (hs : size < 2 ^ 64) (buf : ℕ → Text.Byte) (c : ConfSource) :
    StaysInside size buf c ↔ (confPieces c).dropLast.flatten.length ≤ size := by
  have hl := length_confText c
  have hret := @configSerialize_fst size buf c
  refine ⟨fun h => (configSerialize_calls hs buf c).mp h.calls, fun h => ?_⟩
  refine ⟨(configSerialize_calls hs buf c).mpr h, fun j => configSerialize_outside hs buf c h,
    ?_, fun hlt => ⟨?_, configSerialize_text hs buf c hlt⟩⟩
  · rw [hret]
    split
    · rename_i hlt
      refine iff_of_false (fun e => ?_) (by omega)
      have := congrArg Int32.toInt e
      rw [Int32.toInt_ofNat_of_lt hl] at this
      have h₁ : (-1 : Int32).toInt = -1 := rfl
      omega
    · exact iff_of_true rfl (by omega)
  · rw [hret, if_pos hlt, Int32.toInt_ofNat_of_lt hl]

/-- A configuration of the defaults, with no more than some rules. -/
def ConfSource.ofRules (rules : List FwRule) (h : rules.length ≤ maxRule) : ConfSource where
  cfg := cfgDefault
  rules := rules
  routes := []
  ifaces := []
  clz0 := 0
  stack := fun _ => 0
  rules_le := h
  routes_le := Nat.zero_le _

/-- A rule with a keyword as long as the table can hold. -/
def FwRule.wordy : FwRule where
  action := fwDrop
  sip := 0
  dip := 0
  sipMask := 0
  dipMask := 0
  proto := protoTcp
  sport := -1
  dport := -1
  keyword := Text.CStr.store 64 (List.replicate 63 97#8)

/-- A static route of it, 10.1.0.0/16 by 10.0.0.2. -/
def ConfSource.withRoute (c : ConfSource) : ConfSource :=
  { c with
    routes := [{ dest := 0x0a010000, mask := 0xffff0000, gw := 0x0a000002, ifindex := 1, isStatic := true }]
    routes_le := by decide }

theorem serialize_inside_wordy :
    StaysInside 1024 (fun _ => 0) (.withRoute (.ofRules [.wordy, .wordy] (by decide))) :=
  (serialize_inside (by decide) _ _).mpr (by decide +kernel)

/-- Twenty such rules, for the `char out[1472]` of the UDP query `conf`: the text runs past the
end of the buffer. -/
theorem serialize_overruns :
    ¬ StaysInside 1472 (fun _ => 0) (.ofRules (List.replicate 20 .wordy) (by decide)) := by
  intro h
  have h₁ := h.outside 1500 (by decide)
  have h₂ : (configSerialize 1472 (fun _ => 0)
      (.ofRules (List.replicate 20 .wordy) (by decide))).2.mem 1500 ≠ 0 := by
    decide +kernel
  exact h₂ h₁

end LinuxRouter
