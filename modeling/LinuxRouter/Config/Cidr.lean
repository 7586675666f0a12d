import LinuxRouter.Config.RoundTrip

/-!
# Config — addresses and prefixes as text

What `str_to_ip` and `parse_cidr` make of the texts that `ip_to_str`, `cidr_to_str` and the `%d` of a
prefix length write.

* `strToIp_ipToStr`: an address reads back.
* `IsMask`: the masks that `parse_cidr` gives.  `prefixLen_mask`: all but that of `/32` have a prefix
  length that gives them back.
* `parseCidr_text`: an address with the prefix length of such a mask reads back.

The printers are `%u` and dots, the readers `sscanf`, which takes more than was printed, so only one
direction is needed here: what was printed is read back, number by number.  Between a mask and its
prefix length the passage is by `__builtin_clz`, which gives back every length but 32; it is checked
for the 33 masks that there are.
-/

namespace LinuxRouter

open Text (lit fmtNat fmtInt nul IsWord)

/-! ### Addresses -/

/-- The bytes `ip_to_str` prints are digits and dots. -/
theorem mem_ipToStr {ip : Ip} {c : Byte} (h : c ∈ ipToStr ip) :
    Text.isDigit c = true ∨ c = 46#8 := by
  simp only [ipToStr, List.mem_append, List.mem_cons] at h
  rcases h with ((h | rfl | h) | rfl | h) | rfl | h
  all_goals first | exact .inr rfl | exact .inl (Text.digits_fmtNat _ c h)

theorem scanOctet_fmtNat {n : ℕ} {s : List Byte} (hn : n < 2 ^ 32) :
    scanOctet 46#8 (fmtNat n ++ 46#8 :: s) = some (n, s) := by
  have hs : ∀ c ∈ (46#8 :: s).head?, Text.isDigit c = false := by
    rintro c ⟨⟩
    decide
  simp only [scanOctet, Text.scanU_fmtNat hn hs, if_true]

theorem octet_lt (ip : Ip) (n : ℕ) : (ip >>> n &&& 0xff#32).toNat ≤ 255 := by
  rw [BitVec.toNat_and]
  exact Nat.and_le_right

theorem getLsbD_octet (ip : Ip) (n i : ℕ) :
    (ip >>> n &&& 0xff#32).getLsbD i = (ip.getLsbD (n + i) && decide (i < 8)) := by
  have hff : (0xff#32).getLsbD i = (decide (i < 32) && decide (i < 8)) := by
    rw [BitVec.getLsbD_ofNat, show (0xff : ℕ) = 2 ^ 8 - 1 by rfl, Nat.testBit_two_pow_sub_one]
  rw [BitVec.getLsbD_and, BitVec.getLsbD_ushiftRight, hff]
  by_cases hi : i < 8
  · simp [hi, Nat.lt_trans hi (by decide : 8 < 32)]
  · simp [hi]

/-- The four octets of an address. -/
theorem octets (ip : Ip) :
    (ip >>> 24 &&& 0xff#32) <<< 24 ||| (ip >>> 16 &&& 0xff#32) <<< 16 |||
      (ip >>> 8 &&& 0xff#32) <<< 8 ||| (ip >>> 0 &&& 0xff#32) = ip := by
  refine BitVec.eq_of_getLsbD_eq fun i hi => ?_
  simp only [BitVec.getLsbD_or, BitVec.getLsbD_shiftLeft, getLsbD_octet, hi, decide_true,
    Bool.true_and, Nat.zero_add]
  -- the octet that the bit is in
  rcases (by omega : i < 8 ∨ (8 ≤ i ∧ i < 16) ∨ (16 ≤ i ∧ i < 24) ∨ 24 ≤ i) with h | h | h | h
  all_goals grind

/-- **An address reads back.** -/
theorem strToIp_ipToStr (ip : Ip) : strToIp (ipToStr ip) = some ip := by
  have hlt : ∀ n : ℕ, (ip >>> n &&& 0xff#32).toNat < 2 ^ 32 := fun n => BitVec.isLt (ip >>> n &&& 0xff#32)
  have hlast := Text.scanU_fmtNat (t := []) (hlt 0) fun c hc => nomatch hc
  rw [List.append_nil] at hlast
  simp only [strToIp, ipToStr, List.append_assoc, List.cons_append, scanOctet_fmtNat (hlt _), hlast,
    Option.bind_eq_bind, Option.bind_some, octet_lt, and_self, if_true, BitVec.ofNat_toNat,
    BitVec.setWidth_eq, octets]

/-! ### Prefixes -/

/-- A mask that `parse_cidr` gives. -/
def IsMask (m : Ip) : Prop := ∃ p : CInt, 0 ≤ p ∧ p ≤ 32 ∧ m = maskFromPrefix p

theorem isMask_of_parseCidr {s : List Byte} {x : Ip × Ip} (h : parseCidr s = some x) : IsMask x.2 := by
  simp only [parseCidr] at h
  split at h
  · obtain ⟨ip, -, rfl⟩ := Option.map_eq_some_iff.mp h
    exact ⟨32, by decide, by decide, rfl⟩
  · obtain ⟨⟨p, t⟩, -, h⟩ := Option.bind_eq_some_iff.mp h
    dsimp only at h
    split at h
    · cases h
    · rename_i hp
      obtain ⟨ip, -, rfl⟩ := Option.map_eq_some_iff.mp h
      rw [not_or] at hp
      exact ⟨p, by simpa using hp.1, by simpa using hp.2, rfl⟩

theorem exists_length {p : CInt} (h₀ : 0 ≤ p) (h₃₂ : p ≤ 32) : ∃ n : Fin 33, p = Int32.ofNat n := by
  have h₁ := Int32.le_iff_toInt_le.mp h₀
  have h₂ := Int32.le_iff_toInt_le.mp h₃₂
  have h₃ : (0 : Int32).toInt = 0 := rfl
  have h₄ : (32 : Int32).toInt = 32 := rfl
  refine ⟨⟨p.toInt.toNat, by omega⟩, Int32.toInt_inj.mp ?_⟩
  rw [Int32.toInt_ofNat_of_lt (by simp only; omega)]
  simp only
  omega

/-- Only `/32` has the mask of one host. -/
theorem maskFromPrefix_full {p : CInt} (h₀ : 0 ≤ p) (h₃₂ : p ≤ 32) :
    maskFromPrefix p = 0xFFFFFFFF#32 ↔ p = 32 := by
  obtain ⟨n, rfl⟩ := exists_length h₀ h₃₂
  revert n
  decide

/-- **The prefix length of a mask gives it back**, but for the mask of `/32`. -/
theorem prefixLen_mask {m : Ip} (h : IsMask m) (hm : m ≠ 0xFFFFFFFF#32) (clz0 : CInt) :
    0 ≤ prefixLen clz0 m ∧ prefixLen clz0 m ≤ 32 ∧ maskFromPrefix (prefixLen clz0 m) = m := by
  obtain ⟨p, h₀, h₃₂, rfl⟩ := h
  have hp : p ≠ 32 := fun e => hm ((maskFromPrefix_full h₀ h₃₂).mpr e)
  obtain ⟨n, rfl⟩ := exists_length h₀ h₃₂
  -- the masks one by one
  have hall : ∀ n : Fin 33, Int32.ofNat n ≠ 32 → n.1 ≠ 0 →
      ~~~maskFromPrefix (Int32.ofNat n) ≠ 0 ∧ maskFromPrefix (Int32.ofNat n) ≠ 0 ∧
      Int32.ofNat (clz (~~~maskFromPrefix (Int32.ofNat n))) = Int32.ofNat n := by decide
  by_cases hz : n.1 = 0
  · rw [hz]
    simp [prefixLen, maskFromPrefix]
  · obtain ⟨h₁, h₂, h₅⟩ := hall n hp hz
    rw [prefixLen, if_neg h₂, if_neg h₁, h₅]
    exact ⟨h₀, h₃₂, rfl⟩

/-- A prefix length prints in two digits. -/
theorem length_fmtLen {p : CInt} (h₀ : 0 ≤ p) (h₃₂ : p ≤ 32) : (fmtInt p.toInt).length ≤ 2 := by
  obtain ⟨n, rfl⟩ := exists_length h₀ h₃₂
  have hn : (Int32.ofNat n.1).toInt = n.1 := Int32.toInt_ofNat_of_lt (by omega)
  rw [hn, fmtInt, if_neg (by omega)]
  exact length_fmtNat (by omega) (by omega)

/-! ### An address with a prefix -/

theorem slash_notMem_ipToStr (ip : Ip) : 47#8 ∉ ipToStr ip := by
  intro h
  rcases mem_ipToStr h with h | h
  · revert h
    decide
  · revert h
    decide

theorem host_ipToStr (ip : Ip) : ∀ c ∈ ipToStr ip, (c != 47#8) = true := by
  intro c hc
  have : c ≠ 47#8 := fun e => slash_notMem_ipToStr ip (e ▸ hc)
  simpa using this

/-- An address with a printed length. -/
theorem parseCidr_slash (ip : Ip) (x : CInt) :
    parseCidr (ipToStr ip ++ lit "/" ++ fmtInt x.toInt) =
      if x < 0 ∨ 32 < x then none else some (ip, maskFromPrefix x) := by
  have hslash : lit "/" = [47#8] := by decide
  rw [hslash, List.append_assoc, List.singleton_append]
  have hlen : (ipToStr ip ++ 47#8 :: fmtInt x.toInt).length < 64 := by
    have h₁ := length_ipToStr ip
    have h₂ := length_fmtInt x
    rw [List.length_append, List.length_cons]
    omega
  have hnul : nul ∉ ipToStr ip ++ 47#8 :: fmtInt x.toInt := by
    rw [List.mem_append, List.mem_cons, not_or, not_or]
    exact ⟨(plain_ipToStr ip).1, by decide, (Text.plain_fmtInt _).1⟩
  have hne : ((47#8 : Byte) != 47#8) = false := by decide
  simp only [parseCidr, Text.CStr.store_val hnul hlen,
    List.takeWhile_append_of_pos (host_ipToStr ip), List.dropWhile_append_of_pos (host_ipToStr ip),
    List.takeWhile_cons, List.dropWhile_cons, hne, Bool.false_eq_true, if_false, List.append_nil,
    Text.scanD_fmtInt, strToIp_ipToStr, Option.bind_eq_bind, Option.bind_some, Option.map_some]

/-- An address alone. -/
theorem parseCidr_host (ip : Ip) : parseCidr (ipToStr ip) = some (ip, 0xFFFFFFFF#32) := by
  have hlen := length_ipToStr ip
  have hd := List.dropWhile_eq_nil_iff.mpr (host_ipToStr ip)
  simp only [parseCidr, Text.CStr.store_val (plain_ipToStr ip).1 (show _ < 64 by omega), hd,
    List.takeWhile_eq_self_iff.mpr (host_ipToStr ip), strToIp_ipToStr]
  rfl

/-- **An address with its prefix reads back**, whatever `__builtin_clz(0)` is, but for `/32`. -/
theorem parseCidr_text {m : Ip} (h : IsMask m) (hm : m ≠ 0xFFFFFFFF#32) (ip : Ip) (clz0 : CInt) :
    parseCidr (ipToStr ip ++ lit "/" ++ fmtInt (prefixLen clz0 m).toInt) = some (ip, m) := by
  obtain ⟨h₀, h₃₂, hp⟩ := prefixLen_mask h hm clz0
  rw [parseCidr_slash, if_neg (not_or.mpr ⟨Int32.not_lt.mpr h₀, Int32.not_lt.mpr h₃₂⟩), hp]

/-- A `/32` with its prefix reads back exactly if `__builtin_clz(0)` is 32. -/
theorem parseCidr_full {ip : Ip} {clz0 : CInt} :
    parseCidr (ipToStr ip ++ lit "/" ++ fmtInt (prefixLen clz0 0xFFFFFFFF#32).toInt) =
      some (ip, 0xFFFFFFFF#32) ↔ clz0 = 32 := by
  have hp : prefixLen clz0 0xFFFFFFFF#32 = clz0 := rfl
  rw [hp, parseCidr_slash]
  split
  · rename_i h
    refine iff_of_false (fun e => nomatch e) ?_
    rintro rfl
    revert h
    decide
  · rename_i h
    rw [not_or, Int32.not_lt, Int32.not_lt] at h
    rw [Option.some_inj, Prod.mk.injEq, maskFromPrefix_full h.1 h.2]
    exact ⟨fun h => h.2, fun h => ⟨rfl, h⟩⟩

/-- The text of `cidr_to_str` fits its `char[24]`. -/
theorem cidrToStr_eq {m : Ip} (h : IsMask m) (ip : Ip) (clz0 : CInt) :
    cidrToStr clz0 ip m = if m = 0xFFFFFFFF#32 then ipToStr ip
      else ipToStr ip ++ lit "/" ++ fmtInt (prefixLen clz0 m).toInt := by
  have h₁ := length_ipToStr ip
  unfold cidrToStr
  split
  · exact Text.CStr.store_val (plain_ipToStr ip).1 (by omega)
  · rename_i hm
    refine Text.CStr.store_val ?_ ?_
    · exact (Text.plain_append.mpr ⟨Text.plain_append.mpr ⟨plain_ipToStr ip, by decide⟩,
        Text.plain_fmtInt _⟩).1
    · obtain ⟨h₀, h₃₂, -⟩ := prefixLen_mask h hm clz0
      have h₂ := length_fmtLen h₀ h₃₂
      have h₃ : (lit "/").length = 1 := by decide
      simp only [List.length_append, h₃]
      omega

/-- **The text of `cidr_to_str` reads back.** -/
theorem parseCidr_cidrToStr {m : Ip} (h : IsMask m) (ip : Ip) (clz0 : CInt) :
    parseCidr (cidrToStr clz0 ip m) = some (ip, m) := by
  rw [cidrToStr_eq h]
  split
  · rename_i hm
    rw [parseCidr_host, hm]
  · rename_i hm
    exact parseCidr_text h hm ip clz0

/-! ### Words -/

theorem isWord_append {s t : List Byte} (h : IsWord s) (ht : ∀ c ∈ t, Text.isWhite c = false) :
    IsWord (s ++ t) :=
  ⟨List.append_ne_nil_of_left_ne_nil h.1 t, fun c hc => (List.mem_append.mp hc).elim (h.2 c) (ht c)⟩

theorem notWhite_fmtInt (x : ℤ) : ∀ c ∈ fmtInt x, Text.isWhite c = false := by
  intro c hc
  have hm := Text.mem_fmtInt hc
  clear hc
  revert c
  decide

theorem isWord_fmtInt (x : ℤ) : IsWord (fmtInt x) := by
  refine ⟨?_, notWhite_fmtInt x⟩
  unfold fmtInt
  split
  · exact List.cons_ne_nil _ _
  · exact Text.fmtNat_ne_nil _

theorem isWord_ipToStr (ip : Ip) : IsWord (ipToStr ip) := by
  refine ⟨?_, fun c hc => ?_⟩
  · obtain ⟨c, t, h, -⟩ := ipToStr_cons ip
    rw [h]
    exact List.cons_ne_nil c t
  · have hm := mem_ipToStr hc
    clear hc
    revert c
    decide

/-- An address with a prefix is one word. -/
theorem isWord_prefix (ip : Ip) (x : ℤ) : IsWord (ipToStr ip ++ lit "/" ++ fmtInt x) :=
  isWord_append (isWord_append (isWord_ipToStr ip) (by decide)) (notWhite_fmtInt x)

end LinuxRouter
