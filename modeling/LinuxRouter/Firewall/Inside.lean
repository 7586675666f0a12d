import LinuxRouter.Model.Matcher
import LinuxRouter.Firewall.Headers

/-!
# Firewall — reads within the frame

`rule_match` reads a frame of `len` bytes at indices below `len` only, for every rule and whatever the
bytes are.

* `lookMatch_reads`: on every path through the conditions.
* `scan_lookMatch`: what the byte by byte matcher returns is `ruleMatch`.

The matcher is written as a program that asks for bytes (`Fetch`), so that what it reads is a list
and not only a value.  Each of its functions has two lemmas: that it asks within bounds, from what
the tests before it have made sure of, and that it returns what the function of `Model/Firewall`
does. Both follow the branches of the source, and compose.
-/

namespace LinuxRouter

open Program (Prog)
open Program.Prog (reads_ret reads_fetch scan_bind)

/-! ### Reads -/

section Reads

variable {len : ℕ} {i : ℕ}

theorem reads_lookBe16 (h : i + 1 < len) : (lookBe16 i).Reads (· < len) :=
  reads_fetch (Nat.lt_of_succ_lt h) fun _ => reads_fetch h fun _ => reads_ret _

theorem reads_lookBe32 (h : i + 3 < len) : (lookBe32 i).Reads (· < len) :=
  reads_fetch (by omega) fun _ => reads_fetch (by omega) fun _ => reads_fetch (by omega) fun _ =>
    reads_fetch h fun _ => reads_ret _

/-- The needle is compared where it fits. -/
theorem reads_lookSame (needle : List Byte) (h : i + needle.length ≤ len) :
    (lookSame needle i).Reads (· < len) := by
  induction needle generalizing i with
  | nil => exact reads_ret _
  | cons c needle ih =>
      rw [List.length_cons] at h
      refine reads_fetch (by omega) fun b => ?_
      split
      · exact reads_ret _
      · exact ih (by omega)

theorem reads_lookFrom (needle : List Byte) (n : ℕ) (h : n + i + needle.length ≤ len + 1) :
    (lookFrom needle n i).Reads (· < len) := by
  induction n generalizing i with
  | zero => exact reads_ret _
  | succ n ih =>
      refine (reads_lookSame needle (by omega)).bind fun same => ?_
      split
      · exact reads_ret _
      · exact ih (by omega)

/-- `find_bytes` stays within the bytes it is given. -/
theorem reads_lookBytes (needle : List Byte) {off hlen : ℕ} (h : off + hlen ≤ len) :
    (lookBytes needle off hlen).Reads (· < len) := by
  unfold lookBytes
  split
  · exact reads_ret _
  · split
    · exact reads_ret _
    · exact reads_lookFrom needle _ (by omega)

theorem reads_lookTcpUdp (h : 23 < len) : lookTcpUdp.Reads (· < len) := by
  refine reads_fetch h fun p => ?_
  split
  · exact reads_ret _
  · exact reads_fetch h fun _ => reads_ret _

theorem reads_lookProto (r : FwRule) (h : 23 < len) : (lookProto r).Reads (· < len) := by
  unfold lookProto
  split
  · exact reads_ret _
  · exact reads_fetch h fun _ => reads_ret _

theorem reads_lookAddr (r : FwRule) (h : 34 ≤ len) : (lookAddr r).Reads (· < len) :=
  (reads_lookBe32 (by omega)).bind fun _ => (reads_lookBe32 (by omega)).bind fun _ => reads_ret _

theorem reads_lookPort (port : CInt) (h : i + 1 < len) : (lookPort port i).Reads (· < len) := by
  unfold lookPort
  split
  · exact reads_ret _
  · exact (reads_lookBe16 h).bind fun _ => reads_ret _

/-- The ports are read only if all four bytes are there. -/
theorem reads_lookPorts (r : FwRule) (l4off : ℕ) (tcpUdp : Bool) :
    (lookPorts r len l4off tcpUdp).Reads (· < len) := by
  unfold lookPorts
  split
  · exact reads_ret _
  · split
    · exact reads_ret _
    · split
      · exact reads_ret _
      · refine (reads_lookPort r.sport (by omega)).bind fun s => ?_
        split
        · exact reads_ret _
        · exact reads_lookPort r.dport (by omega)

theorem reads_lookPayload (r : FwRule) (poff : ℕ) : (lookPayload r len poff).Reads (· < len) := by
  unfold lookPayload
  split
  · exact reads_ret _
  · exact reads_lookBytes r.keyword.1 (by omega)

/-- The TCP data offset is read only if it is there, and the payload only if it starts in the frame. -/
theorem reads_lookKeyword (r : FwRule) (l4off : ℕ) (tcpUdp : Bool) (h : 34 ≤ len) :
    (lookKeyword r len l4off tcpUdp).Reads (· < len) := by
  unfold lookKeyword
  split
  · exact reads_ret _
  · refine (reads_lookBe16 (by omega)).bind fun fragOff => ?_
    split
    · exact reads_ret _
    · split
      · exact reads_ret _
      · refine reads_fetch (by omega) fun p => ?_
        split
        · split
          · exact reads_ret _
          · exact reads_fetch (by omega) fun d => reads_lookPayload r _
        · exact reads_lookPayload r _

theorem reads_lookConditions (r : FwRule) (l4off : ℕ) (h : 34 ≤ len) :
    (lookConditions r len l4off).Reads (· < len) := by
  refine (reads_lookAddr r h).bind fun addr => ?_
  split
  · exact reads_ret _
  · refine (reads_lookProto r (by omega)).bind fun proto => ?_
    split
    · exact reads_ret _
    · refine (reads_lookTcpUdp (by omega)).bind fun tcpUdp => ?_
      refine (reads_lookPorts r l4off tcpUdp).bind fun ports => ?_
      split
      · exact reads_ret _
      · exact reads_lookKeyword r l4off tcpUdp h

/-- **Every read of the matcher is within the frame**, whatever it finds there. -/
theorem lookMatch_reads (r : FwRule) (len : ℕ) : (lookMatch r len).Reads (· < len) := by
  unfold lookMatch
  split
  · exact reads_ret _
  · refine reads_fetch (by omega) fun v => ?_
    split
    · exact reads_ret _
    · refine reads_fetch (by omega) fun v => ?_
      dsimp only
      split
      · exact reads_ret _
      · exact reads_lookConditions r _ (by omega)

end Reads

/-! ### Results -/

section Results

variable {f needle : List Byte} {len i : ℕ}

@[simp] theorem scan_lookBe16 (f : List Byte) (i : ℕ) :
    ((lookBe16 i).scan (byteAt f)).1 = getBe16 f i := rfl

@[simp] theorem scan_lookBe32 (f : List Byte) (i : ℕ) :
    ((lookBe32 i).scan (byteAt f)).1 = getBe32 f i := rfl

/-- The needle is a prefix of the hay from `i` on. -/
theorem scan_lookSame (h : i + needle.length ≤ len) (hl : len ≤ f.length) :
    ((lookSame needle i).scan (byteAt f)).1 = true ↔ needle <+: (f.take len).drop i := by
  induction needle generalizing i with
  | nil => simp [lookSame]
  | cons c needle ih =>
      rw [List.length_cons] at h
      have hi : i < (f.take len).length := by
        rw [List.length_take]
        omega
      have hb : byteAt f i = (f.take len)[i] := by
        rw [List.getElem_take, byteAt, List.getD_eq_getElem?_getD, List.getElem?_eq_getElem (by omega),
          Option.getD_some]
      rw [List.drop_eq_getElem_cons hi, List.cons_prefix_cons, ← hb, lookSame, Prog.scan_fetch]
      by_cases hc : byteAt f i = c
      · rw [if_neg (not_not.mpr hc), ih (by omega)]
        simp [hc]
      · rw [if_pos hc]
        simp [Ne.symm hc]

/-- It is found at one of the positions tried. -/
theorem scan_lookFrom (n : ℕ) (h : n + i + needle.length ≤ len + 1) (hl : len ≤ f.length) :
    ((lookFrom needle n i).scan (byteAt f)).1 = true ↔
      ∃ j < n, needle <+: (f.take len).drop (i + j) := by
  induction n generalizing i with
  | zero => simp [lookFrom]
  | succ n ih =>
      have hs := @scan_lookSame f needle len i (by omega) hl
      rw [lookFrom, scan_bind, Nat.exists_lt_succ_left, Nat.add_zero i, ← hs]
      cases ((lookSame needle i).scan (byteAt f)).1 with
      | true => simp
      | false =>
          have hnext := ih (i := i + 1) (by omega)
          simp only [Nat.add_assoc, Nat.add_comm 1] at hnext
          simp only [Bool.false_eq_true, if_false, false_or, hnext]

/-- **`find_bytes`, byte by byte.** -/
theorem scan_lookBytes {off : ℕ} (h : off ≤ len) (hl : len ≤ f.length) :
    ((lookBytes needle off (len - off)).scan (byteAt f)).1 =
      (findBytes ((f.take len).drop off) needle).isSome := by
  have hlen : ((f.take len).drop off).length = len - off := by
    rw [List.length_drop, List.length_take]
    omega
  rw [Bool.eq_iff_iff, findBytes_isSome]
  unfold lookBytes
  split
  · rename_i hn
    simp [hn]
  · rename_i hn
    split
    · rename_i hlt
      refine iff_of_false (by simp) fun hin => ?_
      have := hin.length_le
      omega
    · rename_i hge
      rw [scan_lookFrom _ (by omega) hl]
      constructor
      · rintro ⟨j, -, hp⟩
        rw [← List.drop_drop] at hp
        exact hp.isInfix.trans (List.drop_suffix _ _).isInfix
      · rintro ⟨s, t, hst⟩
        have hst' := congrArg List.length hst
        simp only [List.length_append, hlen] at hst'
        refine ⟨s.length, by omega, t, ?_⟩
        rw [← List.drop_drop, ← hst, List.append_assoc, List.drop_left]

theorem scan_lookTcpUdp : (lookTcpUdp.scan (byteAt f)).1 = isTcpUdp f := by
  rw [lookTcpUdp, Prog.scan_fetch, isTcpUdp]
  split
  · rename_i h
    simp [h]
  · rename_i h
    simp [h]

theorem scan_lookProto (r : FwRule) : ((lookProto r).scan (byteAt f)).1 =
    (decide (r.proto < 0) || byteAt f 23 == BitVec.ofInt 8 r.proto.toInt) := by
  unfold lookProto
  split
  · rename_i h
    simp [h]
  · rename_i h
    simp [h]

theorem scan_lookPort (port : CInt) (i : ℕ) :
    ((lookPort port i).scan (byteAt f)).1 = portIs f i port := by
  unfold lookPort portIs
  split
  · rename_i h
    simp [h]
  · rename_i h
    simp [h, scan_bind]

theorem scan_lookPorts (r : FwRule) (l4off : ℕ) :
    ((lookPorts r len l4off (isTcpUdp f)).scan (byteAt f)).1 = portMatch r f len l4off := by
  unfold lookPorts portMatch
  split
  · rfl
  · split
    · rename_i ht
      have ht : isTcpUdp f = false := by simpa using ht
      simp [ht]
    · rename_i ht
      have ht : isTcpUdp f = true := by simpa using ht
      split
      · rename_i hlt
        simp [Nat.not_le.mpr hlt]
      · rename_i hge
        rw [scan_bind, scan_lookPort, ht, decide_eq_true (Nat.not_lt.mp hge), Bool.true_and,
          Bool.true_and]
        cases portIs f l4off r.sport with
        | false => rfl
        | true => simp [scan_lookPort]

theorem scan_lookPayload (r : FwRule) {poff : ℕ} (hl : len ≤ f.length) :
    ((lookPayload r len poff).scan (byteAt f)).1 =
      (decide (poff ≤ len) && (findBytes ((f.take len).drop poff) r.keyword.1).isSome) := by
  unfold lookPayload
  split
  · rename_i h
    simp [Nat.not_le.mpr h]
  · rename_i h
    rw [scan_lookBytes (by omega) hl, decide_eq_true (by omega), Bool.true_and]

theorem scan_lookKeyword (r : FwRule) (l4off : ℕ) (hl : len ≤ f.length) :
    ((lookKeyword r len l4off (isTcpUdp f)).scan (byteAt f)).1 = keywordMatch r f len l4off := by
  unfold lookKeyword keywordMatch
  split
  · rfl
  · rw [scan_bind, scan_lookBe16]
    split
    · rfl
    · split
      · rfl
      · rw [Prog.scan_fetch, payloadOffset]
        split
        · split
          · rfl
          · rw [Prog.scan_fetch, scan_lookPayload r hl]
        · rw [scan_lookPayload r hl]

/-- **What the matcher returns, byte by byte, is `rule_match`.** -/
theorem scan_lookMatch (r : FwRule) (hl : len ≤ f.length) :
    ((lookMatch r len).scan (byteAt f)).1 = ruleMatch r f len := by
  have hcond : ∀ l4off, ((lookConditions r len l4off).scan (byteAt f)).1 = (addrMatch r f &&
      (r.proto < 0 || byteAt f 23 == BitVec.ofInt 8 r.proto.toInt) &&
        portMatch r f len l4off && keywordMatch r f len l4off) := by
    intro l4off
    have haddr : ((lookAddr r).scan (byteAt f)).1 = addrMatch r f := rfl
    rw [lookConditions, scan_bind, haddr]
    cases addrMatch r f with
    | false => rfl
    | true =>
        rw [← scan_lookProto]
        simp only [Bool.not_true, Bool.false_eq_true, if_false, Bool.true_and, scan_bind]
        cases ((lookProto r).scan (byteAt f)).1 with
        | false => rfl
        | true =>
            simp only [Bool.not_true, Bool.false_eq_true, if_false, Bool.true_and, scan_bind,
              scan_lookTcpUdp, scan_lookPorts]
            cases portMatch r f len l4off with
            | false => rfl
            | true => exact scan_lookKeyword r l4off hl
  unfold lookMatch ruleMatch
  dsimp only
  split
  · rfl
  · rw [Prog.scan_fetch]
    split
    · rfl
    · rw [Prog.scan_fetch]
      dsimp only
      rw [headerLen]
      split
      · rfl
      · exact hcond _

end Results

/-- **The matcher never reads past the frame**: for any rule, any bytes and any length, every byte that
`rule_match` reads, in the addresses, the ports or the search for the keyword, is one of the first
`len`.  The frame need not have passed the header checks. -/
theorem matcher_inside (r : FwRule) (f : List Byte) (len : ℕ) :
    ∀ i ∈ ((lookMatch r len).scan (byteAt f)).2, i < len :=
  (lookMatch_reads r len).scan (byteAt f)

/-- A rule with a source port reads it at the end of the shortest frame that has one. -/
theorem matcher_inside_port :
    35 ∈ ((lookMatch { FwRule.blank fwDrop with sport := 53 } 38).scan
        (byteAt (List.replicate 14 0 ++ [0x45] ++ List.replicate 8 0 ++ [17]))).2 ∧ 35 < 38 := by
  have h : 35 ∈ ((lookMatch { FwRule.blank fwDrop with sport := 53 } 38).scan
      (byteAt (List.replicate 14 0 ++ [0x45] ++ List.replicate 8 0 ++ [17]))).2 := by
    decide +kernel
  exact ⟨h, matcher_inside _ _ _ 35 h⟩

end LinuxRouter
