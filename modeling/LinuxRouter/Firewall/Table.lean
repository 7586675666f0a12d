import LinuxRouter.Support.Rows
import LinuxRouter.Model.FwTable
import LinuxRouter.Config.Rules

/-!
# Firewall — the table of rules

The array and the count of `firewall.c` hold a list.

* `add_rules`, `del_rules`, `clear_rules`: the calls append to it, up to `MAX_RULE`, erase by
  position, and clear it.
* `check_eq`: `fw_check` decides by its first rule that matches.
* `coded_history`: after any sequence of calls every rule is one that `fw_parse_rule` makes.

Each call is compared with the list that the array stands for (`Rows`).  That the rules are coded is
kept by every call, since one only takes what a parser has made and the others take rules away.
-/

namespace LinuxRouter

/-- The rules in the table, first to last. -/
def FwTable.rules (t : FwTable) : List FwRule := (List.range t.n).map t.rule

/-- A call, on the list. -/
def FwCall.apply (rules : List FwRule) : FwCall → List FwRule
  | .add argv =>
      match fwParseRule argv with
      | none => rules
      | some r => if rules.length < maxRule then rules ++ [r] else rules
  | .del index =>
      if 0 ≤ index.toInt ∧ index.toInt < rules.length then rules.eraseIdx index.toInt.toNat
      else rules
  | .clear => []

namespace FwTable

variable (t : FwTable)

@[simp] theorem length_rules : t.rules.length = t.n := by simp [rules]

@[simp] theorem clear_rules : t.clear.rules = [] := rfl

theorem add_rules (r : FwRule) :
    (t.add r).2.rules = if t.rules.length < maxRule then t.rules ++ [r] else t.rules := by
  rw [length_rules]
  unfold add
  split
  · rename_i h
    rw [if_neg (Nat.not_lt.mpr h)]
  · rename_i h
    rw [if_pos (Nat.lt_of_not_le h)]
    exact Rows.rows_push t.rule t.n r

/-- The `memmove` erases the rule. -/
theorem del_rules (index : CInt) : (t.del index).2.rules =
    if 0 ≤ index.toInt ∧ index.toInt < t.rules.length then t.rules.eraseIdx index.toInt.toNat
    else t.rules := by
  have hneg : index < 0 ↔ index.toInt < 0 := Int32.lt_iff_toInt_lt
  rw [length_rules]
  unfold del
  split
  · rename_i h
    rw [hneg] at h
    rw [if_neg (by omega)]
  · rename_i h
    rw [hneg] at h
    have hlt : index.toInt.toNat < t.n := by omega
    rw [if_pos (by omega)]
    exact Rows.rows_remove t.rule hlt

/-- The calls do on the array what they say on the list. -/
theorem call_rules (c : FwCall) : (t.call c).rules = c.apply t.rules := by
  cases c with
  | add argv =>
      simp only [call, FwCall.apply]
      cases fwParseRule argv with
      | none => rfl
      | some r => exact t.add_rules r
  | del index => exact t.del_rules index
  | clear => exact t.clear_rules

/-- **The table after any sequence of calls.** -/
theorem calls_rules (cs : List FwCall) :
    (cs.foldl call t).rules = cs.foldl FwCall.apply t.rules := by
  induction cs generalizing t with
  | nil => rfl
  | cons c cs ih => rw [List.foldl_cons, List.foldl_cons, ih, call_rules]

theorem checkFrom_eq (f : List Byte) (len m i : ℕ) : t.checkFrom f len m i =
    fwCheck ((List.range' i m).map t.rule) f len := by
  induction m generalizing i with
  | zero => rfl
  | succ m ih =>
      rw [checkFrom, List.range'_succ, List.map_cons, fwCheck, List.find?_cons]
      cases hr : ruleMatch (t.rule i) f len with
      | true => rfl
      | false =>
          rw [if_neg (by simp), ih]
          rfl

/-- **`fw_check` decides by the list.** -/
theorem check_eq (f : List Byte) (len : ℕ) : t.check f len = fwCheck t.rules f len := by
  rw [check, checkFrom_eq, rules, List.range_eq_range']

end FwTable

/-! ### Its rules -/

/-- What `fw_parse_rule` gives: addresses that are masked, and a protocol of its table. -/
structure FwRule.Coded (r : FwRule) : Prop where
  source : IsMask r.sipMask ∧ (r.sipMask ≠ 0 → r.sip &&& r.sipMask = r.sip)
  dest : IsMask r.dipMask ∧ (r.dipMask ≠ 0 → r.dip &&& r.dipMask = r.dip)
  proto : r.proto = protoAny ∨ r.proto = protoIcmp ∨ r.proto = protoTcp ∨ r.proto = protoUdp

theorem coded_setSource {r r' : FwRule} {tok : List Byte} (hr : r.Coded)
    (h : r.setSource tok = some r') : r'.Coded := by
  unfold FwRule.setSource at h
  split at h
  · cases h
    exact { hr with source := ⟨isMask_zero, fun h => absurd rfl h⟩ }
  · obtain ⟨x, hx, rfl⟩ := Option.map_eq_some_iff.mp h
    exact { hr with source := ⟨isMask_of_parseCidr hx, fun _ => by simp [BitVec.and_assoc]⟩ }

theorem coded_setDest {r r' : FwRule} {tok : List Byte} (hr : r.Coded)
    (h : r.setDest tok = some r') : r'.Coded := by
  unfold FwRule.setDest at h
  split at h
  · cases h
    exact { hr with dest := ⟨isMask_zero, fun h => absurd rfl h⟩ }
  · obtain ⟨x, hx, rfl⟩ := Option.map_eq_some_iff.mp h
    exact { hr with dest := ⟨isMask_of_parseCidr hx, fun _ => by simp [BitVec.and_assoc]⟩ }

/-- **A parsed rule is coded**, whatever its words are. -/
theorem coded_fwParseRule {argv : List (List Byte)} {r : FwRule} (h : fwParseRule argv = some r) :
    r.Coded := by
  obtain ⟨a, args, -, -, h⟩ := fwParseRule_args h
  exact fwParseArgs_keeps (fun _ _ _ => coded_setSource) (fun _ _ _ => coded_setDest)
    (fun _ _ _ hr hp => { hr with proto := parseProto_proper hp }) (fun _ _ _ hr _ => { hr with })
    (fun _ _ _ hr _ => { hr with }) (fun _ _ _ hr => { hr with })
    ⟨⟨isMask_zero, fun h => absurd rfl h⟩, ⟨isMask_zero, fun h => absurd rfl h⟩, .inl rfl⟩ h

theorem FwCall.coded_apply (c : FwCall) {rules : List FwRule} (h : ∀ r ∈ rules, r.Coded) :
    ∀ r ∈ c.apply rules, r.Coded := by
  cases c with
  | add argv =>
      rw [FwCall.apply]
      split
      · exact h
      · rename_i r hr
        split
        · intro q hq
          rcases List.mem_append.mp hq with hq | hq
          · exact h q hq
          · obtain rfl := List.mem_singleton.mp hq
            exact coded_fwParseRule hr
        · exact h
  | del index =>
      rw [FwCall.apply]
      split
      · exact fun r hr => h r (List.mem_of_mem_eraseIdx hr)
      · exact h
  | clear => exact fun r hr => nomatch hr

/-- Every rule of a history is coded. -/
theorem coded_history (cs : List FwCall) {rules : List FwRule} (h : ∀ r ∈ rules, r.Coded) :
    ∀ r ∈ cs.foldl FwCall.apply rules, r.Coded := by
  induction cs generalizing rules with
  | nil => exact h
  | cons c cs ih => exact ih (c.coded_apply h)

end LinuxRouter
