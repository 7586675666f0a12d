import LinuxRouter.Model.Firewall

/-!
# Model — FwTable

`firewall.c`: the rules as the code keeps them, an array and a count, and the calls that change
them.  The lists of `Firewall` are what such a table holds.

The cells behind the count hold what was there before, and a call that moves rules down leaves the
last one twice.

It is the level at which `fw_del` can go wrong, by an index that is negative or at the count, and at
which a full table refuses a rule.  `Firewall.Table` relates it to the lists: after any sequence of
calls the first `n` cells are the list that the calls describe, and the verdict of a check is the
same on both. The lock is not here, since every call is one section under it.
-/

namespace LinuxRouter

/-- `g_rules` and `g_n`. -/
structure FwTable where
  rule : ℕ → FwRule
  n : ℕ
  le : n ≤ maxRule

namespace FwTable

/-- `fw_init` and `fw_clear`: the array stays as it is. -/
def clear (t : FwTable) : FwTable where
  rule := t.rule
  n := 0
  le := Nat.zero_le _

/-- `fw_add`, and whether it returned 0. -/
def add (r : FwRule) (t : FwTable) : Bool × FwTable :=
  if h : maxRule ≤ t.n then (false, t)
  else (true, { rule := Function.update t.rule t.n r, n := t.n + 1, le := Nat.lt_of_not_le h })

/-- `fw_del`, and whether it returned 0.  The `memmove` takes the rules behind the index one place
down; the array keeps its last one. -/
def del (index : CInt) (t : FwTable) : Bool × FwTable :=
  if index < 0 ∨ (t.n : ℤ) ≤ index.toInt then (false, t)
  else
    let k := index.toInt.toNat
    (true,
      { rule := fun i => if k ≤ i ∧ i < t.n - 1 then t.rule (i + 1) else t.rule i
        n := t.n - 1
        le := (Nat.sub_le _ _).trans t.le })

/-- The loop of `fw_check`, from the rule `i` on, at most `m` rules. -/
def checkFrom (t : FwTable) (f : List Byte) (len : ℕ) : ℕ → ℕ → CInt
  | 0, _ => fwAllow
  | m + 1, i =>
      if ruleMatch (t.rule i) f len then (t.rule i).action else checkFrom t f len m (i + 1)

/-- `fw_check`. -/
def check (t : FwTable) (f : List Byte) (len : ℕ) : CInt := t.checkFrom f len t.n 0

end FwTable

/-- A change of the table: a rule added, if its words are one, a rule deleted, all of them. -/
inductive FwCall where
  | add (argv : List (List Byte))
  | del (index : CInt)
  | clear

/-- A call, as `cmd_addfw`, `cmd_delfw` and a reload make it. -/
def FwTable.call (t : FwTable) : FwCall → FwTable
  | .add argv =>
      match fwParseRule argv with
      | none => t
      | some r => (t.add r).2
  | .del index => (t.del index).2
  | .clear => t.clear

end LinuxRouter
