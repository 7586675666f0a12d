import LinuxRouter.Support.Numeral
import LinuxRouter.Model.Terminal
import LinuxRouter.Firewall.Table
import LinuxRouter.Routes.Table

/-!
# Commands — deleting by an index

`delfw s` and `delroute s`, where `s` may be anything.

* `Strict`: the entry whose plain decimal `s` is goes, and without such an entry nothing does.
* `cmdDelfw_eq` and `cmdDelroute_eq`: what the commands do, on the lists; `cmdDelroute_list`: the
  list-level command of `Terminal` does the same.
* `delete_strict_iff`: the commands are strict except with a text that is not the plain decimal of an
  entry, and from which `atoi` reads the index of one.

The two commands differ in what may be deleted, every rule, but only a static route, and in what
they print.  What they have in common is `Deletes`: the argument goes through `atoi`, and the entry
of the index that comes out is erased if there is one.  Strictness is then a question about `atoi`
alone, settled once for both.  On the plain decimal of an index it gives the index back; so a
command that is not strict has been given another text from which it reads an index that exists, and
that is `Misread`.
-/

namespace LinuxRouter

open Text (atoi fmtNat lit toInt_atoi_fmtNat)

namespace Tables

variable (t : Tables)

/-- The rules have the index `i`. -/
def HasRule (i : ℤ) : Prop := 0 ≤ i ∧ i < t.rules.rules.length

/-- The routes have the index `i`, and its route is static. -/
def HasStatic (i : ℤ) : Prop := 0 ≤ i ∧ ∃ r ∈ t.routes.routes[i.toNat]?, r.isStatic = true

/-- A command, given `args`, that deletes among the entries `has`: the one whose plain decimal is its
only argument goes, and without such an entry it fails, and nothing has changed. -/
def Strict (has : ℤ → Prop) (erased : ℕ → Tables → Prop) (args : List (List Byte))
    (r : (CInt × List Byte) × Tables) : Prop :=
  (∀ k : ℕ, has k → args = [fmtNat k] → r.1.1 = 0 ∧ erased k r.2) ∧
    ((∀ k : ℕ, has k → args ≠ [fmtNat k]) → r.1.1 = -1 ∧ r.2 = t)

/-- What `delfw` leaves of the tables when the rule `k` goes. -/
def RuleErased (k : ℕ) (t' : Tables) : Prop :=
  t'.rules.rules = t.rules.rules.eraseIdx k ∧ t'.routes = t.routes

/-- What `delroute` leaves of the tables when the route `k` goes. -/
def RouteErased (k : ℕ) (t' : Tables) : Prop :=
  t'.routes.routes = t.routes.routes.eraseIdx k ∧ t'.rules = t.rules

/-- A text that is not the plain decimal of an entry, from which `atoi` reads the index of one. -/
def Misread (has : ℤ → Prop) (s : List Byte) : Prop :=
  has (atoi s).toInt ∧ ∀ k : ℕ, has k → s ≠ fmtNat k

/-! ### A command that reads its index with `atoi` -/

/-- A command deletes the entry whose index `atoi` reads from its argument. -/
structure Deletes (has : ℤ → Prop) (erased : ℕ → Tables → Prop)
    (cmd : List (List Byte) → (CInt × List Byte) × Tables) : Prop where
  small : ∀ k : ℕ, has k → k < 2 ^ 31
  erase : ∀ s, has (atoi s).toInt → (cmd [s]).1.1 = 0 ∧ erased (atoi s).toInt.toNat (cmd [s]).2
  fail : ∀ s, ¬ has (atoi s).toInt → (cmd [s]).1.1 = -1 ∧ (cmd [s]).2 = t
  usage : ∀ args, (∀ s, args ≠ [s]) → (cmd args).1.1 = -1 ∧ (cmd args).2 = t

variable {t}
variable {has : ℤ → Prop} {erased : ℕ → Tables → Prop}
  {cmd : List (List Byte) → (CInt × List Byte) × Tables}

/-- **Such a command is strict** with every argument but those it misreads. -/
theorem Deletes.strict_iff (h : t.Deletes has erased cmd) (args : List (List Byte)) :
    t.Strict has erased args (cmd args) ↔ ∀ s, args = [s] → ¬ Misread has s := by
  constructor
  · rintro hstrict s rfl ⟨hs, hk⟩
    have hfail := (hstrict.2 fun k hhas e => hk k hhas (List.singleton_inj.mp e)).1
    rw [(h.erase s hs).1] at hfail
    exact absurd hfail (by decide)
  · intro hm
    by_cases hargs : ∃ s, args = [s]
    · obtain ⟨s, rfl⟩ := hargs
      refine ⟨fun k hk hs => ?_, fun hk => ?_⟩
      · have hatoi : (atoi s).toInt = k := by
          rw [List.singleton_inj.mp hs]
          exact toInt_atoi_fmtNat (h.small k hk)
        have herase := h.erase s (hatoi ▸ hk)
        rwa [hatoi, Int.toNat_natCast] at herase
      · refine h.fail s fun hs => hm s rfl ⟨hs, fun k hhas e => ?_⟩
        exact hk k hhas (List.singleton_inj.mpr e)
    · rw [not_exists] at hargs
      exact ⟨fun k _ e => absurd e (hargs _), fun _ => h.usage args hargs⟩

/-! ### The commands -/

/-- A rule that exists is erased. -/
theorem del_of_has {index : CInt} (h : t.HasRule index.toInt) :
    (t.rules.del index).1 = true ∧
      (t.rules.del index).2.rules = t.rules.rules.eraseIdx index.toInt.toNat := by
  refine ⟨?_, (t.rules.del_rules index).trans (if_pos h)⟩
  obtain ⟨h₀, h₁⟩ := h
  rw [FwTable.length_rules] at h₁
  have hneg : ¬ (index < 0 ∨ (t.rules.n : ℤ) ≤ index.toInt) := by
    rw [Int32.lt_iff_toInt_lt]
    exact not_or.mpr ⟨Int.not_lt.mpr h₀, Int.not_le.mpr h₁⟩
  rw [FwTable.del, if_neg hneg]

/-- Without such a rule nothing is. -/
theorem del_of_not_has {index : CInt} (h : ¬ t.HasRule index.toInt) :
    t.rules.del index = (false, t.rules) := by
  rw [FwTable.del, if_pos]
  rw [Int32.lt_iff_toInt_lt]
  by_contra hn
  obtain ⟨h₀, h₁⟩ := not_or.mp hn
  rw [← FwTable.length_rules] at h₁
  exact h ⟨Int.not_lt.mp h₀, Int.not_le.mp h₁⟩

/-- **What `delfw` does.** -/
theorem cmdDelfw_deletes (t : Tables) : t.Deletes t.HasRule t.RuleErased t.cmdDelfw where
  small k hk := by
    have hle := t.rules.le
    have hlt := hk.2
    rw [FwTable.length_rules] at hlt
    rw [maxRule] at hle
    omega
  erase s h := by
    obtain ⟨h₁, h₂⟩ := del_of_has h
    simp only [cmdDelfw, h₁, if_true]
    exact ⟨trivial, h₂, rfl⟩
  fail s h := by
    simp only [cmdDelfw, del_of_not_has h, Bool.false_eq_true, if_false, and_self]
  usage args h := by
    rw [cmdDelfw.eq_def]
    split
    · exact absurd rfl (h _)
    · exact ⟨rfl, rfl⟩

/-- A static route that exists is erased. -/
theorem routeDel_of_has {index : CInt} (h : t.HasStatic index.toInt) :
    (t.routeDel index).1 = 0 ∧ t.RouteErased index.toInt.toNat (t.routeDel index).2 := by
  obtain ⟨h₀, r, hr, hs⟩ := h
  have hdel := t.routes.del_routes index
  have hneg : ¬ index < 0 := fun h => absurd (Int32.lt_iff_toInt_lt.mp h) (Int.not_lt.mpr h₀)
  rw [LinuxRouter.routeDel, routeAt, if_neg hneg, hr] at hdel
  simp only [hs, if_true] at hdel
  obtain ⟨h₁, h₂⟩ := Prod.mk.inj hdel
  exact ⟨h₁, h₂, rfl⟩

/-- Without such a route, or with a connected one, nothing is. -/
theorem routeDel_of_not_has {index : CInt} (h : ¬ t.HasStatic index.toInt) :
    ((t.routeDel index).1 = -1 ∨ (t.routeDel index).1 = -2) ∧ (t.routeDel index).2 = t := by
  have hcases : ((t.routes.del index).1 = -1 ∨ (t.routes.del index).1 = -2) ∧
      (t.routes.del index).2 = t.routes := by
    rw [RouteTable.del]
    split
    · exact ⟨.inl rfl, rfl⟩
    · rename_i hneg
      split
      · exact ⟨.inl rfl, rfl⟩
      · rename_i hin
        have h₀ : 0 ≤ index.toInt := Int.not_lt.mp fun h => hneg (Int32.lt_iff_toInt_lt.mpr h)
        split
        · exact ⟨.inr rfl, rfl⟩
        · rename_i hs
          refine absurd ⟨h₀, t.routes.route index.toInt.toNat, ?_, by simpa using hs⟩ h
          exact (Rows.getElem?_rows _ _ _).trans (if_pos (by omega))
  refine ⟨hcases.1, ?_⟩
  obtain ⟨rules, routes, hle⟩ := t
  simp only [routeDel, hcases.2]

/-- **What `delroute` does.** -/
theorem cmdDelroute_deletes (t : Tables) :
    t.Deletes t.HasStatic t.RouteErased t.cmdDelroute where
  small k hk := by
    obtain ⟨-, r, hr, -⟩ := hk
    have hle := t.le
    have hlt := (List.getElem?_eq_some_iff.mp hr).1
    rw [RouteTable.length_routes] at hlt
    rw [maxRoute] at hle
    omega
  erase s h := by
    obtain ⟨h₁, h₂⟩ := routeDel_of_has h
    simp only [cmdDelroute, h₁, if_true]
    exact ⟨trivial, h₂⟩
  fail s h := by
    obtain ⟨h₁ | h₁, h₂⟩ := routeDel_of_not_has h
    · simp only [cmdDelroute, h₁, h₂]
      exact ⟨rfl, rfl⟩
    · simp only [cmdDelroute, h₁, h₂]
      exact ⟨rfl, rfl⟩
  usage args h := by
    rw [cmdDelroute.eq_def]
    split
    · exact absurd rfl (h _)
    · exact ⟨rfl, rfl⟩

/-- The list-level command of the terminal does the same to the routes. -/
theorem cmdDelroute_routes (t : Tables) (args : List (List Byte)) :
    (decide ((t.cmdDelroute args).1.1 = 0), (t.cmdDelroute args).2.routes.routes) =
      LinuxRouter.cmdDelroute args t.routes.routes := by
  rw [cmdDelroute.eq_def]
  split
  · rename_i s
    rw [LinuxRouter.cmdDelroute, ← t.routes.del_routes (atoi s)]
    have hfail : ¬ (-1 : CInt) = 0 := by decide
    dsimp only
    split
    · rename_i h
      refine Prod.ext ?_ rfl
      exact decide_eq_decide.mpr (iff_of_true (Eq.refl (0 : CInt)) h)
    · rename_i h
      refine Prod.ext ?_ ?_
      · split
        · exact decide_eq_decide.mpr (iff_of_false hfail h)
        · exact decide_eq_decide.mpr (iff_of_false hfail h)
      · split
        · rfl
        · rfl
  · rename_i hargs
    rw [LinuxRouter.cmdDelroute.eq_def]
    split
    · exact absurd rfl (hargs _)
    · rfl

end Tables

/-- **Deleting by an index**: `delfw` and `delroute` delete the entry that their argument is the plain
decimal of, and nothing without one, if and only if they do not misread it. -/
theorem delete_strict_iff (t : Tables) (args : List (List Byte)) :
    (t.Strict t.HasRule t.RuleErased args (t.cmdDelfw args) ↔
      ∀ s, args = [s] → ¬ Tables.Misread t.HasRule s) ∧
    (t.Strict t.HasStatic t.RouteErased args (t.cmdDelroute args) ↔
      ∀ s, args = [s] → ¬ Tables.Misread t.HasStatic s) :=
  ⟨t.cmdDelfw_deletes.strict_iff args, t.cmdDelroute_deletes.strict_iff args⟩

/-- A rule and a static default route. -/
def Tables.single : Tables where
  rules :=
    { rule := fun _ => .blank fwDrop
      n := 1
      le := by decide }
  routes :=
    { route := fun _ => { dest := 0, mask := 0, gw := 0, ifindex := 1, isStatic := true }
      n := 1 }
  le := by decide

/-- **A text that is no number** deletes the first entry: `atoi` reads it as 0, which is an index like
any other. -/
theorem delete_misreads :
    ¬ Tables.single.Strict Tables.single.HasRule Tables.single.RuleErased [lit "abc"]
        (Tables.single.cmdDelfw [lit "abc"]) ∧
    ¬ Tables.single.Strict Tables.single.HasStatic Tables.single.RouteErased [lit "abc"]
        (Tables.single.cmdDelroute [lit "abc"]) := by
  have hno : ∀ k : ℕ, [lit "abc"] ≠ [fmtNat k] := fun k e =>
    Text.ne_fmtNat (c := 97#8) (by decide) (by decide) k (List.singleton_inj.mp e)
  constructor
  · intro h
    exact absurd (h.2 fun k _ => hno k).1 (by decide)
  · intro h
    exact absurd (h.2 fun k _ => hno k).1 (by decide)

end LinuxRouter
