import LinuxRouter.Config.Load
import LinuxRouter.Firewall.Table
import LinuxRouter.Model.Console
import LinuxRouter.Routes.Table

/-!
# Commands — the console and the lists

The commands of the console work on the tables as the code keeps them, and say what they print.
`Terminal`, `Route` and `Manage` have the same commands on lists, without what they print.

* `cmdSetip_lists`, `cmdDelip_lists`, `cmdAddroute_lists`: a command of the console changes its lists
  as the command on lists does, and returns 0 exactly if that succeeds.
* `load_manage`: the console's `config_load` leaves the settings and lists that `configLoadSteps`
  leaves, step by step.

Two descriptions of one function differ in what they carry: the console's has the return value, the
text and the tables with their counts, the list-level one has the lists.  `Answer.lists` and
`Console.manage` forget what the other side does not have; each lemma then follows the code of one
function, and says that forgetting before and after it comes to the same.  For `config_load` it is
an induction on the lines of the file.
-/

namespace LinuxRouter

open Text (lit)
open Program (Prog replay)

/-- A route that is not taken leaves the table as it is. -/
theorem RouteTable.add_of_ne {t : RouteTable} {dest mask gw : Ip} {ifindex : CInt}
    (h : (t.add dest mask gw ifindex).1 ≠ 0) : (t.add dest mask gw ifindex).2 = t := by
  revert h
  rw [add]
  split
  · exact fun _ => rfl
  · split
    · exact fun _ => rfl
    · exact fun h => absurd rfl h

namespace Tables

variable (t : Tables)

/-- A rule added to the table, on the list. -/
theorem fwAdd_rules (r : FwRule) : ((t.fwAdd r).1, (t.fwAdd r).2.rules.rules) =
    LinuxRouter.fwAdd r t.rules.rules := by
  have hadd := t.rules.add_rules r
  rw [FwTable.length_rules] at hadd
  rw [LinuxRouter.fwAdd, FwTable.length_rules, fwAdd, hadd, FwTable.add]
  by_cases hfull : maxRule ≤ t.rules.n
  · rw [dif_pos hfull, if_neg (Nat.not_lt.mpr hfull), if_pos hfull]
  · rw [dif_neg hfull, if_pos (Nat.lt_of_not_le hfull), if_neg hfull]

/-- A route added to the table, on the list. -/
theorem routeAdd_routes (dest mask gw : Ip) (ifindex : CInt) :
    (decide ((t.routeAdd dest mask gw ifindex).1 = 0), (t.routeAdd dest mask gw ifindex).2.routes.routes) =
      LinuxRouter.routeAdd dest mask gw ifindex t.routes.routes :=
  t.routes.add_routes dest mask gw ifindex

end Tables

/-- What a command on lists changes, and whether it succeeds. -/
def Answer.lists (a : Answer) : Bool × Ifaces × List Route :=
  (decide (a.rc = 0), a.console.ifaces, a.console.tables.routes.routes)

namespace Console

variable (e : Outside) (size : ℕ) (args : List (List Byte)) (s : Console)

/-- After an address has come or gone, the connected routes are derived again. -/
theorem derive_lists (rc : CInt) (text : List Byte) : (s.derive.answer size rc text).lists =
    (decide (rc = 0), s.ifaces, routeDeriveConnected s.ifaces s.tables.routes.routes) :=
  congrArg (fun routes => (decide (rc = 0), s.ifaces, routes)) (RouteTable.deriveConnected_routes _ _)

/-- **`setip`** of the console, on the lists. -/
theorem cmdSetip_lists : (s.cmdSetip e size args).lists =
    LinuxRouter.cmdSetip e.ok args s.ifaces s.tables.routes.routes := by
  rcases args with _ | ⟨name, _ | ⟨addr, _ | ⟨arg, args⟩⟩⟩
  · rfl
  · rfl
  · rw [cmdSetip, LinuxRouter.cmdSetip]
    cases parseCidr addr with
    | none => rfl
    | some x =>
        obtain ⟨ip, mask⟩ := x
        have hfail : (ifaceAddAddr e.ok name ip mask s.ifaces).1 = false →
            (ifaceAddAddr e.ok name ip mask s.ifaces).2 = s.ifaces := by
          rw [ifaceAddAddr]
          split
          · exact fun _ => rfl
          · split
            · exact fun h => by cases h
            · exact fun _ => rfl
        simp only
        split
        · exact derive_lists ..
        · rename_i hok
          rw [hfail (by simpa using hok)]
          rfl
  · rfl

/-- **`delip`** of the console, on the lists. -/
theorem cmdDelip_lists : (s.cmdDelip e size args).lists =
    LinuxRouter.cmdDelip e.ok args s.ifaces s.tables.routes.routes := by
  rcases args with _ | ⟨name, _ | ⟨arg, args⟩⟩
  · rfl
  · have hfail : (ifaceDelAddr e.ok name s.ifaces).1 = false →
        (ifaceDelAddr e.ok name s.ifaces).2 = s.ifaces := by
      rw [ifaceDelAddr]
      split
      · exact fun _ => rfl
      · split
        · exact fun h => by cases h
        · exact fun _ => rfl
    rw [cmdDelip, LinuxRouter.cmdDelip]
    split
    · exact derive_lists ..
    · rename_i hok
      rw [hfail (by simpa using hok)]
      rfl
  · rfl

/-- The options, but for the text of a refusal. -/
theorem routeOpts_toOption (ifs : Ifaces) (args : List (List Byte)) (o : Ip × CInt) :
    (routeOpts ifs args o).toOption = routeOptions ifs args o := by
  induction args generalizing o with
  | nil => rfl
  | cons tok args ih =>
      cases args with
      | nil => rfl
      | cons arg args =>
          rw [routeOpts, routeOptions]
          split
          · cases strToIp arg with
            | none => rfl
            | some gw => exact ih _
          · split
            · cases ifaceByName ifs arg with
              | none => rfl
              | some it => exact ih _
            · exact ih _

/-- **`addroute`** of the console, on the lists. -/
theorem cmdAddroute_lists : (s.cmdAddroute size args).lists =
    ((LinuxRouter.cmdAddroute s.ifaces args s.tables.routes.routes).1, s.ifaces,
      (LinuxRouter.cmdAddroute s.ifaces args s.tables.routes.routes).2) := by
  rcases args with _ | ⟨tok, _ | ⟨arg, args⟩⟩
  · rfl
  · rfl
  · have hopts := routeOpts_toOption s.ifaces (arg :: args) (0, -1)
    have hlen : ¬ (tok :: arg :: args).length < 2 := by simp
    rw [cmdAddroute, LinuxRouter.cmdAddroute, if_neg hlen, parseRoute, ← hopts]
    cases parseCidr tok with
    | none => rfl
    | some x =>
        obtain ⟨dest, mask⟩ := x
        cases routeOpts s.ifaces (arg :: args) (0, -1) with
        | error text => rfl
        | ok o =>
            obtain ⟨gw, ifindex⟩ := o
            have hadd := s.tables.routeAdd_routes dest mask gw ifindex
            simp only [Except.toOption, Option.bind_eq_bind, Option.bind_some]
            by_cases hneg : ifindex < 0
            · simp only [hneg, if_true]
              rfl
            · simp only [hneg, if_false, ← hadd]
              by_cases hz : (s.tables.routeAdd dest mask gw ifindex).1 = 0
              · simp only [hz, if_true]
                rfl
              · have hsame : (s.tables.routeAdd dest mask gw ifindex).2.routes.routes =
                    s.tables.routes.routes := congrArg RouteTable.routes (RouteTable.add_of_ne hz)
                simp only [hz, if_false, hsame]
                rfl

/-! ### Loading a file -/

/-- The console's part of the state that the management threads share. -/
def manage (d : Disk) (up : Upgrade) (s : Console) : Manage where
  settings := s.settings
  rules := s.tables.rules.rules
  routes := s.tables.routes.routes
  ifaces := s.ifaces
  disk := d
  up := up

variable {d : Disk} {up : Upgrade} {w : World}

/-- A line of the file, of the console and step by step. -/
theorem loadLine_manage (sec p : List Byte) :
    (replay execM w (LinuxRouter.loadLine sec p) (s.manage d up)).2 = (s.loadLine (sec, p)).manage d up := by
  have hrule : ∀ r, { s.manage d up with rules := (LinuxRouter.fwAdd r s.tables.rules.rules).2 } =
      ({ s with tables := (s.tables.fwAdd r).2 } : Console).manage d up := fun r => by
    rw [← s.tables.fwAdd_rules r]
    rfl
  have hroute : ∀ dest mask gw ifindex, { s.manage d up with
        routes := (LinuxRouter.routeAdd dest mask gw ifindex s.tables.routes.routes).2 } =
      ({ s with tables := (s.tables.routeAdd dest mask gw ifindex).2 } : Console).manage d up :=
    fun dest mask gw ifindex => by
      rw [← s.tables.routeAdd_routes dest mask gw ifindex]
      rfl
  rw [LinuxRouter.loadLine, loadLine]
  split
  · rfl
  · split
    · cases parseFilterLine p with
      | none => rfl
      | some r => exact hrule r
    · split
      · cases parseFirewallLine p with
        | none => rfl
        | some r => exact hrule r
      · split
        · have hifs : (execM .ifaces w (s.manage d up)).1 = s.ifaces := rfl
          simp only [Prog.perform_bind, replay]
          rw [hifs]
          cases parseRouteLine s.ifaces p with
          | none => rfl
          | some x => exact hroute _ _ _ _
        · rfl

/-- The lines of the file, by induction. -/
theorem loadLines_manage (lines : List (List Byte × List Byte)) :
    (replay execM w (loadLines lines) (s.manage d up)).2 = (lines.foldl loadLine s).manage d up := by
  induction lines generalizing s with
  | nil => rfl
  | cons x lines ih =>
      obtain ⟨sec, p⟩ := x
      rw [loadLines, Program.replay_bind, loadLine_manage, ih, List.foldl_cons]

/-- **`config_load`** of the console, and step by step. -/
theorem load_manage (hconf : (execM .readConf w (s.manage d up)).1 = e.conf) :
    ∃ d', (replay execM w configLoadSteps (s.manage d up)).2 = (s.load e).manage d' up := by
  have hclear : ({ s with settings := configDefault s.settings, tables := s.tables.clear } :
      Console).manage d up =
        { s.manage d up with
          settings := configDefault s.settings, rules := []
          routes := routeClearStatic s.tables.routes.routes } := by
    rw [← RouteTable.clearStatic_routes]
    rfl
  simp only [configLoadSteps, Prog.perform_bind, replay]
  rw [hconf, load]
  cases e.conf with
  | none =>
      let saved (m : Manage) : Manage :=
        { m with disk := (execM .configSave w (s.manage d up)).2.disk }
      exact ⟨_, congrArg saved hclear.symm⟩
  | some file =>
      refine ⟨d, ?_⟩
      change (replay execM w (loadLines _) { s.manage d up with
        settings := configDefault s.settings, rules := []
        routes := routeClearStatic s.tables.routes.routes }).2 = _
      rw [← hclear, loadLines_manage]

end Console

end LinuxRouter
