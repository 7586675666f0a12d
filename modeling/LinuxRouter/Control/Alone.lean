import LinuxRouter.Commands.Agreement
import LinuxRouter.Commands.Deletion
import LinuxRouter.Model.Control
import LinuxRouter.Upgrade.Install

/-!
# Control — a command alone

The commands step by step, run with nobody between, leave the tables that `Console` says.

* `deriveSteps_alone`: the loop of `route_derive_connected` computes what its list does.
* `dispatch_alone`: `cmd_dispatch`.

A program step by step and a function on tables are compared by running the program with nobody
between (`replay`), command by command.  The loop of `route_derive_connected` reads each interface
several times, and alone it finds the same every time; that is the one induction here.
-/

namespace LinuxRouter

open Text (lit)
open Program (Prog replay replay_bind replay_handle)

namespace Control

variable {w : Around} {s : Control} {t : ℕ}

/-- The derivation's loop, from the interface `i` on. -/
theorem deriveLoop_alone (ifs : Ifaces) {i : ℕ} (hi : s.manage.ifaces.drop i = ifs) :
    (replay execCtl w (deriveLoop i ifs) s).2 = s.setRoutes (s.manage.routes ++
      (ifs.filterMap Iface.connected).take (maxRoute - s.manage.routes.length)) := by
  induction ifs generalizing s i with
  | nil => simp [deriveLoop, replay, setRoutes]
  | cons it ifs ih =>
      have hat : s.manage.ifaces[i]? = some it := by
        rw [← List.head?_drop, hi]
        rfl
      have hnext : s.manage.ifaces.drop (i + 1) = ifs := by
        rw [← List.tail_drop, hi]
        rfl
      have hread : ∀ φ : Iface → Ip, (s.manage.ifaces[i]?.map φ).getD 0 = φ it := fun φ => by
        rw [hat]
        rfl
      simp only [deriveLoop, own, Prog.perform_bind, replay, execCtl, execTerm]
      by_cases hfull : maxRoute ≤ s.manage.routes.length
      · simp only [hfull, decide_true, if_true, Nat.sub_eq_zero_of_le hfull, List.take_zero,
          List.append_nil]
        rfl
      · simp only [hfull, decide_false, Bool.false_eq_true, if_false]
        have hskip : it.connected = none → (replay execCtl w (deriveLoop (i + 1) ifs) s).2 =
            s.setRoutes (s.manage.routes ++ ((it :: ifs).filterMap Iface.connected).take
              (maxRoute - s.manage.routes.length)) := fun hc => by
          rw [List.filterMap_cons_none hc]
          exact ih hnext
        simp only [replay, execCtl, execTerm, hread]
        split
        · rename_i hno
          exact hskip (if_pos (by tauto))
        · rename_i hyes
          simp only [replay, execCtl, execTerm, hread]
          split
          · rename_i hmask
            exact hskip (if_pos (by tauto))
          · rename_i hmask
            let r : Route :=
              { dest := it.ip &&& it.netmask, mask := it.netmask, gw := 0, ifindex := it.ifindex
                isStatic := false }
            have hc : it.connected = some r := if_neg (by tauto)
            have hroom : maxRoute - s.manage.routes.length =
                maxRoute - (s.manage.routes.length + 1) + 1 := by omega
            simp only [replay, execCtl, execTerm, hread]
            refine (ih (s := s.setRoutes (s.manage.routes ++ [r])) hnext).trans ?_
            rw [List.filterMap_cons_some hc, hroom, List.take_succ_cons]
            simp [setRoutes]

/-- **A derivation alone** is the one of `Route`. -/
theorem deriveSteps_alone (t : ℕ) (s : Control) : (replay execCtl w (deriveSteps t) s).2 =
    { manage := { s.manage with routes := routeDeriveConnected s.manage.ifaces s.manage.routes }
      deriver := none
      slots := maxRoute - s.statics.length } := by
  let z : Control :=
    { s.setRoutes s.statics with deriver := some t, slots := maxRoute - s.statics.length }
  have hloop := deriveLoop_alone (w := w) (s := z) z.manage.ifaces List.drop_zero
  simp only [deriveSteps, own, of, replay, execCtl, execTerm, execM, replay_bind, Prog.perform]
  exact congrArg (fun y : Control => { y with deriver := none }) hloop

/-! ### The commands -/

/-- The shared state of a router on which nobody derives. -/
def still (n : ℕ) (m : Manage) : Control where
  manage := m
  deriver := none
  slots := n

/-- **An address alone.** -/
theorem address_alone (name : List Byte) (ip mask : Ip) (n : ℕ) (m : Manage) :
    let r := ifaceAddAddr w.ok name ip mask m.ifaces
    ∃ n', (replay execCtl w (ifaceAddAddrSteps name ip mask >>= fun ok =>
        if ok then deriveSteps t else .ret ()) (still n m)).2 =
      still n' (if r.1 then
        { m with ifaces := r.2, routes := routeDeriveConnected r.2 m.routes } else m) := by
  have hifs : execCtl (.of .ifaces) w (still n m) = (m.ifaces, still n m) := rfl
  have hok : execCtl (.own .ioctl) w (still n m) = (w.ok, still n m) := rfl
  obtain ⟨x, hx⟩ : ∃ x, m.ifaces.findIdx? (fun it => it.name.1 == name) = x := ⟨_, rfl⟩
  simp only [ifaceAddAddrSteps, ifaceAddAddr, own, of, Prog.perform_bind, Prog.cmd_bind, replay,
    hifs, hx]
  cases x with
  | none => exact ⟨n, rfl⟩
  | some i =>
      simp only [Prog.cmd_bind, replay, hok]
      cases w.ok with
      | false => exact ⟨n, rfl⟩
      | true =>
          have hset : (m.ifaces.modify i fun it => { it with ip := ip }).modify i
              (fun it => { it with netmask := mask }) =
                m.ifaces.modify i fun it => { it with ip := ip, netmask := mask } :=
            List.modify_modify_eq ..
          simp only [if_true, Prog.cmd_bind, Prog.pure_eq, Prog.ret_bind, replay, deriveSteps_alone]
          rw [← hset]
          exact ⟨_, rfl⟩

variable {o : Outside} {size n : ℕ} {c : Console} {d : Disk} {up : Upgrade}

/-- The program leaves the router `c'`. -/
abbrev Leaves (w : Around) (p : CtlAct Unit) (n : ℕ) (d : Disk) (up : Upgrade)
    (c c' : Console) : Prop :=
  ∃ d' n', (replay execCtl w p (still n (c.manage d up))).2 = still n' (c'.manage d' up)

theorem leaves_same : Leaves w (.ret ()) n d up c c := ⟨d, n, rfl⟩

/-- A command that leaves the state. -/
theorem leaves_read {β : Type} {a : CtlCmd β} {b : β} {k : β → CtlAct Unit} {c' : Console}
    (ha : execCtl a w (still n (c.manage d up)) = (b, still n (c.manage d up)))
    (h : Leaves w (k b) n d up c c') : Leaves w (Prog.perform a >>= k) n d up c c' := by
  rw [Leaves, Prog.perform_bind, replay, ha]
  exact h

/-- The tables of a router with other interfaces, after the derivation. -/
theorem manage_derive (ifs : Ifaces) (u : ℕ → Bool) :
    ({ c with ifaces := ifs, up := u } : Console).derive.manage d up =
      { c.manage d up with
        ifaces := ifs, routes := routeDeriveConnected ifs (c.manage d up).routes } := by
  have hr : (c.tables.routes.deriveConnected ifs).routes =
      routeDeriveConnected ifs c.tables.routes.routes :=
    RouteTable.deriveConnected_routes _ _
  simp only [Console.derive, Console.manage, Tables.deriveConnected, hr]

theorem leaves_setip (hok : w.ok = o.ok) (args : List (List Byte)) :
    Leaves w (setipSteps t args) n d up c (c.cmdSetip o size args).console := by
  rcases args with _ | ⟨name, _ | ⟨addr, _ | ⟨arg, args⟩⟩⟩
  · exact leaves_same
  · exact leaves_same
  · rw [setipSteps, Console.cmdSetip]
    cases parseCidr addr with
    | none => exact leaves_same
    | some x =>
        obtain ⟨ip, mask⟩ := x
        obtain ⟨n', h⟩ := address_alone (w := w) (t := t) name ip mask n (c.manage d up)
        refine ⟨d, n', h.trans (congrArg (still n') ?_)⟩
        rw [hok]
        change (if (ifaceAddAddr o.ok name ip mask c.ifaces).1 = true then _ else _) = _
        by_cases hr : (ifaceAddAddr o.ok name ip mask c.ifaces).1 = true
        · simp only [hr, if_true]
          exact (manage_derive _ _).symm
        · simp only [hr]
          rfl
  · exact leaves_same

theorem leaves_delip (hok : w.ok = o.ok) (args : List (List Byte)) :
    Leaves w (delipSteps t args) n d up c (c.cmdDelip o size args).console := by
  rcases args with _ | ⟨name, _ | ⟨arg, args⟩⟩
  · exact leaves_same
  · rw [delipSteps, Console.cmdDelip]
    obtain ⟨n', h⟩ := address_alone (w := w) (t := t) name 0 0 n (c.manage d up)
    refine ⟨d, n', h.trans (congrArg (still n') ?_)⟩
    rw [hok]
    change (if (ifaceDelAddr o.ok name c.ifaces).1 = true then _ else _) = _
    by_cases hr : (ifaceDelAddr o.ok name c.ifaces).1 = true
    · simp only [hr, if_true]
      exact (manage_derive _ _).symm
    · simp only [hr]
      rfl
  · exact leaves_same

theorem leaves_addfw (hjunk : w.junk = o.junk) (args : List (List Byte)) :
    Leaves w (addfwSteps args) n d up c (c.cmdAddfw o size args).console := by
  rw [addfwSteps, Console.cmdAddfw]
  split
  · exact leaves_same
  · refine leaves_read (b := o.junk) (congrArg (·, _) hjunk) ?_
    cases ((lookRule args.length).scan fun j =>
        (addfwArg (lit "addfw" :: args) j).getD (o.junk j)).1 with
    | none => exact leaves_same
    | some r =>
        have hadd := c.tables.fwAdd_rules r
        refine ⟨d, n, ?_⟩
        change still n { c.manage d up with rules := (fwAdd r c.tables.rules.rules).2 } = _
        rw [← hadd]
        by_cases hr : (c.tables.fwAdd r).1 = true
        · simp only [hr, if_true]
          rfl
        · have hsame : (c.tables.fwAdd r).2 = c.tables := by
            revert hr
            simp only [Tables.fwAdd, FwTable.add]
            split
            · exact fun _ => rfl
            · exact fun h => absurd rfl h
          simp only [hr, hsame]
          rfl

theorem leaves_delfw (args : List (List Byte)) :
    Leaves w (delfwSteps args) n d up c (c.cmdDelfw size args).console := by
  rcases args with _ | ⟨index, _ | ⟨arg, args⟩⟩
  · exact leaves_same
  · have hdel : (c.tables.cmdDelfw [index]).2 =
        { c.tables with rules := (c.tables.rules.del (Text.atoi index)).2 } := by
      rw [Tables.cmdDelfw]
      split <;> rfl
    refine ⟨d, n, ?_⟩
    change still n { c.manage d up with rules := _ } =
      still n (({ c with tables := (c.tables.cmdDelfw [index]).2 } : Console).manage d up)
    have hrules := c.tables.rules.del_rules (Text.atoi index)
    rw [hdel]
    exact congrArg (fun rules => still n { c.manage d up with rules := rules }) hrules.symm
  · exact leaves_same

theorem leaves_delroute (args : List (List Byte)) :
    Leaves w (delrouteSteps args) n d up c (c.cmdDelroute size args).console := by
  rcases args with _ | ⟨index, _ | ⟨arg, args⟩⟩
  · exact leaves_same
  · have hdel : (c.tables.cmdDelroute [index]).2 = (c.tables.routeDel (Text.atoi index)).2 := by
      rw [Tables.cmdDelroute]
      split
      · rfl
      · split <;> rfl
    refine ⟨d, n, ?_⟩
    change still n { c.manage d up with routes := (routeDel _ c.tables.routes.routes).2 } =
      still n (({ c with tables := (c.tables.cmdDelroute [index]).2 } : Console).manage d up)
    rw [hdel, ← c.tables.routes.del_routes]
    rfl
  · exact leaves_same

theorem leaves_addroute (args : List (List Byte)) :
    Leaves w (addrouteSteps args) n d up c (c.cmdAddroute size args).console := by
  rcases args with _ | ⟨tok, _ | ⟨arg, args⟩⟩
  · exact leaves_same
  · exact leaves_same
  · rw [addrouteSteps, Console.cmdAddroute]
    cases parseCidr tok with
    | none => exact leaves_same
    | some x =>
        obtain ⟨dest, mask⟩ := x
        refine leaves_read (b := c.ifaces) rfl ?_
        dsimp only
        cases Console.routeOpts c.ifaces (arg :: args) (0, -1) with
        | error text => exact leaves_same
        | ok r =>
            obtain ⟨gw, ifindex⟩ := r
            dsimp only
            by_cases hneg : ifindex < 0
            · simp only [hneg, if_true]
              exact leaves_same
            · simp only [hneg, if_false]
              have hadd := c.tables.routeAdd_routes dest mask gw ifindex
              refine ⟨d, n, ?_⟩
              change still n { c.manage d up with
                routes := (routeAdd dest mask gw ifindex c.tables.routes.routes).2 } = _
              rw [← hadd]
              by_cases hz : (c.tables.routeAdd dest mask gw ifindex).1 = 0
              · simp only [hz, if_true]
                rfl
              · have hsame : (c.tables.routeAdd dest mask gw ifindex).2.routes.routes =
                    c.tables.routes.routes := congrArg RouteTable.routes (RouteTable.add_of_ne hz)
                simp only [hz, if_false, hsame]
                rfl

/-- `config_load` and the derivation after it. -/
theorem leaves_reload (hconf : (execM .readConf w.toWorld (c.manage d up)).1 = o.conf) :
    Leaves w (reloadSteps t) n d up c (c.cmdReload o size).console := by
  obtain ⟨d', hload⟩ := Console.load_manage o c hconf
  have hlift : replay execCtl w (configLoadSteps.handle fun _ => of) (still n (c.manage d up)) =
      ((), still n ((c.load o).manage d' up)) := by
    have hrun : replay execCtl w (configLoadSteps.handle fun _ => of) (still n (c.manage d up)) =
        ((replay execM w.toWorld configLoadSteps (c.manage d up)).1,
          still n (replay execM w.toWorld configLoadSteps (c.manage d up)).2) :=
      replay_handle (fun _ _ _ => rfl) _ _
    rw [hrun, hload]
  refine ⟨d', maxRoute - (still n ((c.load o).manage d' up)).statics.length, ?_⟩
  rw [reloadSteps, replay_bind, hlift, deriveSteps_alone]
  exact congrArg (still _) (manage_derive (c.load o).ifaces (c.load o).up).symm

/-- **`cmd_dispatch` alone** leaves the router that `Console` says: the same line, run step by step on
the shared tables while no other thread moves, ends with the interfaces, rules, routes and settings of
the atomic model, whatever the line is.  The two are given the same answers of the system. -/
theorem dispatch_alone (hok : w.ok = o.ok) (hjunk : w.junk = o.junk)
    (hconf : (execM .readConf w.toWorld (c.manage d up)).1 = o.conf) (stack : ℕ → Byte)
    (line : List Byte) :
    Leaves w (dispatchSteps t line) n d up c (c.cmdDispatch o stack size line).console := by
  rw [dispatchSteps, Console.cmdDispatch]
  cases dispatchWords line with
  | nil => exact leaves_same
  | cons name args =>
      dsimp only
      cases cmdTable.find? fun a => lit a.name == name with
      | none => exact leaves_same
      | some a =>
          dsimp only
          cases a.fn with
          | setip => exact leaves_setip hok args
          | delip => exact leaves_delip hok args
          | addfw => exact leaves_addfw hjunk args
          | delfw => exact leaves_delfw args
          | addroute => exact leaves_addroute args
          | delroute => exact leaves_delroute args
          | save =>
              have hsave : (c.cmdSave o stack size).console = c := by
                rw [Console.cmdSave]
                split <;> rfl
              change Leaves w (of .configSave) n d up c (c.cmdSave o stack size).console
              rw [hsave]
              exact ⟨_, n, rfl⟩
          | reload => exact leaves_reload hconf
          | _ => exact leaves_same

/-- Everything succeeds. -/
def fair : Around :=
  { World.fair with line := none, tty := true, ok := true, junk := fun _ => [] }

theorem dispatch_alone_addfw :
    Leaves fair (dispatchSteps 0 (lit "addfw drop ip any")) 64 Files.Fs.empty Upgrade.fresh
      Console.start (Console.start.cmdDispatch .plain (fun _ => Text.nul) 256
        (lit "addfw drop ip any")).console :=
  dispatch_alone rfl rfl rfl _ _

end Control

end LinuxRouter
