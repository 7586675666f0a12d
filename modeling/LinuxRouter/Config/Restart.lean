import LinuxRouter.Config.Routes
import LinuxRouter.Model.Remote
import LinuxRouter.Model.Terminal

/-!
# Config — reload and restart

The static routes after a reload, beside those after a start with the same file.  On a reload the
connected routes are in the table while the lines of the file are added.

* `Reached`: the states that a start, the commands and reloads lead to; `reached_room`.
* `reload_statics`: the static routes that a reload leaves.
* `restart_iff`: when they are those of a start.
* `reload_forgets`: a reload that loses a route of its file.

The static routes of a file are added one by one, each only if it is not there and there is room.
At a start the table is empty then; in a reload it holds the connected routes.  So the two results
are one fold from two starting points, and `Support/Roster` says when it comes to the same: when no
route of the file is among those that are there, and the room that they take is not missed.
-/

namespace LinuxRouter

open Text (lit)
open Program (Prog replay)

/-! ### The states of a router -/

/-- A router after a start, and after the commands and reloads since. -/
inductive Reached : Manage → Prop where
  | boot {s : Manage} (e : World) (h : s.routes = []) : Reached (replay execM e reload s).2
  | reload {s : Manage} (e : World) (h : Reached s) : Reached (replay execM e reload s).2
  | addroute {s : Manage} (args : List (List Byte)) (h : Reached s) :
      Reached { s with routes := (cmdAddroute s.ifaces args s.routes).2 }
  | delroute {s : Manage} (args : List (List Byte)) (h : Reached s) :
      Reached { s with routes := (cmdDelroute args s.routes).2 }
  | setip {s : Manage} (ok : Bool) (args : List (List Byte)) (h : Reached s) :
      Reached { s with
        ifaces := (cmdSetip ok args s.ifaces s.routes).2.1
        routes := (cmdSetip ok args s.ifaces s.routes).2.2 }
  | delip {s : Manage} (ok : Bool) (args : List (List Byte)) (h : Reached s) :
      Reached { s with
        ifaces := (cmdDelip ok args s.ifaces s.routes).2.1
        routes := (cmdDelip ok args s.ifaces s.routes).2.2 }
  -- the files and the other settings change in other ways, too
  | other {s s' : Manage} (hi : s'.ifaces = s.ifaces) (hr : s'.routes = s.routes) (h : Reached s) :
      Reached s'

variable {e : World} {s : Manage}

/-- The routes that `config_load` leaves. -/
theorem configLoad_routes (e : World) (s : Manage) :
    (replay execM e configLoadSteps s).2.routes =
      match (execM .readConf e s).1 with
      | none => routeClearStatic s.routes
      | some file => (fileRoutes s.ifaces file).foldl addRoute (routeClearStatic s.routes) := by
  cases hconf : (execM .readConf e s).1 with
  | none =>
      simp only [configLoadSteps, Prog.perform_bind, replay]
      rw [hconf]
      rfl
  | some file =>
      have hread : e.opened = true ∧ s.disk.read configFile = some file := by
        change (if e.opened then s.disk.read configFile else none) = some file at hconf
        split at hconf
        · rename_i he
          exact ⟨he, hconf⟩
        · cases hconf
      exact (configLoad_tables hread.1 hread.2).2

/-- A reload derives the connected routes last, from whatever interfaces there are. -/
theorem reload_routes (e : World) (s : Manage) : ∃ ifs,
    (replay execM e reload s).2.routes =
      routeDeriveConnected ifs (replay execM e configLoadSteps s).2.routes := by
  refine ⟨(replay execM e configLoadSteps s).2.ifaces, ?_⟩
  simp only [reload, Program.replay_bind]
  rfl

theorem length_routeClearStatic (routes : List Route) :
    (routeClearStatic routes).length ≤ routes.length := List.length_filter_le _ _

theorem length_foldl_addRoute (xs : List RouteArgs) {routes : List Route}
    (h : routes.length ≤ maxRoute) : (xs.foldl addRoute routes).length ≤ maxRoute := by
  induction xs generalizing routes with
  | nil => exact h
  | cons x xs ih => exact ih (length_apply h (.add x.1 x.2.1 x.2.2.1 x.2.2.2))

theorem length_reload (e : World) (h : s.routes.length ≤ maxRoute) :
    (replay execM e reload s).2.routes.length ≤ maxRoute := by
  obtain ⟨ifs, e₁⟩ := reload_routes e s
  rw [e₁]
  refine length_apply ?_ (.derive ifs)
  have hclear := (length_routeClearStatic s.routes).trans h
  rw [configLoad_routes]
  cases (execM .readConf e s).1 with
  | none => exact hclear
  | some file => exact length_foldl_addRoute _ hclear

/-- **The table of a reached state** is within its array. -/
theorem reached_room (h : Reached s) : s.routes.length ≤ maxRoute := by
  induction h with
  | boot e h =>
      refine length_reload e ?_
      rw [h]
      exact Nat.zero_le _
  | reload e _ ih => exact length_reload e ih
  | @addroute s args _ ih =>
      dsimp only
      unfold cmdAddroute
      split
      · exact ih
      · cases parseRoute s.ifaces args with
        | none => exact ih
        | some x => exact length_apply ih (.add x.1 x.2.1 x.2.2.1 x.2.2.2)
  | @delroute s args _ ih =>
      dsimp only
      unfold cmdDelroute
      split
      · exact length_apply ih (.del _)
      · exact ih
  | @setip s ok args _ ih =>
      dsimp only
      unfold cmdSetip
      split
      · split
        · exact ih
        · dsimp only
          split
          · exact length_apply ih (.derive _)
          · exact ih
      · exact ih
  | @delip s ok args _ ih =>
      dsimp only
      unfold cmdDelip
      split
      · dsimp only
        split
        · exact length_apply ih (.derive _)
        · exact ih
      · exact ih
  | other _ hr _ ih => rwa [hr]

/-! ### The static routes -/

/-- The static routes of a table. -/
def staticRoutes (routes : List Route) : List Route := routes.filter (·.isStatic)

theorem staticRoutes_loaded (xs : List RouteArgs) (routes : List Route) :
    staticRoutes (xs.foldl addRoute (routeClearStatic routes)) =
      (Roster.taken maxRoute ((routeClearStatic routes).map Route.args) xs).map RouteArgs.route := by
  have hnone : (routeClearStatic routes).filter (·.isStatic) = [] :=
    List.filter_eq_nil_iff.mpr fun r hr => by simpa using (List.mem_filter.mp hr).2
  have hall : ∀ ys : List RouteArgs,
      (ys.map RouteArgs.route).filter (·.isStatic) = ys.map RouteArgs.route := by
    intro ys
    refine List.filter_eq_self.mpr fun r hr => ?_
    obtain ⟨x, -, rfl⟩ := List.mem_map.mp hr
    rfl
  rw [staticRoutes, foldl_addRoute_eq, List.filter_append, hnone, hall, List.nil_append]

/-- **The static routes that a reload leaves**: those of the file that no connected route equals, as
far as the connected ones leave room. -/
theorem reload_statics (e : World) (s : Manage) :
    staticRoutes (replay execM e reload s).2.routes =
      match (execM .readConf e s).1 with
      | none => []
      | some file =>
          (Roster.taken maxRoute ((routeClearStatic s.routes).map Route.args)
            (fileRoutes s.ifaces file)).map RouteArgs.route := by
  obtain ⟨ifs, e₁⟩ := reload_routes e s
  have hderive : staticRoutes (replay execM e reload s).2.routes =
      staticRoutes (replay execM e configLoadSteps s).2.routes := by
    rw [e₁]
    exact statics_apply _ (.derive ifs)
  rw [hderive, configLoad_routes]
  cases (execM .readConf e s).1 with
  | none =>
      refine (staticRoutes_loaded [] s.routes).trans ?_
      rw [Roster.taken_of_nil]
      rfl
  | some file => exact staticRoutes_loaded _ s.routes

/-- **When a reload is a restart.**  The static routes are those of a start with the same interfaces
and the same file exactly if there is no connected route at the reload, or none that the file has as a
static one, and room for them beside all the routes of the file. -/
theorem restart_iff {s : Manage} (h : ∃ s₀, Reached s₀ ∧ s₀.routes = s.routes) (e : World) :
    staticRoutes (replay execM e reload s).2.routes =
        staticRoutes (replay execM e reload { s with routes := [] }).2.routes ↔
      ∀ file, (execM .readConf e s).1 = some file →
        routeClearStatic s.routes = [] ∨
          ((∀ x ∈ fileRoutes s.ifaces file, x ∉ (routeClearStatic s.routes).map Route.args) ∧
            (routeClearStatic s.routes).length + (fileRoutes s.ifaces file).dedup.length ≤ maxRoute)
    := by
  obtain ⟨s₀, h₀, hroutes⟩ := h
  have hroom : ((routeClearStatic s.routes).map Route.args).length ≤ maxRoute := by
    rw [List.length_map, ← hroutes]
    exact (length_routeClearStatic _).trans (reached_room h₀)
  have hempty : (execM .readConf e { s with routes := [] }).1 = (execM .readConf e s).1 := rfl
  have hinj : Function.Injective RouteArgs.route :=
    Function.LeftInverse.injective (g := Route.args) fun _ => rfl
  rw [reload_statics, reload_statics, hempty]
  cases (execM .readConf e s).1 with
  | none => exact iff_of_true rfl fun _ hf => nomatch hf
  | some file =>
      have hiff := @Roster.enter_empty_iff _ _ _ _ (fileRoutes s.ifaces file) hroom
      rw [List.map_eq_nil_iff, List.length_map] at hiff
      simp only [Option.some.injEq, forall_eq']
      rw [← hiff]
      exact (List.map_injective_iff.mpr hinj).eq_iff

/-! ### Two files -/

/-- A router with eth0, started with a file. -/
def Manage.started (file : List Byte) : Manage :=
  (replay execM .fair reload { Manage.guarded [] file with ifaces := [eth0] }).2

/-- A route behind a gateway is there again. -/
theorem restart_via :
    let s := Manage.started (lit "[route]\n10.1.0.0/16 via 10.0.0.9 dev eth0\n")
    staticRoutes (replay execM .fair reload s).2.routes =
      staticRoutes (replay execM .fair reload { s with routes := [] }).2.routes := by
  intro s
  refine (restart_iff ⟨s, .boot .fair rfl, rfl⟩ .fair).mpr fun file hfile => .inr ?_
  obtain rfl : lit "[route]\n10.1.0.0/16 via 10.0.0.9 dev eth0\n" = file := Option.some.inj hfile
  have hroutes : fileRoutes s.ifaces (lit "[route]\n10.1.0.0/16 via 10.0.0.9 dev eth0\n") =
      [(0x0a010000, 0xFFFF0000, 0x0a000009, 2)] := by decide +kernel
  rw [hroutes]
  exact ⟨List.forall_mem_singleton.mpr (by decide +kernel), by decide +kernel⟩

/-- **A reload that loses a route.**  The file has the network of eth0 as a static route.  A start
takes it; a reload of the same file finds the connected route in the table, does not add it, and ends
without it. -/
theorem reload_forgets :
    let s := Manage.started (lit "[route]\n10.0.0.0/24 dev eth0\n")
    let r : RouteArgs := (0x0a000000, 0xFFFFFF00, 0, 2)
    Reached s ∧ staticRoutes (replay execM .fair reload { s with routes := [] }).2.routes = [r.route] ∧
      staticRoutes (replay execM .fair reload s).2.routes = [] := by
  refine ⟨.boot .fair rfl, ?_, ?_⟩
  all_goals decide +kernel

end LinuxRouter
