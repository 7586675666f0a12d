import LinuxRouter.Support.Roster
import LinuxRouter.Model.RouteTable

/-!
# Routes — the table

The array and the count of `route.c` hold a list.

* `foldl_addRoute_eq`: what a list of routes adds to a table.
* `add_routes`, `del_routes`, `clearStatic_routes`, `deriveConnected_routes`: the calls do on the
  array what `routeAdd`, `routeDel`, `routeClearStatic` and `routeDeriveConnected` do on the list.
* `RouteCall.onStatics`: what a call does on a plain list of static routes.
* `route_history`: after any sequence of calls the static routes are that list.

The calls work on an array with a count, by loops that move cells; the lemmas of `Support/Rows` say
what such a loop does to the list that the cells hold, and each call is then the function on lists.
Static and connected routes share the array, so that a call on the static ones is described together
with the room that the others take.  `call_le` keeps the count within the array, and `route_history`
is an induction over the calls.
-/

namespace LinuxRouter

/-! ### A route to add -/

/-- A route as a line has it: the prefix, the gateway and the interface. -/
abbrev RouteArgs := Ip × Ip × Ip × CInt

/-- `route_add` of what a line has. -/
def addRoute (routes : List Route) (x : RouteArgs) : List Route :=
  (routeAdd x.1 x.2.1 x.2.2.1 x.2.2.2 routes).2

/-- The route of `x`, as `route_add` stores it. -/
def RouteArgs.route (x : RouteArgs) : Route where
  dest := x.1
  mask := x.2.1
  gw := x.2.2.1
  ifindex := x.2.2.2
  isStatic := true

/-- What a line has of a route. -/
def Route.args (r : Route) : RouteArgs := (r.dest, r.mask, r.gw, r.ifindex)

theorem any_args {routes : List Route} {x : RouteArgs} :
    (routes.any fun r => r.dest == x.1 && r.mask == x.2.1 && r.gw == x.2.2.1 &&
      r.ifindex == x.2.2.2) = true ↔ x ∈ routes.map Route.args := by
  obtain ⟨dest, mask, gw, ifindex⟩ := x
  simp only [List.any_eq_true, Bool.and_eq_true, beq_iff_eq, List.mem_map, Route.args,
    Prod.mk.injEq, and_assoc]

/-- `route_add`: a route that is there, or one too many, or one more. -/
theorem addRoute_cases (routes : List Route) (x : RouteArgs) :
    (addRoute routes x = routes ∧ (x ∈ routes.map Route.args ∨ maxRoute ≤ routes.length)) ∨
    (x ∉ routes.map Route.args ∧ routes.length < maxRoute ∧ addRoute routes x = routes ++
      [{ dest := x.1, mask := x.2.1, gw := x.2.2.1, ifindex := x.2.2.2, isStatic := true }]) := by
  unfold addRoute routeAdd
  split
  · rename_i h
    exact .inl ⟨rfl, .inl (any_args.mp h)⟩
  · rename_i h
    split
    · rename_i hl
      exact .inl ⟨rfl, .inr hl⟩
    · rename_i hl
      exact .inr ⟨fun hm => h (any_args.mpr hm), by omega, rfl⟩

theorem args_addRoute (routes : List Route) (x : RouteArgs) :
    (addRoute routes x).map Route.args = Roster.enter maxRoute (routes.map Route.args) x := by
  rw [Roster.enter, List.length_map]
  rcases addRoute_cases routes x with ⟨e, h⟩ | ⟨hm, hl, e⟩
  · rw [e, if_pos h]
  · rw [e, if_neg (not_or.mpr ⟨hm, Nat.not_le.mpr hl⟩), List.map_append]
    rfl

/-- **Routes added one by one** come behind those of the table: each that is not there, once, as far
as there is room. -/
theorem foldl_addRoute_eq (xs : List RouteArgs) (routes : List Route) :
    xs.foldl addRoute routes =
      routes ++ (Roster.taken maxRoute (routes.map Route.args) xs).map RouteArgs.route := by
  obtain ⟨ys, hys⟩ : ∃ ys : List RouteArgs,
      xs.foldl addRoute routes = routes ++ ys.map RouteArgs.route := by
    induction xs using List.reverseRecOn with
    | nil => exact ⟨[], (List.append_nil _).symm⟩
    | append_singleton xs x ih =>
        obtain ⟨ys, hys⟩ := ih
        rw [List.foldl_append, hys, List.foldl_cons, List.foldl_nil]
        rcases addRoute_cases (routes ++ ys.map RouteArgs.route) x with ⟨e, -⟩ | ⟨-, -, e⟩
        · exact ⟨ys, e⟩
        · refine ⟨ys ++ [x], e.trans ?_⟩
          rw [List.append_assoc, List.map_append]
          rfl
  have hargs : (xs.foldl addRoute routes).map Route.args =
      routes.map Route.args ++ Roster.taken maxRoute (routes.map Route.args) xs := by
    rw [← Roster.foldl_enter]
    exact (List.foldl_hom (List.map Route.args) fun r x => (args_addRoute r x).symm).symm
  have hmap : (ys.map RouteArgs.route).map Route.args = ys := by
    rw [List.map_map]
    exact List.map_id ys
  rw [hys, List.map_append, hmap] at hargs
  rw [hys, List.append_cancel_left hargs]

namespace RouteTable

/-- The routes in the table, first to last. -/
def routes (t : RouteTable) : List Route := Rows.rows t.route t.n

variable (t : RouteTable)

@[simp] theorem length_routes : t.routes.length = t.n := Rows.length_rows _ _

/-! ### The calls, on the list -/

theorem push_routes (r : Route) : (t.push r).routes = t.routes ++ [r] := Rows.rows_push _ _ _

theorem keep_routes (p : Route → Bool) : (t.keep p).routes = t.routes.filter p :=
  Rows.rows_compact _ _ _

theorem clearStatic_routes : t.clearStatic.routes = routeClearStatic t.routes := t.keep_routes _

theorem pushConnected_routes (ifs : Ifaces) : (t.pushConnected ifs).routes =
    t.routes ++ (ifs.filterMap Iface.connected).take (maxRoute - t.n) := by
  induction ifs generalizing t with
  | nil => simp [pushConnected]
  | cons it ifs ih =>
      rw [pushConnected]
      split
      · rename_i hroom
        split
        · rename_i hskip
          have hnone : it.connected = none := if_pos hskip
          rw [ih, List.filterMap_cons_none hnone]
        · rename_i hskip
          have hsome : it.connected = some
              { dest := it.ip &&& it.netmask, mask := it.netmask, gw := 0, ifindex := it.ifindex
                isStatic := false } := if_neg hskip
          have hleft : maxRoute - t.n = maxRoute - (t.n + 1) + 1 := by omega
          rw [ih, push_routes, List.filterMap_cons_some hsome, hleft, List.take_succ_cons,
            List.append_assoc]
          rfl
      · rename_i hfull
        have hnil : maxRoute - t.n = 0 := by omega
        rw [hnil, List.take_zero, List.append_nil]

theorem deriveConnected_routes (ifs : Ifaces) :
    (t.deriveConnected ifs).routes = routeDeriveConnected ifs t.routes := by
  have hn : (t.keep (·.isStatic)).n = (t.routes.filter (·.isStatic)).length := by
    rw [← keep_routes, length_routes]
  rw [deriveConnected, pushConnected_routes, hn, keep_routes]
  rfl

theorem hasFrom_eq (dest mask gw : Ip) (ifindex : CInt) (m i : ℕ) :
    t.hasFrom dest mask gw ifindex m i = ((List.range' i m).map t.route).any fun r =>
      r.dest == dest && r.mask == mask && r.gw == gw && r.ifindex == ifindex := by
  induction m generalizing i with
  | zero => rfl
  | succ m ih =>
      rw [hasFrom, List.range'_succ, List.map_cons, List.any_cons]
      split
      · rename_i h
        simp [h]
      · rename_i h
        have hfalse : ((t.route i).dest == dest && (t.route i).mask == mask && (t.route i).gw == gw &&
            (t.route i).ifindex == ifindex) = false := by
          simpa [and_assoc] using h
        rw [ih, hfalse, Bool.false_or]

theorem add_routes (dest mask gw : Ip) (ifindex : CInt) :
    let a := t.add dest mask gw ifindex
    (decide (a.1 = 0), a.2.routes) = routeAdd dest mask gw ifindex t.routes := by
  have hhas := t.hasFrom_eq dest mask gw ifindex t.n 0
  rw [← List.range_eq_range', show (List.range t.n).map t.route = t.routes from rfl] at hhas
  simp only [add, routeAdd, hhas, length_routes]
  split
  · rfl
  · split
    · rfl
    · exact Prod.ext rfl (t.push_routes _)

theorem del_routes (index : CInt) :
    ((t.del index).1, (t.del index).2.routes) = routeDel index t.routes := by
  have hget : t.routes[index.toInt.toNat]? =
      if index.toInt.toNat < t.n then some (t.route index.toInt.toNat) else none :=
    Rows.getElem?_rows _ _ _
  unfold del routeDel routeAt
  split
  · rfl
  · rename_i hneg
    have hpos : 0 ≤ index.toInt := Int.not_lt.mp fun h => hneg (Int32.lt_iff_toInt_lt.mpr h)
    rw [hget]
    split
    · rename_i hout
      rw [if_neg (by omega)]
    · rename_i hin
      have hlt : index.toInt.toNat < t.n := by omega
      rw [if_pos hlt]
      dsimp only
      cases (t.route index.toInt.toNat).isStatic with
      | false => rfl
      | true => exact Prod.ext rfl (Rows.rows_remove _ hlt)

end RouteTable

/-- A call, on the list. -/
def RouteCall.apply (routes : List Route) : RouteCall → List Route
  | .add dest mask gw ifindex => (routeAdd dest mask gw ifindex routes).2
  | .del index => (routeDel index routes).2
  | .clearStatic => routeClearStatic routes
  | .derive ifs => routeDeriveConnected ifs routes

theorem RouteTable.call_routes (t : RouteTable) (c : RouteCall) :
    (t.call c).routes = c.apply t.routes := by
  cases c with
  | add dest mask gw ifindex => exact congrArg Prod.snd (t.add_routes dest mask gw ifindex)
  | del index => exact congrArg Prod.snd (t.del_routes index)
  | clearStatic => exact t.clearStatic_routes
  | derive ifs => exact t.deriveConnected_routes ifs

/-! ### The static routes -/

/-- The static routes of a table. -/
def RouteTable.statics (t : RouteTable) : List Route := t.routes.filter (·.isStatic)

/-- The connected routes of a table. -/
def RouteTable.connected (t : RouteTable) : List Route := t.routes.filter fun r => !r.isStatic

/-- A call, on a plain list of static routes; `routes` is what the table has before it. -/
def RouteCall.onStatics (routes statics : List Route) : RouteCall → List Route
  | .add dest mask gw ifindex =>
      if (dest, mask, gw, ifindex) ∈ routes.map Route.args ∨ maxRoute ≤ routes.length then statics
      else statics ++ [{ dest, mask, gw, ifindex, isStatic := true }]
  | .del index =>
      match routeAt index routes with
      | none => statics
      | some r =>
          -- the place of the route among the static ones
          if r.isStatic then
            statics.eraseIdx ((routes.take index.toInt.toNat).countP (·.isStatic))
          else statics
  | .clearStatic => []
  | .derive _ => statics

theorem routeAt_eq_some {index : CInt} {routes : List Route} {r : Route}
    (h : routeAt index routes = some r) : routes[index.toInt.toNat]? = some r := by
  unfold routeAt at h
  split at h
  · cases h
  · exact h

theorem filter_connected (ifs : Ifaces) (p : Route → Bool) (h : ∀ r, r.isStatic = false → p r = false)
    (n : ℕ) : ((ifs.filterMap Iface.connected).take n).filter p = [] := by
  refine List.filter_eq_nil_iff.mpr fun r hr => ?_
  obtain ⟨it, -, hit⟩ := List.mem_filterMap.mp (List.mem_of_mem_take hr)
  have hconn : r.isStatic = false := by
    unfold Iface.connected at hit
    split at hit
    · cases hit
    · cases hit
      rfl
  rw [h r hconn]
  exact Bool.false_ne_true

/-- **What a call does to the static routes.** -/
theorem statics_apply (routes : List Route) (c : RouteCall) :
    (c.apply routes).filter (·.isStatic) = c.onStatics routes (routes.filter (·.isStatic)) := by
  cases c with
  | add dest mask gw ifindex =>
      rcases addRoute_cases routes (dest, mask, gw, ifindex) with ⟨e, h⟩ | ⟨hm, hl, e⟩
      · exact (congrArg _ e).trans (if_pos h).symm
      · have hnot : ¬ ((dest, mask, gw, ifindex) ∈ routes.map Route.args ∨ maxRoute ≤ routes.length) :=
          not_or.mpr ⟨hm, Nat.not_le.mpr hl⟩
        refine (congrArg _ e).trans (Eq.trans ?_ (if_neg hnot).symm)
        rw [List.filter_append, List.filter_singleton]
        rfl
  | del index =>
      simp only [RouteCall.apply, RouteCall.onStatics, routeDel]
      cases hat : routeAt index routes with
      | none => rfl
      | some r =>
          cases hs : r.isStatic with
          | false => simp only [hs, Bool.false_eq_true, if_false]
          | true =>
              simp only [hs, if_true]
              exact Rows.filter_eraseIdx_pos (routeAt_eq_some hat) hs
  | clearStatic =>
      refine List.filter_eq_nil_iff.mpr fun r hr => ?_
      simpa using (List.mem_filter.mp hr).2
  | derive ifs =>
      simp only [RouteCall.apply, RouteCall.onStatics, routeDeriveConnected]
      rw [List.filter_append, List.filter_filter, filter_connected ifs _ (fun r h => h),
        List.append_nil]
      simp only [Bool.and_self]

/-- **The table stays within its array.** -/
theorem length_apply {routes : List Route} (h : routes.length ≤ maxRoute) (c : RouteCall) :
    (c.apply routes).length ≤ maxRoute := by
  cases c with
  | add dest mask gw ifindex =>
      rcases addRoute_cases routes (dest, mask, gw, ifindex) with ⟨e, -⟩ | ⟨-, hl, e⟩
      · exact (congrArg _ e).trans_le h
      · refine (congrArg _ e).trans_le ?_
        rw [List.length_append, List.length_singleton]
        exact hl
  | del index =>
      simp only [RouteCall.apply, routeDel]
      cases routeAt index routes with
      | none => exact h
      | some r =>
          dsimp only
          split
          · exact (List.length_eraseIdx_le routes _).trans h
          · exact h
  | clearStatic => exact (List.length_filter_le _ _).trans h
  | derive ifs =>
      have hkeep := (List.length_filter_le (fun r : Route => r.isStatic) routes).trans h
      simp only [RouteCall.apply, routeDeriveConnected, List.length_append, List.length_take]
      omega

theorem RouteTable.call_le (t : RouteTable) (h : t.n ≤ maxRoute) (c : RouteCall) :
    (t.call c).n ≤ maxRoute := by
  rw [← RouteTable.length_routes, RouteTable.call_routes]
  exact length_apply (by rwa [RouteTable.length_routes]) c

/-! ### The history -/

/-- An interface that has a connected route: an address, a prefix and an index. -/
def Iface.attached (it : Iface) : Bool := it.ip != 0 && it.netmask != 0 && decide (0 ≤ it.ifindex)

/-- The network of an interface, as a route. -/
def Iface.network (it : Iface) : Route where
  dest := it.ip &&& it.netmask
  mask := it.netmask
  gw := 0
  ifindex := it.ifindex
  isStatic := false

theorem filterMap_connected (ifs : Ifaces) :
    ifs.filterMap Iface.connected = (ifs.filter Iface.attached).map Iface.network := by
  have hconnected : ∀ it : Iface, it.connected = if it.attached then some it.network else none := by
    intro it
    have hiff : it.attached = true ↔ ¬ (it.ip = 0 ∨ it.ifindex < 0 ∨ it.netmask = 0) := by
      simp only [Iface.attached, Bool.and_eq_true, bne_iff_ne, decide_eq_true_eq, not_or,
        Int32.not_lt]
      tauto
    by_cases h : it.attached = true
    · rw [if_pos h]
      exact if_neg (hiff.mp h)
    · rw [if_neg h]
      exact if_pos (not_not.mp fun hn => h (hiff.mpr hn))
  induction ifs with
  | nil => rfl
  | cons it ifs ih =>
      rw [List.filterMap_cons, hconnected, List.filter_cons, ih]
      cases it.attached <;> rfl

/-- What `route_del` does to a table. -/
structure DelLaw (t : RouteTable) (index : CInt) : Prop where
  outside : routeAt index t.routes = none → t.del index = (-1, t)
  refused : ∀ r, routeAt index t.routes = some r → r.isStatic = false → t.del index = (-2, t)
  erased : ∀ r, routeAt index t.routes = some r → r.isStatic = true →
    (t.del index).1 = 0 ∧ (t.del index).2.routes = t.routes.eraseIdx index.toInt.toNat
  connected : (t.del index).2.connected = t.connected

theorem delLaw (t : RouteTable) (index : CInt) : DelLaw t index := by
  have hrc : (t.del index).1 = (routeDel index t.routes).1 := congrArg Prod.fst (t.del_routes index)
  have hroutes : (t.del index).2.routes = (routeDel index t.routes).2 :=
    congrArg Prod.snd (t.del_routes index)
  have hsame : (t.del index).1 ≠ 0 → (t.del index).2 = t := by
    unfold RouteTable.del
    split
    · exact fun _ => rfl
    · split
      · exact fun _ => rfl
      · split
        · exact fun _ => rfl
        · exact fun h => absurd rfl h
  have hpair : ∀ rc : CInt, rc ≠ 0 → (t.del index).1 = rc → t.del index = (rc, t) :=
    fun rc hne h => Prod.ext h (hsame (h ▸ hne))
  refine ⟨fun h => hpair (-1) (by decide) (hrc.trans ?_), fun r h hs =>
    hpair (-2) (by decide) (hrc.trans ?_), fun r h hs => ⟨hrc.trans ?_, hroutes.trans ?_⟩, ?_⟩
  · simp only [routeDel, h]
  · simp only [routeDel, h, hs, Bool.false_eq_true, if_false]
  · simp only [routeDel, h, hs, if_true]
  · simp only [routeDel, h, hs, if_true]
  · rw [RouteTable.connected, hroutes]
    simp only [routeDel]
    cases hat : routeAt index t.routes with
    | none => rfl
    | some r =>
        cases hs : r.isStatic with
        | false =>
            simp only [hs, Bool.false_eq_true, if_false]
            rfl
        | true =>
            simp only [hs, if_true]
            exact Rows.filter_eraseIdx_neg (routeAt_eq_some hat) (by rw [hs]; rfl)

/-- A call on the table, with what it does to the plain list. -/
def historyStep (x : RouteTable × List Route) (c : RouteCall) : RouteTable × List Route :=
  (x.1.call c, c.onStatics x.1.routes x.2)

theorem historyStep_keeps {x : RouteTable × List Route} (c : RouteCall)
    (h : x.1.n ≤ maxRoute ∧ x.1.statics = x.2) :
    (historyStep x c).1.n ≤ maxRoute ∧ (historyStep x c).1.statics = (historyStep x c).2 := by
  obtain ⟨hn, hs⟩ := h
  refine ⟨x.1.call_le hn c, ?_⟩
  rw [historyStep, RouteTable.statics, RouteTable.call_routes, statics_apply, ← hs]
  rfl

/-- **The history of the table.**  After any sequence of calls from `route_init` on, the table is
within its array, its static routes are those of a plain list, `route_del` takes a static route out
and refuses a connected one, and `route_derive_connected` leaves the static routes and behind them
the networks of the interfaces, as far as there is room. -/
theorem route_history (t : RouteTable) (cs : List RouteCall) :
    let x := cs.foldl historyStep (t.init, [])
    x.1.n ≤ maxRoute ∧ x.1.statics = x.2 ∧ (∀ index, DelLaw x.1 index) ∧
      ∀ ifs, (x.1.deriveConnected ifs).routes =
        x.2 ++ ((ifs.filter Iface.attached).map Iface.network).take (maxRoute - x.2.length) := by
  intro x
  have hkeeps : x.1.n ≤ maxRoute ∧ x.1.statics = x.2 :=
    @List.foldlRecOn _ _ (fun x => x.1.n ≤ maxRoute ∧ x.1.statics = x.2) cs historyStep (t.init, [])
      ⟨Nat.zero_le _, rfl⟩ fun _ h c _ => historyStep_keeps c h
  refine ⟨hkeeps.1, hkeeps.2, delLaw x.1, fun ifs => ?_⟩
  rw [RouteTable.deriveConnected_routes, routeDeriveConnected, filterMap_connected, ← hkeeps.2]
  rfl

end LinuxRouter
