import LinuxRouter.Config.Cidr
import LinuxRouter.Config.Load

/-!
# Config — the static routes, saved and loaded

A static route as `config_serialize` writes it, and as `parse_route_line` reads it.

* `Stored`: the routes that `addroute` leaves in the table; `Entered`: what one of them satisfies.
* `routeOfLine_saved`: the line of such a route reads back as the route exactly if its prefix does,
  and this is so but for a `/32`.
* `reload_routes_iff`: what `config_load` makes of the saved table, for each value of
  `__builtin_clz(0)`.
* `routes_survive_iff`: the table survives for all of them exactly if it has no `/32`; `routes_lost`.

A line of `[route]` is a prefix and words, and both halves are read back by the parsers of
`Config/Cidr` and of the options; the interface is written by its name and found again by it, since
names and indexes are distinct.  The one part that may not come back is the length of a `/32`, which
`config_serialize` computes with `__builtin_clz(0)`.  A table comes back exactly if each of its
lines does, because no route is in it twice.
-/

namespace LinuxRouter

open Text (lit fmtInt nl cr IsWord spaced)
open Program (replay)

/-! ### Routes that were entered -/

/-- A static route that `addroute` stored: the interface it names is listed. -/
structure Entered (ifs : Ifaces) (r : Route) : Prop where
  isStatic : r.isStatic = true
  mask : IsMask r.mask
  listed : ∃ it ∈ ifs, IsWord it.name.1 ∧ it.ifindex = r.ifindex
  index : 0 ≤ r.ifindex

/-- The routes that a sequence of `addroute` commands leaves, each with the words of its line. -/
def Stored (ifs : Ifaces) (routes : List Route) : Prop :=
  ∃ cmds : List (List (List Byte)), (∀ args ∈ cmds, ∀ tok ∈ args, IsWord tok) ∧
    routes = cmds.foldl (fun routes args => (cmdAddroute ifs args routes).2) []

variable {ifs : Ifaces}

/-- The interface of the options is listed, under a word. -/
theorem routeOptions_listed {args : List (List Byte)} {o o' : Ip × CInt}
    (hw : ∀ tok ∈ args, IsWord tok) (h : routeOptions ifs args o = some o') :
    o'.2 = o.2 ∨ ∃ it ∈ ifs, IsWord it.name.1 ∧ it.ifindex = o'.2 := by
  fun_induction routeOptions ifs args o with
  | case1 arg args o ih =>
      obtain ⟨gw, -, h⟩ := Option.bind_eq_some_iff.mp h
      exact ih gw (fun tok hm => hw tok (List.mem_cons_of_mem _ hm)) h
  | case2 arg args o hvia ih =>
      obtain ⟨it, hit, h⟩ := Option.bind_eq_some_iff.mp h
      rcases ih it (fun tok hm => hw tok (List.mem_cons_of_mem _ hm)) h with h | h
      · have hname : it.name.1 = arg := by simpa using List.find?_some hit
        exact .inr ⟨it, List.mem_of_find?_eq_some hit, hname ▸ hw arg (by simp), h.symm⟩
      · exact .inr h
  | case3 tok arg args o hvia hdev ih =>
      exact ih (fun tok hm => hw tok (List.mem_cons_of_mem _ hm)) h
  | case4 t o =>
      cases h
      exact .inl rfl

/-- What the words of a route give. -/
theorem entered_parseRoute {args : List (List Byte)} {x : RouteArgs}
    (hw : ∀ tok ∈ args, IsWord tok) (h : parseRoute ifs args = some x) :
    Entered ifs { dest := x.1, mask := x.2.1, gw := x.2.2.1, ifindex := x.2.2.2, isStatic := true } := by
  cases args with
  | nil => cases h
  | cons tok args =>
      obtain ⟨⟨dest, mask⟩, hc, h⟩ := Option.bind_eq_some_iff.mp h
      obtain ⟨⟨gw, ifindex⟩, ho, h⟩ := Option.bind_eq_some_iff.mp h
      dsimp only at h
      split at h
      · cases h
      · rename_i hi
        cases h
        refine ⟨rfl, isMask_of_parseCidr hc, ?_, Int32.not_lt.mp hi⟩
        rcases routeOptions_listed (fun tok hm => hw tok (List.mem_cons_of_mem _ hm)) ho with h | h
        · dsimp only at h
          subst h
          exact absurd (by decide) hi
        · exact h

/-! ### The table -/

/-- The table of entered routes: each of them once. -/
structure EnteredTable (ifs : Ifaces) (routes : List Route) : Prop where
  entered : ∀ r ∈ routes, Entered ifs r
  nodup : (routes.map Route.args).Nodup
  room : routes.length ≤ maxRoute

theorem EnteredTable.addRoute {routes : List Route} {x : RouteArgs} (h : EnteredTable ifs routes)
    (hx : Entered ifs
      { dest := x.1, mask := x.2.1, gw := x.2.2.1, ifindex := x.2.2.2, isStatic := true }) :
    EnteredTable ifs (addRoute routes x) := by
  rcases addRoute_cases routes x with ⟨e, -⟩ | ⟨hm, hl, e⟩
  · rwa [e]
  · rw [e]
    refine ⟨fun r hr => ?_, ?_, ?_⟩
    · rcases List.mem_append.mp hr with hr | hr
      · exact h.entered r hr
      · rw [List.mem_singleton.mp hr]
        exact hx
    · rw [List.map_append, List.map_singleton]
      exact h.nodup.append (List.nodup_singleton _) (List.disjoint_singleton.mpr hm)
    · rw [List.length_append, List.length_singleton]
      omega

/-- **What `addroute` commands leave.** -/
theorem enteredTable_of_stored {routes : List Route} (h : Stored ifs routes) :
    EnteredTable ifs routes := by
  obtain ⟨cmds, hw, rfl⟩ := h
  have hstep : ∀ routes args, (∀ tok ∈ args, IsWord tok) → EnteredTable ifs routes →
      EnteredTable ifs (cmdAddroute ifs args routes).2 := by
    intro routes args hargs ht
    unfold cmdAddroute
    split
    · exact ht
    · cases hp : parseRoute ifs args with
      | none => exact ht
      | some x => exact ht.addRoute (entered_parseRoute hargs hp)
  have hrun : ∀ (cmds : List (List (List Byte))) routes,
      (∀ args ∈ cmds, ∀ tok ∈ args, IsWord tok) → EnteredTable ifs routes →
      EnteredTable ifs (cmds.foldl (fun routes args => (cmdAddroute ifs args routes).2) routes) := by
    intro cmds
    induction cmds with
    | nil => exact fun _ _ ht => ht
    | cons args cmds ih =>
        intro routes hw ht
        exact ih _ (fun a ha => hw a (List.mem_cons_of_mem _ ha)) (hstep _ _ (hw args (by simp)) ht)
  exact hrun cmds [] hw ⟨fun r hr => (nomatch hr), List.nodup_nil, Nat.zero_le _⟩

/-- A table is loaded back exactly if every line gives its route. -/
theorem foldl_addRoute_iff {routes : List Route} {f : Route → Option RouteArgs}
    (hnd : (routes.map Route.args).Nodup) (hl : routes.length ≤ maxRoute) :
    ((routes.filterMap f).foldl addRoute []).map Route.args = routes.map Route.args ↔
      ∀ r ∈ routes, f r = some r.args := by
  have hargs : ((routes.filterMap f).foldl addRoute []).map Route.args =
      Roster.taken maxRoute [] (routes.filterMap f) := by
    rw [foldl_addRoute_eq, List.nil_append, List.map_map]
    exact List.map_id _
  rw [hargs, ← List.filterMap_eq_map_iff_forall_eq_some]
  constructor
  · intro h
    have hs := Roster.taken_sublist maxRoute [] (routes.filterMap f)
    rw [h] at hs
    refine (hs.eq_of_length_le ?_).symm
    rw [List.length_map]
    exact List.length_filterMap_le f routes
  · intro h
    rw [h]
    exact Roster.taken_eq_self hnd (by simpa using hl)

/-! ### A line -/

/-- The words after the prefix. -/
def routeWords (r : Route) (name : List Byte) : List (List Byte) :=
  (if r.gw ≠ 0 then [lit "via", ipToStr r.gw] else []) ++ [lit "dev", name]

/-- The prefix of a route, as `config_serialize` writes it. -/
def prefixWord (clz0 : CInt) (r : Route) : List Byte :=
  ipToStr r.dest ++ lit "/" ++ fmtInt (prefixLen clz0 r.mask).toInt

variable {clz0 : CInt} {r : Route} {it : Iface}

theorem routeText_words (h : ifaceByIndex ifs r.ifindex = some it) :
    routeText clz0 ifs r = prefixWord clz0 r ++ spaced (routeWords r it.name.1) := by
  have h₁ : lit " via " = Text.blank :: (lit "via" ++ [Text.blank]) := by decide
  have h₂ : lit " dev " = Text.blank :: (lit "dev" ++ [Text.blank]) := by decide
  simp only [routeText, h, routeWords, prefixWord, h₁, h₂]
  split <;> simp [spaced]

theorem isWord_routeWords {name : List Byte} (h : IsWord name) : ∀ w ∈ routeWords r name, IsWord w := by
  intro w hw
  simp only [routeWords, List.mem_append, List.mem_ite_nil_right, List.mem_cons, List.not_mem_nil,
    or_false] at hw
  rcases hw with ⟨-, rfl | rfl⟩ | rfl | rfl
  · decide
  · exact isWord_ipToStr _
  · decide
  · exact h

theorem length_routeWords (r : Route) (name : List Byte) : (routeWords r name).length < 15 := by
  unfold routeWords
  split <;> simp

/-- **The words of a saved route**, as `parse_route_line` splits them. -/
theorem lineWords_route (h : ifaceByIndex ifs r.ifindex = some it) (hw : IsWord it.name.1) :
    lineWords (routeText clz0 ifs r) = prefixWord clz0 r :: routeWords r it.name.1 := by
  rw [routeText_words h]
  obtain ⟨c, t, ht, hc⟩ := ipToStr_cons r.dest
  have hslash : c ≠ 47#8 := by
    rintro rfl
    exact slash_notMem_ipToStr r.dest (ht ▸ List.mem_cons_self)
  obtain ⟨t', hp⟩ : ∃ t', prefixWord clz0 r ++ spaced (routeWords r it.name.1) = c :: t' := by
    rw [prefixWord, ht]
    exact ⟨_, rfl⟩
  have hword : IsWord (prefixWord clz0 r) := isWord_prefix _ _
  have hsplit := Text.splitWords_spaced (n := 15) hword (isWord_routeWords (r := r) hw)
    (length_routeWords _ _)
  have hhead : (c :: t').head? ≠ some 47#8 := fun e => hslash (Option.some.inj e)
  rw [hp] at hsplit ⊢
  rw [lineWords, List.dropWhile_cons_of_neg (by simp [hc.1]), if_neg hhead]
  exact hsplit

/-- An element is found by what it alone has. -/
theorem find?_nodup {α β : Type} [BEq β] [LawfulBEq β] {f : α → β} {xs : List α}
    (h : (xs.map f).Nodup) {x : α} (hx : x ∈ xs) : xs.find? (fun y => f y == f x) = some x := by
  induction xs with
  | nil => cases hx
  | cons y ys ih =>
      rw [List.map_cons, List.nodup_cons] at h
      rcases List.mem_cons.mp hx with rfl | hx
      · rw [List.find?_cons_of_pos (by simp)]
      · have hne : f y ≠ f x := fun e => h.1 (e ▸ List.mem_map_of_mem hx)
        rw [List.find?_cons_of_neg (by simpa using hne), ih h.2 hx]

theorem ipToStr_ne {s : List Byte} (h : 46#8 ∉ s) (ip : Ip) : ipToStr ip ≠ s := by
  rintro rfl
  exact h (by simp [ipToStr])

/-- What the options of a saved route give. -/
theorem routeOptions_words {ifindex : CInt} (h : ifaceByName ifs it.name.1 = some it)
    (hi : it.ifindex = r.ifindex) :
    routeOptions ifs (routeWords r it.name.1) (0, ifindex) = some (r.gw, r.ifindex) := by
  have hne : lit "dev" ≠ lit "via" := by decide
  have hdev : ∀ gw, routeOptions ifs [lit "dev", it.name.1] (gw, ifindex) = some (gw, r.ifindex) := by
    intro gw
    rw [routeOptions, if_neg hne, if_pos rfl, h, Option.bind_some, hi]
    rfl
  rw [routeWords]
  split
  · have h₁ : ipToStr r.gw ≠ lit "via" := ipToStr_ne (by decide) _
    have h₂ : ipToStr r.gw ≠ lit "dev" := ipToStr_ne (by decide) _
    rw [List.cons_append, List.cons_append, List.nil_append, routeOptions, if_pos rfl,
      strToIp_ipToStr, Option.bind_some, routeOptions, if_neg h₁, if_neg h₂, hdev]
  · rename_i hgw
    rw [List.nil_append, hdev, not_not.mp hgw]

/-- The interfaces have different names and different indexes. -/
structure Distinct (ifs : Ifaces) : Prop where
  name : (ifs.map (·.name.1)).Nodup
  ifindex : (ifs.map (·.ifindex)).Nodup

/-- The interface of an entered route is found again, both ways. -/
theorem Entered.lookup (h : Entered ifs r) (hd : Distinct ifs) :
    ∃ it, IsWord it.name.1 ∧ it.ifindex = r.ifindex ∧ ifaceByIndex ifs r.ifindex = some it ∧
      ifaceByName ifs it.name.1 = some it := by
  obtain ⟨it, hm, hw, hi⟩ := h.listed
  refine ⟨it, hw, hi, ?_, find?_nodup hd.name hm⟩
  rw [← hi]
  exact find?_nodup hd.ifindex hm

/-- **The line of a route reads back as far as its prefix does.** -/
theorem routeOfLine_saved (h : Entered ifs r) (hd : Distinct ifs) :
    routeOfLine ifs (lit "route", routeText clz0 ifs r) =
      (parseCidr (prefixWord clz0 r)).map fun x => (x.1, x.2, r.gw, r.ifindex) := by
  obtain ⟨it, hw, hi, hidx, hname⟩ := h.lookup hd
  rw [routeOfLine, if_pos rfl, parseRouteLine, lineWords_route hidx hw]
  simp only [parseRoute, routeOptions_words hname hi, Option.bind_eq_bind, Option.bind_some]
  cases parseCidr (prefixWord clz0 r) with
  | none => rfl
  | some x => exact if_neg (Int32.not_lt.mpr h.index)

/-- So it reads back, but for a `/32` where `__builtin_clz(0)` is not 32. -/
theorem routeOfLine_iff (h : Entered ifs r) (hd : Distinct ifs) :
    routeOfLine ifs (lit "route", routeText clz0 ifs r) = some r.args ↔
      r.mask = 0xFFFFFFFF#32 → clz0 = 32 := by
  have hiff : routeOfLine ifs (lit "route", routeText clz0 ifs r) = some r.args ↔
      parseCidr (prefixWord clz0 r) = some (r.dest, r.mask) := by
    rw [routeOfLine_saved h hd]
    cases parseCidr (prefixWord clz0 r) with
    | none => exact iff_of_false (fun e => nomatch e) (fun e => nomatch e)
    | some x => simp [Route.args, Prod.ext_iff]
  rw [hiff]
  by_cases hm : r.mask = 0xFFFFFFFF#32
  · simp only [prefixWord, hm, true_imp_iff]
    exact parseCidr_full
  · exact iff_of_true (parseCidr_text h.mask hm _ _) fun e => absurd e hm

/-! ### The whole file -/

/-- A configuration whose static routes were entered, and whose other texts are one line each: a
hostname and a keyword are parts of a line of a file or of the terminal. -/
structure SavedRoutes (c : ConfSource) : Prop where
  ifaces : Distinct c.ifaces
  routes : Stored c.ifaces c.routes
  hostname : nl ∉ c.cfg.hostname.1
  keyword : ∀ r ∈ c.rules, nl ∉ r.keyword.1

/-- `config_load` of the saved file gives the routes back, into a table without others. -/
def RoutesSurvive (c : ConfSource) : Prop :=
  ∀ (e : World) (s : Manage), e.opened = true → s.ifaces = c.ifaces →
    routeClearStatic s.routes = [] → s.disk.read configFile = some (confText c) →
      (replay execM e configLoadSteps s).2.routes.map Route.args = c.routes.map Route.args

/-- What a saved file says of routes. -/
theorem fileRoutes_saved {c : ConfSource} (h : SavedRoutes c) :
    fileRoutes c.ifaces (confText c) =
      c.routes.filterMap fun r =>
        routeOfLine c.ifaces (lit "route", routeText c.clz0 c.ifaces r) := by
  have ht := enteredTable_of_stored h.routes
  have hstatic : c.routes.filter (·.isStatic) = c.routes :=
    List.filter_eq_self.mpr fun r hr => (ht.entered r hr).isStatic
  have hwords : ∀ r ∈ c.routes, ∃ w ws, IsWord w ∧ (∀ w ∈ ws, IsWord w) ∧
      routeText c.clz0 c.ifaces r = w ++ spaced ws := by
    intro r hr
    obtain ⟨it, hw, -, hidx, -⟩ := (ht.entered r hr).lookup h.ifaces
    exact ⟨_, _, isWord_prefix _ _, isWord_routeWords hw, routeText_words hidx⟩
  have hline : ∀ l ∈ staticLines c, TextLine l := by
    intro l hl
    rw [staticLines, hstatic] at hl
    obtain ⟨r, hr, rfl⟩ := List.mem_map.mp hl
    refine textLine_routeText fun it hit hm => ?_
    obtain ⟨it', hw, -, hidx, -⟩ := (ht.entered r hr).lookup h.ifaces
    obtain rfl : it' = it := Option.some.inj (hidx.symm.trans hit)
    have := hw.2 nl hm
    revert this
    decide
  have hcr : ∀ r ∈ c.routes,
      dropEnd cr (routeText c.clz0 c.ifaces r) = routeText c.clz0 c.ifaces r := by
    intro r hr
    obtain ⟨w, ws, hw, hws, e⟩ := hwords r hr
    refine dropEnd_of_notMem ?_
    rw [e, List.mem_append, not_or]
    refine ⟨fun hm => ?_, Text.notMem_spaced (by decide) (by decide) hws⟩
    have := hw.2 cr hm
    revert this
    decide
  have hnone : ∀ (sec : List Byte) (ls : List (List Byte)), sec ≠ lit "route" →
      (ls.map fun l => (sec, dropEnd cr l)).filterMap (routeOfLine c.ifaces) = [] := by
    intro sec ls hsec
    rw [List.filterMap_map]
    exact List.filterMap_eq_nil_iff.mpr fun l _ => if_neg hsec
  have hrules : ∀ l ∈ ruleLines c, TextLine l := by
    intro l hl
    obtain ⟨r, hr, rfl⟩ := List.mem_map.mp hl
    exact textLine_fwRuleToLine _ _ (h.keyword r hr)
  rw [fileRoutes, confLines_saved h.hostname hrules hline, List.filterMap_append,
    List.filterMap_append, hnone _ _ (by decide), hnone _ _ (by decide), List.nil_append,
    List.nil_append, staticLines, hstatic, List.map_map, List.filterMap_map]
  refine List.filterMap_congr fun r hr => ?_
  simp only [Function.comp_apply, hcr r hr]

/-- **A saved table of routes** comes back exactly if it has no `/32`, or `__builtin_clz(0)` is 32. -/
theorem reload_routes_iff {c : ConfSource} (h : SavedRoutes c) :
    RoutesSurvive c ↔ ∀ r ∈ c.routes, r.mask = 0xFFFFFFFF#32 → c.clz0 = 32 := by
  have ht := enteredTable_of_stored h.routes
  have hfile : ∀ (e : World) (s : Manage), e.opened = true → s.ifaces = c.ifaces →
      routeClearStatic s.routes = [] → s.disk.read configFile = some (confText c) →
        ((replay execM e configLoadSteps s).2.routes.map Route.args = c.routes.map Route.args ↔
          ∀ r ∈ c.routes, r.mask = 0xFFFFFFFF#32 → c.clz0 = 32) := by
    intro e s he hi hclear hs
    rw [(configLoad_tables he hs).2, hi, hclear, fileRoutes_saved h,
      foldl_addRoute_iff ht.nodup ht.room]
    exact forall₂_congr fun r hr => routeOfLine_iff (ht.entered r hr) h.ifaces
  constructor
  · intro hsurv
    have hs := hsurv .fair { Manage.guarded [] (confText c) with ifaces := c.ifaces } rfl rfl rfl rfl
    exact (hfile .fair { Manage.guarded [] (confText c) with ifaces := c.ifaces } rfl rfl rfl
      rfl).mp hs
  · exact fun hm e s he hi hclear hs => (hfile e s he hi hclear hs).mpr hm

/-- **Static routes survive saving and loading**, whatever `__builtin_clz(0)` is, exactly if none of
them is a `/32`.  The prefix length is printed from `clz` of the complement of the mask, which is zero
for a host route, and for zero the value of `__builtin_clz` is undefined. -/
theorem routes_survive_iff {c : ConfSource} (h : SavedRoutes c) :
    (∀ clz0, RoutesSurvive { c with clz0 := clz0 }) ↔ ∀ r ∈ c.routes, r.mask ≠ 0xFFFFFFFF#32 := by
  have hsaved : ∀ clz0, SavedRoutes { c with clz0 := clz0 } := fun clz0 =>
    ⟨h.ifaces, h.routes, h.hostname, h.keyword⟩
  simp only [reload_routes_iff (hsaved _)]
  constructor
  · intro hall r hr hm
    have : (31 : CInt) = 32 := hall 31 r hr hm
    exact absurd this (by decide)
  · exact fun hno clz0 r hr hm => absurd hm (hno r hr)

/-! ### Two tables -/

/-- eth0, 10.0.0.1/24. -/
def eth0 : Iface where
  name := Text.CStr.store 16 (lit "eth0")
  mac := Vector.replicate 6 0
  ip := 0x0a000001
  netmask := maskFromPrefix 24
  ifindex := 2

/-- A router with that interface and the defaults, after some `addroute` commands. -/
def ConfSource.entered (clz0 : CInt) (cmds : List (List (List Byte)))
    (h : (cmds.foldl (fun routes args => (cmdAddroute [eth0] args routes).2) []).length ≤ maxRoute) :
    ConfSource where
  cfg := cfgDefault
  rules := []
  routes := cmds.foldl (fun routes args => (cmdAddroute [eth0] args routes).2) []
  ifaces := [eth0]
  clz0 := clz0
  stack := fun _ => 0
  rules_le := Nat.zero_le _
  routes_le := h

theorem savedRoutes_entered {clz0 : CInt} {cmds : List (List (List Byte))}
    (h : (cmds.foldl (fun routes args => (cmdAddroute [eth0] args routes).2) []).length ≤ maxRoute)
    (hw : ∀ args ∈ cmds, ∀ tok ∈ args, IsWord tok) : SavedRoutes (.entered clz0 cmds h) :=
  ⟨⟨List.nodup_singleton _, List.nodup_singleton _⟩, ⟨cmds, hw, rfl⟩,
    (by decide : nl ∉ cfgDefault.hostname.1), fun _ hr => nomatch hr⟩

/-- The router that is to load a saved file. -/
def Manage.loading (c : ConfSource) : Manage :=
  { Manage.guarded [] (confText c) with ifaces := c.ifaces }

/-- A network behind a gateway. -/
def viaGateway : ConfSource :=
  .entered 0 [[lit "10.1.0.0/16", lit "via", lit "10.0.0.9", lit "dev", lit "eth0"]] (by decide +kernel)

/-- A host. -/
def toHost : ConfSource :=
  .entered 31 [[lit "10.0.0.5", lit "dev", lit "eth0"]] (by decide +kernel)

theorem routes_survive_via :
    (replay execM .fair configLoadSteps (.loading viaGateway)).2.routes.map Route.args =
      viaGateway.routes.map Route.args :=
  (routes_survive_iff (savedRoutes_entered _ (by decide +kernel))).mpr (by decide +kernel) 0 .fair
    (.loading viaGateway) rfl rfl rfl rfl

/-- **A route to a host is lost** where `__builtin_clz(0)` is 31: it comes back as a `/31`. -/
theorem routes_lost :
    SavedRoutes toHost ∧ toHost.routes.map Route.args = [(0x0a000005, 0xFFFFFFFF, 0, 2)] ∧
      (replay execM .fair configLoadSteps (.loading toHost)).2.routes.map Route.args =
        [(0x0a000005, 0xFFFFFFFE, 0, 2)] ∧
      ¬ ∀ clz0, RoutesSurvive { toHost with clz0 := clz0 } := by
  have hsaved : toHost.routes.map Route.args = [(0x0a000005, 0xFFFFFFFF, 0, 2)] := by decide +kernel
  have hloaded : (replay execM .fair configLoadSteps (.loading toHost)).2.routes.map Route.args =
      [(0x0a000005, 0xFFFFFFFE, 0, 2)] := by decide +kernel
  refine ⟨savedRoutes_entered _ (by decide +kernel), hsaved, hloaded, fun h => ?_⟩
  have hback := h 31 .fair (.loading toHost) rfl rfl rfl rfl
  exact absurd (hloaded.symm.trans (hback.trans hsaved)) (by decide)

end LinuxRouter
