import LinuxRouter.Commands.Agreement
import LinuxRouter.Commands.Output
import LinuxRouter.Firewall.Table
import LinuxRouter.Remote.Parts
import LinuxRouter.Control.Startup
import LinuxRouter.Model.Control

/-!
# Control — the tables that the commands share

What holds of the tables whatever commands run on them, and what a command needs for it.

* `Manage.Tended`: the interfaces keep their names, MACs and indexes; every rule is one that a rule's
  parser makes; every route goes out of an interface of the table.
* `Needs` is what a command needs, and `Vouched` what a thread may rely on in its answers.
* `Tended.exec`: a command that has what it needs keeps the tables.
* `tended_boot`: they are in order when `main` has set them up.

Three facts about three tables are kept together, because the commands need them of each other: a
route may only name an interface that is there, and interfaces neither come nor go, so that a route
once sound stays so.  A command that adds something has been given it by a parser, and a parser's
result is sound; what a program has to show is only that nothing else is ever added.  The programs
of the connections add nothing themselves, and the reload is the one that needs the parsers' lemmas.
-/

namespace LinuxRouter

open Text (lit)
open Program (Prog Along along_step)

/-- What of an interface no command changes. -/
def Iface.ident (it : Iface) : Text.CStr 16 × Mac × CInt := (it.name, it.mac, it.ifindex)

/-- A rule, whatever words it comes from. -/
structure FwRule.Sound (r : FwRule) : Prop extends r.Coded where
  action : r.action = fwDrop ∨ r.action = fwAllow
  sport : IsPort r.sport
  dport : IsPort r.dport

/-- The index of an interface that the kernel knows. -/
def IsIndex (ids : List (Text.CStr 16 × Mac × CInt)) (i : CInt) : Prop :=
  0 ≤ i ∧ i ∈ ids.map (·.2.2)

/-- The tables, with the interfaces `ids`. -/
structure Manage.Tended (ids : List (Text.CStr 16 × Mac × CInt)) (s : Manage) : Prop where
  ident : s.ifaces.map Iface.ident = ids
  rules : ∀ r ∈ s.rules, r.Sound
  rules_le : s.rules.length ≤ maxRule
  routes : ∀ r ∈ s.routes, IsIndex ids r.ifindex
  routes_le : s.routes.length ≤ maxRoute

/-! ### Rules -/

theorem FwRule.Sound.blank {a : CInt} (h : a = fwDrop ∨ a = fwAllow) : (FwRule.blank a).Sound :=
  ⟨⟨⟨isMask_zero, fun h => absurd rfl h⟩, ⟨isMask_zero, fun h => absurd rfl h⟩, .inl rfl⟩, h, .inl rfl,
    .inl rfl⟩

theorem FwRule.Sound.setSource {r r' : FwRule} {tok : List Byte} (hr : r.Sound)
    (h : r.setSource tok = some r') : r'.Sound := by
  have hc := coded_setSource hr.toCoded h
  unfold FwRule.setSource at h
  split at h
  · cases h
    exact { hr with toCoded := hc }
  · obtain ⟨x, -, rfl⟩ := Option.map_eq_some_iff.mp h
    exact { hr with toCoded := hc }

theorem FwRule.Sound.setDest {r r' : FwRule} {tok : List Byte} (hr : r.Sound)
    (h : r.setDest tok = some r') : r'.Sound := by
  have hc := coded_setDest hr.toCoded h
  unfold FwRule.setDest at h
  split at h
  · cases h
    exact { hr with toCoded := hc }
  · obtain ⟨x, -, rfl⟩ := Option.map_eq_some_iff.mp h
    exact { hr with toCoded := hc }

/-- **A parsed rule is sound**, whatever its words are. -/
theorem sound_fwParseRule {argv : List (List Byte)} {r : FwRule} (h : fwParseRule argv = some r) :
    r.Sound := by
  obtain ⟨a, args, ha, -, h⟩ := fwParseRule_args h
  exact fwParseArgs_keeps (fun _ _ _ => FwRule.Sound.setSource) (fun _ _ _ => FwRule.Sound.setDest)
    (fun _ _ _ hr hp => { hr with proto := parseProto_proper hp })
    (fun _ _ _ hr hp => { hr with sport := parsePort_isPort hp })
    (fun _ _ _ hr hp => { hr with dport := parsePort_isPort hp }) (fun _ _ _ hr => { hr with })
    (FwRule.Sound.blank ha) h

theorem sound_parseFilterLine {p : List Byte} {r : FwRule} (h : parseFilterLine p = some r) :
    r.Sound := by
  obtain ⟨a, -, h⟩ := Option.bind_eq_some_iff.mp h
  obtain ⟨x, hx, rfl⟩ := Option.map_eq_some_iff.mp h
  have hb : (FwRule.blank fwDrop).Sound := .blank (.inl rfl)
  exact { hb with source := ⟨isMask_of_parseCidr hx, fun _ => by simp [BitVec.and_assoc]⟩ }

/-! ### Routes -/

variable {ids : List (Text.CStr 16 × Mac × CInt)} {ifs : Ifaces} {i : CInt}

theorem isIndex_of_mem (hifs : ifs.map Iface.ident = ids) {it : Iface} (hit : it ∈ ifs)
    (h : 0 ≤ it.ifindex) : IsIndex ids it.ifindex := by
  subst hifs
  refine ⟨h, ?_⟩
  rw [List.map_map]
  exact List.mem_map_of_mem hit

/-- The options of a route name an interface of the table. -/
theorem routeOptions_index {args : List (List Byte)} {o o' : Ip × CInt}
    (h : routeOptions ifs args o = some o') : o'.2 = o.2 ∨ ∃ it ∈ ifs, it.ifindex = o'.2 := by
  induction args generalizing o with
  | nil =>
      cases h
      exact .inl rfl
  | cons tok args ih =>
      cases args with
      | nil =>
          cases h
          exact .inl rfl
      | cons arg args =>
          rw [routeOptions] at h
          split at h
          · obtain ⟨gw, -, h⟩ := Option.bind_eq_some_iff.mp h
            have h' := ih h
            exact h'
          · split at h
            · obtain ⟨it, hit, h⟩ := Option.bind_eq_some_iff.mp h
              rcases ih h with h' | h'
              · exact .inr ⟨it, List.mem_of_find?_eq_some hit, h'.symm⟩
              · exact .inr h'
            · exact ih h

theorem isIndex_of_options (hifs : ifs.map Iface.ident = ids) {args : List (List Byte)}
    {o : Ip × CInt} (h : routeOptions ifs args (0, -1) = some o) (hi : ¬ o.2 < 0) :
    IsIndex ids o.2 := by
  have hnn : 0 ≤ o.2 := Int32.not_lt.mp hi
  rcases routeOptions_index h with h' | ⟨it, hit, h'⟩
  · rw [h'] at hnn
    exact absurd hnn (by decide)
  · rw [← h'] at hnn ⊢
    exact isIndex_of_mem hifs hit hnn

theorem isIndex_of_parseRoute (hifs : ifs.map Iface.ident = ids) {words : List (List Byte)}
    {x : RouteArgs} (h : parseRoute ifs words = some x) : IsIndex ids x.2.2.2 := by
  cases words with
  | nil => cases h
  | cons tok args =>
      rw [parseRoute] at h
      obtain ⟨y, -, h⟩ := Option.bind_eq_some_iff.mp h
      obtain ⟨o, ho, h⟩ := Option.bind_eq_some_iff.mp h
      dsimp only at h
      split at h
      · cases h
      · rename_i hi
        cases h
        exact isIndex_of_options hifs ho hi

theorem isIndex_of_connected (hifs : ifs.map Iface.ident = ids) {r : Route}
    (h : r ∈ ifs.filterMap Iface.connected) : IsIndex ids r.ifindex := by
  obtain ⟨it, hit, h⟩ := List.mem_filterMap.mp h
  unfold Iface.connected at h
  split at h
  · cases h
  · rename_i hno
    cases h
    exact isIndex_of_mem hifs hit (Int32.not_lt.mp (not_or.mp (not_or.mp hno).2).1)

theorem isIndex_of_addRoute {routes : List Route} {x : RouteArgs} (hx : IsIndex ids x.2.2.2)
    (h : ∀ r ∈ routes, IsIndex ids r.ifindex) : ∀ r ∈ addRoute routes x, IsIndex ids r.ifindex := by
  rcases addRoute_cases routes x with ⟨e, -⟩ | ⟨-, -, e⟩ <;> rw [e]
  · exact h
  · intro r hr
    rcases List.mem_append.mp hr with hr | hr
    · exact h r hr
    · obtain rfl := List.mem_singleton.mp hr
      exact hx

/-! ### What a command needs -/

/-- What a command needs; `d` is what a derivation does. -/
def Needs (ids : List (Text.CStr 16 × Mac × CInt)) (d : Prop) :
    ∀ ⦃β : Type⦄, MCmd β → List Note → Prop
  | _, .fwAdd r, _ => r.Sound
  | _, .routeAdd _ _ _ i, _ => IsIndex ids i
  | _, .routeDeriveConnected, _ => d
  | _, _, _ => True

/-- What a thread relies on in an answer. -/
def Vouched (ids : List (Text.CStr 16 × Mac × CInt)) : ∀ ⦃β : Type⦄, MCmd β → β → Prop
  | _, .ifaces, ifs => ifs.map Iface.ident = ids
  | _, _, _ => True

/-- A command that needs nothing. -/
def MCmd.modest {β : Type} : MCmd β → Bool
  | .fwAdd _ => false
  | .routeAdd _ _ _ _ => false
  | .routeDeriveConnected => false
  | _ => true

variable {d : Prop}

theorem needs_of_modest {β : Type} {c : MCmd β} (hc : c.modest = true) (h : List Note) :
    Needs ids d c h := by
  cases c <;> trivial

/-- The history has no part in it. -/
theorem needs_any {β : Type} {c : MCmd β} {l : List Note} (hc : Needs ids d c l) (l' : List Note) :
    Needs ids d c l' := by
  cases c <;> exact hc

/-- Every command of the program has what it needs. -/
abbrev Provides (ids : List (Text.CStr 16 × Mac × CInt)) (d : Prop) {α : Type} (p : MAct α) : Prop :=
  ∀ h, Along MCmd.note (Needs ids d) (Vouched ids) (fun _ _ => True) p h

variable {s s' : Manage}

theorem Manage.Tended.vouched (h : s.Tended ids) {β : Type} (c : MCmd β) (e : World) :
    Vouched ids c (execM c e s).1 := by
  cases c with
  | ifaces => exact h.ident
  | _ => trivial

theorem Manage.Tended.same (h : s.Tended ids) (hi : s'.ifaces = s.ifaces) (hr : s'.rules = s.rules)
    (ht : s'.routes = s.routes) : s'.Tended ids :=
  ⟨hi ▸ h.ident, hr ▸ h.rules, hr ▸ h.rules_le, ht ▸ h.routes, ht ▸ h.routes_le⟩

/-- Other rules. -/
theorem Manage.Tended.of_rules (h : s.Tended ids) {rules : List FwRule} (hr : ∀ r ∈ rules, r.Sound)
    (hle : rules.length ≤ maxRule) : ({ s with rules := rules } : Manage).Tended ids :=
  { h with rules := hr, rules_le := hle }

/-- Other routes. -/
theorem Manage.Tended.of_routes (h : s.Tended ids) {routes : List Route}
    (hr : ∀ r ∈ routes, IsIndex ids r.ifindex) (hle : routes.length ≤ maxRoute) :
    ({ s with routes := routes } : Manage).Tended ids :=
  { h with routes := hr, routes_le := hle }

/-- **A command that has what it needs keeps the tables.** -/
theorem Manage.Tended.exec (h : s.Tended ids) {β : Type} {c : MCmd β} (e : World) {l : List Note}
    (hc : Needs ids d c l) : (execM c e s).2.Tended ids := by
  cases c with
  | fwAdd r =>
      refine h.of_rules ?_ ?_ <;> unfold fwAdd <;> split
      · exact h.rules
      · intro q hq
        rcases List.mem_append.mp hq with hq | hq
        · exact h.rules q hq
        · obtain rfl := List.mem_singleton.mp hq
          exact hc
      · exact h.rules_le
      · rename_i hroom
        rw [List.length_append, List.length_singleton]
        exact Nat.lt_of_not_le hroom
  | fwClear => exact h.of_rules (fun r hr => by cases hr) (Nat.zero_le _)
  | routeAdd dest mask gw i =>
      exact h.of_routes (isIndex_of_addRoute (x := (dest, mask, gw, i)) hc h.routes)
        (length_apply h.routes_le (.add dest mask gw i))
  | routeClearStatic =>
      exact h.of_routes (fun r hr => h.routes r (List.mem_of_mem_filter hr))
        (length_apply h.routes_le .clearStatic)
  | routeDeriveConnected =>
      refine h.of_routes (fun r hr => ?_) (length_apply h.routes_le (.derive s.ifaces))
      rcases List.mem_append.mp hr with hr | hr
      · exact h.routes r (List.mem_of_mem_filter hr)
      · exact isIndex_of_connected h.ident (List.mem_of_mem_take hr)
  | fopen =>
      simp only [execM]
      split <;> exact h.same rfl rfl rfl
  | rename =>
      simp only [execM]
      split <;> exact h.same rfl rfl rfl
  | _ => exact h.same rfl rfl rfl

/-- A program that provides for its commands, alone. -/
theorem Manage.Tended.replay (h : s.Tended ids) {α : Type} {p : MAct α} {l : List Note}
    (hp : Along MCmd.note (Needs ids d) (Vouched ids) (fun _ _ => True) p l) (e : World) :
    (Program.replay execM e p s).2.Tended ids := by
  induction p generalizing s l with
  | ret a => exact h
  | cmd c k ih => exact ih _ (h.exec e hp.1) (hp.2 _ (h.vouched c e))

/-! ### The programs -/

theorem provides_ret {α : Type} (a : α) : Provides ids d (.ret a : MAct α) := fun _ => trivial

theorem provides_step {β α : Type} {c : MCmd β} {f : β → MAct α} (hc : ∀ h, Needs ids d c h)
    (hf : ∀ a, Vouched ids c a → Provides ids d (f a)) : Provides ids d (Prog.perform c >>= f) :=
  fun h => along_step (hc h) fun a ha => hf a ha _

/-- A modest command. -/
theorem provides_modest {β α : Type} {c : MCmd β} {f : β → MAct α} (hc : c.modest = true)
    (hf : ∀ a, Provides ids d (f a)) : Provides ids d (Prog.perform c >>= f) :=
  provides_step (needs_of_modest hc) fun a _ => hf a

theorem Provides.bind {α β : Type} {p : MAct α} {f : α → MAct β} (hp : Provides ids d p)
    (hf : ∀ a, Provides ids d (f a)) : Provides ids d (p >>= f) :=
  fun h => Along.bind ((hp h).mono fun a h' _ => hf a h')

theorem Provides.map {α β : Type} {p : MAct α} {f : α → β} (hp : Provides ids d p) :
    Provides ids d (f <$> p) :=
  fun h => Along.map ((hp h).mono fun _ _ _ => trivial)

/-- **`config_load`** gives the tables rules and routes that it has parsed. -/
theorem provides_loadLine (sec p : List Byte) : Provides ids d (loadLine sec p) := by
  unfold loadLine
  split
  · exact provides_modest rfl provides_ret
  · split
    · rename_i hsec
      cases hp : parseFilterLine p with
      | none => exact provides_ret ()
      | some r =>
          exact provides_step (fun _ => sound_parseFilterLine hp) fun _ _ => provides_ret ()
    · split
      · cases hp : parseFirewallLine p with
        | none => exact provides_ret ()
        | some r => exact provides_step (fun _ => sound_fwParseRule hp) fun _ _ => provides_ret ()
      · split
        · refine provides_step (fun _ => trivial) fun ifs hifs => ?_
          cases hp : parseRouteLine ifs p with
          | none => exact provides_ret ()
          | some x =>
              exact provides_step (fun _ => isIndex_of_parseRoute hifs hp) fun _ _ => provides_ret ()
        · exact provides_ret ()

theorem provides_configLoadSteps : Provides ids d configLoadSteps := by
  have hlines : ∀ ls, Provides ids d (loadLines ls) := by
    intro ls
    induction ls with
    | nil => exact provides_ret ()
    | cons l ls ih => exact (provides_loadLine l.1 l.2).bind fun _ => ih
  refine provides_modest rfl fun text => ?_
  cases text with
  | none =>
      exact provides_modest rfl fun _ => provides_modest rfl fun _ => provides_modest rfl fun _ =>
        provides_modest rfl provides_ret
  | some file =>
      exact provides_modest rfl fun _ => provides_modest rfl fun _ => provides_modest rfl fun _ =>
        hlines _

/-! A connection adds to no table but by a reload. -/

theorem provides_handlePutconf (c : Conn) (arg : List Byte) :
    Provides ids True (handlePutconf c arg) := by
  unfold handlePutconf
  dsimp only
  split
  · exact provides_modest rfl fun _ => provides_ret c
  · refine provides_modest rfl fun f => ?_
    cases f with
    | none => exact provides_modest rfl fun _ => provides_ret _
    | some f => exact provides_modest rfl fun _ => provides_modest rfl fun _ => provides_ret _

theorem provides_handleUpgrade (c : Conn) (arg sha : List Byte) :
    Provides ids True (handleUpgrade c arg sha) := by
  unfold handleUpgrade
  refine provides_modest rfl fun err => ?_
  cases err with
  | some err => exact provides_modest rfl fun _ => provides_ret c
  | none => exact provides_modest rfl fun _ => provides_modest rfl fun _ => provides_ret _

theorem provides_processLinesFrom (n : ℕ) (c : Conn) : Provides ids True (processLinesFrom n c) := by
  have hplain : PlainOk (Needs ids True) fun _ => True := fun β c h hc _ =>
    ⟨needs_of_modest (by cases c <;> first | rfl | cases hc) h, fun _ => trivial⟩
  induction n generalizing c with
  | zero => exact provides_ret c
  | succ n ih =>
      unfold processLinesFrom
      split
      · refine provides_modest rfl fun _ => Provides.bind (fun h => ?_) fun d => ?_
        · exact handleLine_along hplain trivial (fun _ _ _ _ => trivial) (Text.nul_notMem_cstr _)
            (fun arg _ _ => provides_handlePutconf c arg h)
            (fun arg sha _ _ => provides_handleUpgrade c arg sha h)
        · dsimp only
          split
          · exact provides_ret _
          · exact ih _
      · exact provides_ret c

theorem provides_connClose (c : Conn) : Provides ids True (connClose c) := by
  unfold connClose
  split
  · exact provides_modest rfl fun _ => provides_modest rfl provides_ret
  · exact provides_modest rfl provides_ret
  · exact provides_ret ()

theorem provides_close (c : Conn) :
    Provides ids True (connClose c >>= fun _ => (.ret none : MAct (Option Conn))) :=
  (provides_connClose c).bind fun _ => provides_ret none

theorem provides_binWrite (c : Conn) (p : List Byte) : Provides ids True (binWrite c p) := by
  unfold binWrite
  refine provides_modest rfl fun _ => ?_
  split
  · exact provides_modest rfl fun _ => provides_ret _
  · exact provides_ret _
  · refine provides_modest rfl fun err => ?_
    cases err with
    | none => exact provides_ret _
    | some err => exact provides_modest rfl fun _ => provides_ret _
  · exact provides_ret _

theorem provides_binFinish (c : Conn) : Provides ids True (binFinish c) := by
  have hput : Provides ids True (finishPutconf { c with pcfp := none }) := by
    refine provides_modest rfl fun ok => ?_
    cases ok with
    | false => exact provides_modest rfl fun _ => provides_modest rfl fun _ => provides_ret _
    | true =>
        exact provides_configLoadSteps.bind fun _ => provides_step (fun _ => trivial) fun _ _ =>
          provides_modest rfl fun _ => provides_ret _
  cases hm : c.mode with
  | putconf =>
      rw [binFinish_putconf hm]
      refine provides_modest rfl fun _ => Provides.bind ?_ fun _ => hput
      cases c.pcfp with
      | none => exact provides_ret ()
      | some f => exact provides_modest rfl fun _ => provides_ret ()
  | upgrade =>
      unfold binFinish
      rw [hm]
      refine provides_modest rfl fun _ => provides_modest rfl fun err => ?_
      cases err with
      | some err => exact provides_modest rfl fun _ => provides_ret _
      | none =>
          exact provides_modest rfl fun _ => provides_modest rfl fun _ => provides_ret _
  | line =>
      unfold binFinish
      rw [hm]
      exact provides_modest rfl fun _ => provides_ret _

theorem provides_pumpBinary (c : Conn) : Provides ids True (pumpBinary c) := by
  rw [pumpBinary_eq]
  refine Provides.bind ?_ fun r => ?_
  · split
    · exact provides_ret _
    · exact provides_binWrite c _
  · obtain ⟨ok, d⟩ := r
    cases ok with
    | false => exact provides_close d
    | true =>
        simp only [pumpAfter, Bool.not_true, Bool.false_eq_true, if_false]
        split
        · exact provides_ret _
        · refine (provides_binFinish _).bind fun r => ?_
          cases r with
          | failed e => exact provides_close e
          | replaced => exact provides_ret none
          | done e => exact (provides_processLinesFrom _ e).map

/-- **A round of a thread** has what its commands need. -/
theorem provides_taskBody (l : Task) : Provides ids True (taskBody l) := by
  cases l with
  | accept =>
      exact Provides.map (provides_modest rfl fun _ => provides_modest rfl fun _ => provides_ret _)
  | reload => exact Provides.map (provides_configLoadSteps.bind fun _ =>
      provides_step (fun _ => trivial) fun _ _ => provides_ret ())
  | pump c =>
      refine Provides.map ?_
      unfold connRound
      split
      · exact provides_close c
      · refine provides_modest rfl fun stop => ?_
        split
        · exact provides_close c
        · refine provides_modest rfl fun bytes => ?_
          split
          · exact provides_close c
          · dsimp only
            split
            · exact provides_pumpBinary _
            · unfold pumpLines
              split
              · exact provides_modest rfl fun _ => provides_close _
              · exact (provides_processLinesFrom _ _).map

/-! ### Startup -/

/-- **The tables are in order when `main` has set them up.** -/
theorem tended_boot (k : Links) (o : Outside) (d : Disk) (up : Upgrade) :
    ((Console.boot k o).manage d up).Tended ((Console.boot k o).ifaces.map Iface.ident) := by
  set t := ifaceInit k Console.start.up with ht
  set c : Console := { Console.start with ifaces := t.1, up := t.2 } with hc
  have hboot : (Console.boot k o).ifaces = t.1 := c.ifaces_load o
  rw [hboot]
  have hstart : ∀ d', (c.manage d' up).Tended (t.1.map Iface.ident) := fun d' =>
    ⟨rfl, fun r hr => (List.not_mem_nil hr).elim, Nat.zero_le _,
      fun r hr => (List.not_mem_nil hr).elim, Nat.zero_le _⟩
  obtain ⟨d₀, hconf⟩ : ∃ d₀ : Disk, (execM .readConf World.fair (c.manage d₀ up)).1 = o.conf := by
    cases o.conf with
    | none => exact ⟨Files.Fs.empty, rfl⟩
    | some file =>
        exact ⟨Files.Fs.empty.link configFile file, Files.Fs.empty.read_link_self configFile file⟩
  obtain ⟨d₁, hload⟩ := Console.load_manage o c hconf
  have hloaded := (hstart d₀).replay (provides_configLoadSteps (d := True) []) World.fair
  rw [hload] at hloaded
  have hderived := hloaded.exec World.fair (c := .routeDeriveConnected) (d := True) (l := []) trivial
  refine hderived.same rfl rfl ?_
  exact RouteTable.deriveConnected_routes _ _

end LinuxRouter
