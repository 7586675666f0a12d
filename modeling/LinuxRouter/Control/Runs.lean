import LinuxRouter.Control.Derive
import LinuxRouter.Upgrade.Install

/-!
# Control — runs of the management side

What holds in every configuration that a router reaches from its start, whatever its terminal, its
connections and its reloads do, and however their steps are interleaved.

* `tables_kept`: the interfaces are those found at startup, each name once; the rules are sound, and
  every route goes out of an interface of the table.
* `routes_follow`: while nobody changes an interface or derives, the connected routes are exactly
  those of the interfaces, as far as there were slots.

Both are read off the disciplines of `Tables` and `Derive`, which every program of a terminal, a
connection or a reload has been judged by; the run lemma of the library carries them to every
interleaving.  The examples are two terminals, one at `setip` and one at `reload`, step by step in
turn.
-/

namespace LinuxRouter

open Text (lit)
open Program (Config Reach Discipline Watched Admits)

/-- Before the first round of every thread, with the tables that `main` sets up. -/
structure Booted (k : Links) (o : Outside) (x : Config CtlCmd Control Bool ℕ CtlTask) : Prop where
  manage : ∃ d up, x.shared.manage = (Console.boot k o).manage d up
  deriver : x.shared.deriver = none
  slots : x.shared.slots = maxRoute - x.shared.statics.length
  fresh : ∀ t, x.ghost t = false
  start : ∀ t, ∃ l, x.thread t = .idle l

variable {k : Links} {o : Outside} {x y : Config CtlCmd Control Bool ℕ CtlTask}

/-- The connected routes at startup. -/
theorem Booted.current (hx : Booted k o x) : x.shared.Current := by
  obtain ⟨d, up, hm⟩ := hx.manage
  obtain ⟨rs, hrs⟩ :
      ∃ rs, x.shared.manage.routes = routeDeriveConnected x.shared.manage.ifaces rs := by
    rw [hm]
    exact ⟨_, RouteTable.deriveConnected_routes _ _⟩
  have hkeep : x.shared.statics = rs.filter (·.isStatic) := by
    rw [Control.statics, hrs]
    exact (statics_apply rs (.derive x.shared.manage.ifaces)).trans rfl
  rw [Control.Current, hx.slots, hkeep, Control.connected, hrs, routeDeriveConnected,
    List.filter_append, List.filter_filter]
  have hnone : ∀ ys : List Route, ys.filter (fun r => !r.isStatic && r.isStatic) = [] := fun ys =>
    List.filter_eq_nil_iff.mpr fun r _ => by cases r.isStatic <;> decide
  have hall : ∀ n, ((x.shared.manage.ifaces.filterMap Iface.connected).take n).filter
      (fun r => !r.isStatic) = (x.shared.manage.ifaces.filterMap Iface.connected).take n := by
    intro n
    refine List.filter_eq_self.mpr fun r hr => ?_
    obtain ⟨it, -, hit⟩ := List.mem_filterMap.mp (List.mem_of_mem_take hr)
    unfold Iface.connected at hit
    split at hit <;> cases hit
    rfl
  rw [hnone, hall, List.nil_append]

theorem control_good (hx : Booted k o x) (h : Reach control Control.free x y) :
    (Control.tending ((Console.boot k o).ifaces.map Iface.ident)).Good
      (fun t _ g x => g = t ∧ Control.AtEase t x) (y.shadow ()) := by
  obtain ⟨d, up, hm⟩ := hx.manage
  obtain ⟨v, hv⟩ : ∃ v, Reach (control.watched Control.unseen) (Admits Control.free) (x.shadow ())
      (y.shadow v) := Program.watched_total h ()
  refine Discipline.sound (fun t l g s s' hs hr _ => Control.rest_rely hs hr) ?_ ⟨?_, fun t => ?_⟩ hv
  · rintro t l g s ⟨rfl, hs⟩
    exact (Control.keeps_body l s hs).mono fun _ _ _ h _ _ => h
  · refine ⟨fun _ => rfl, ?_, fun _ => .inr hx.current⟩
    change x.shared.manage.Tended _
    rw [hm]
    exact tended_boot k o d up
  · obtain ⟨l, hl⟩ := hx.start t
    simp only [Config.shadow, hl, Program.Thread.tag]
    refine ⟨rfl, hx.fresh t, ?_⟩
    change x.shared.deriver ≠ some t
    rw [hx.deriver]
    exact (Option.some_ne_none t).symm

/-- A system with eth0, 10.0.0.1/24. -/
def Links.single : Links where
  addrs := some
    [{ name := some (Text.CStr.store 16 (lit "eth0")), addr := some (.inet 0x0a000001#32)
       netmask := some 0xffffff00#32, up := true }]
  index := fun _ => some 2
  hwaddr := fun _ => none

/-- A router whose threads are all terminals. -/
def Control.terminals (k : Links) (o : Outside) (d : Disk) : Config CtlCmd Control Bool ℕ CtlTask where
  shared :=
    let m := (Console.boot k o).manage d Upgrade.fresh
    { manage := m, deriver := none, slots := maxRoute - (m.routes.filter (·.isStatic)).length }
  thread _ := .idle .terminal
  ghost _ := false

theorem booted_terminals {d : Disk} : Booted k o (Control.terminals k o d) :=
  ⟨⟨_, _, rfl⟩, rfl, rfl, fun _ => rfl, fun _ => ⟨_, rfl⟩⟩

instance Control.free.decidable {β : Type} (t : ℕ) (c : CtlCmd β) (e : Around) (s : Control) :
    Decidable (Control.free t c e s) := by
  cases c with
  | of c => cases c <;> unfold Control.free <;> infer_instance
  | own c => cases c <;> unfold Control.free <;> infer_instance

/-- A line typed at a terminal. -/
def Around.typed (line : List Byte) : Around :=
  { World.fair with line := some (line ++ [Text.nul]), tty := true, ok := true, junk := fun _ => [] }

/-- A `router.conf` with a key, a rule and a route. -/
def confDisk : Disk :=
  Files.Fs.empty.link configFile
    (lit "[router]\nhostname=r\n[firewall]\ndrop proto icmp\n[route]\n10.9.0.0/16 via 10.0.0.9 dev eth0\n")

/-- One terminal has set an address, and not the netmask yet, when another one reloads; the netmask is
written while the reload derives the routes, between its reads of the interface. -/
def setipReload : List (ℕ × Around) :=
  List.replicate 6 (0, .typed (lit "setip eth0 10.0.1.1/24")) ++
    List.replicate 16 (1, .typed (lit "reload")) ++ [(0, .typed (lit "setip eth0 10.0.1.1/24"))]

/-- The reload ends, and the first terminal derives in its turn. -/
def setipReloadDone : List (ℕ × Around) :=
  setipReload ++ List.replicate 7 (1, .typed (lit "reload")) ++
    List.replicate 12 (0, .typed (lit "setip eth0 10.0.1.1/24"))

/-- **The tables of a router**, in every run: the interfaces are those found at startup, each name
once, the rules are sound, and every route goes out of an interface of the table. -/
theorem tables_kept (hx : Booted k o x) (h : Reach control Control.free x y) :
    let s := y.shared.manage
    s.ifaces.map Iface.ident = (Console.boot k o).ifaces.map Iface.ident ∧
      (s.ifaces.map (·.name)).Nodup ∧ s.ifaces.length ≤ maxIface ∧
      (∀ r ∈ s.rules, r.Sound) ∧ s.rules.length ≤ maxRule ∧
      (∀ r ∈ s.routes, (ifaceByIndex s.ifaces r.ifindex).isSome) ∧ s.routes.length ≤ maxRoute := by
  intro s
  obtain ⟨-, ht, -⟩ := (control_good hx h).1
  have ht : s.Tended ((Console.boot k o).ifaces.map Iface.ident) := ht
  have hnames : s.ifaces.map (·.name) =
      (Roster.firsts (k.candidates.map (·.1.name))).take maxIface := by
    have hboot : (Console.boot k o).ifaces = (ifaceInit k Console.start.up).1 :=
      Console.ifaces_load o _
    have := congrArg (List.map (·.1)) ht.ident
    rw [List.map_map, List.map_map, hboot] at this
    exact this.trans (ifaceInit_table k Console.start.up).1
  refine ⟨ht.ident, ?_, ?_, ht.rules, ht.rules_le, fun r hr => ?_, ht.routes_le⟩
  · rw [hnames]
    exact (List.nodup_reverse.mpr (List.nodup_dedup _)).sublist (List.take_sublist _ _)
  · rw [← List.length_map (·.name), hnames]
    exact List.length_take_le _ _
  · obtain ⟨-, hi⟩ := ht.routes r hr
    rw [← ht.ident, List.map_map] at hi
    obtain ⟨it, hit, he⟩ := List.mem_map.mp hi
    rw [ifaceByIndex, List.find?_isSome]
    exact ⟨it, hit, beq_iff_eq.mpr he⟩

/-- In the middle of a reload that another terminal's `setip` overlaps. -/
theorem tables_kept_terminals :
    let s := (Program.play control setipReload (Control.terminals .single .plain confDisk)).shared
    s.deriver = some 1 ∧ s.manage.rules.length = 1 ∧ s.statics.length = 1 ∧
      ∀ r ∈ s.manage.routes, (ifaceByIndex s.manage.ifaces r.ifindex).isSome :=
  ⟨by decide +kernel, by decide +kernel, by decide +kernel,
    (tables_kept booted_terminals (Program.PlayOk.reach (by decide +kernel))).2.2.2.2.2.1⟩

/-- **The connected routes follow the interfaces.**  A thread between two rounds has no derivation to
make and is in none; while that is so of every thread, the connected routes are those of the
interfaces, in order, as far as there were slots. -/
theorem routes_follow (hx : Booted k o x) (h : Reach control Control.free x y) :
    (∀ t l, y.thread t = .idle l → y.ghost t = false ∧ y.shared.deriver ≠ some t) ∧
      ((∀ t, y.ghost t = false) → y.shared.deriver = none → y.shared.connected =
        (y.shared.manage.ifaces.filterMap Iface.connected).take y.shared.slots) := by
  obtain ⟨⟨-, -, hi⟩, ht⟩ := control_good hx h
  refine ⟨fun t l hl => ?_, fun hq hn => ?_⟩
  · have := ht t
    simp only [Config.shadow, hl, Program.Thread.tag] at this
    exact this.2
  · rcases hi hn with ⟨t, hg⟩ | hcur
    · exact absurd (hg.symm.trans (hq t)) (by decide)
    · exact hcur

/-- After the reload and the `setip`. -/
theorem routes_follow_terminals :
    let s := (Program.play control setipReloadDone (Control.terminals .single .plain confDisk)).shared
    s.connected.map (·.dest) = [0x0a000100#32] ∧
      s.connected = (s.manage.ifaces.filterMap Iface.connected).take s.slots := by
  have hreach : Reach control Control.free _
      (Program.play control setipReloadDone (Control.terminals .single .plain confDisk)) :=
    Program.PlayOk.reach (by decide +kernel)
  have h := routes_follow booted_terminals hreach
  refine ⟨by decide +kernel, h.2 (fun t => ?_) (by decide +kernel)⟩
  by_cases h₀ : t = 0
  · subst h₀
    decide +kernel
  by_cases h₁ : t = 1
  · subst h₁
    decide +kernel
  -- the other terminals do nothing
  have hall : ∀ te ∈ setipReloadDone, te.1 = 0 ∨ te.1 = 1 := by
    simp only [setipReloadDone, setipReload, List.forall_mem_append, List.mem_replicate]
    simp
  have hidle := Program.play_other (M := control) (u := t) setipReloadDone
    (fun te hte e => (hall te hte).elim (fun h => h₀ (e.trans h)) fun h => h₁ (e.trans h))
    (Control.terminals .single .plain confDisk)
  exact (h.1 t _ hidle).1

end LinuxRouter
