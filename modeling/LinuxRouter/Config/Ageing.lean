import Mathlib.Data.List.Induction
import LinuxRouter.Config.Load

/-!
# Config — the ageing limit

The ageing time is kept twice: in the configuration, which `showcfg` and `save` report, and in the
ARP table, which `arp_tick` reads.

* `fileTimeouts`: the values that a file gives `arp_timeout`.
* `loadSettings_timeout`: the two copies after a load; the first starts from the default, the second
  stays as it is, and takes no value below 10.
* `Running`: the states that a start and any loads lead to; `running_timeout`.
* `Ages`: the same with the table; `Ages.timeout`: the limit that `arp_tick` reads is the second copy.
* `ageing_in_force_iff`: when the two are equal after a load.  `ageing_apart`.

Only `arp_set_timeout` writes to the table, and only a line of the file calls it; the configuration
is set back to its defaults before every load.  Followed line by line, the first copy is the last
value of the file, or the default, and the second is the last value of the file that is at least 10,
or what it was.  The equivalence is the comparison of these two expressions.  That the table's limit
is the second copy is an induction over whatever the router has done since its start (`Ages`).
-/

namespace LinuxRouter

open Text (lit atoi)
open Program (Prog replay)

/-! ### The two copies -/

/-- The settings after `config_load`; `none` is a file that cannot be opened. -/
def loadSettings : Option (List Byte) → Settings → Settings
  | none, s => configDefault s
  | some file, s => configLoad file s

/-- The value of a line `arp_timeout=…`. -/
def timeoutOfLine (p : List Byte) : Option CInt :=
  (routerKey p).bind fun x => if x.1 = lit "arp_timeout" then some (atoi x.2) else none

/-- The values that a file gives `arp_timeout`, in order. -/
def fileTimeouts : Option (List Byte) → List CInt
  | none => []
  | some file => (routerLines file).filterMap timeoutOfLine

theorem assign_arpTimeout {cfg cfg' : RouterCfg} {key val : List Byte}
    (hk : key ≠ lit "arp_timeout") (h : cfg.assign key val = some cfg') :
    cfg'.arpTimeout = cfg.arpTimeout := by
  unfold RouterCfg.assign at h
  rw [if_neg hk] at h
  split_ifs at h
  all_goals
    cases h
    rfl

theorem logSetLevel_copies (level : CInt) (s : Settings) :
    (logSetLevel level s).cfg = s.cfg ∧ (logSetLevel level s).timeout = s.timeout := by
  unfold logSetLevel
  split <;> exact ⟨rfl, rfl⟩

/-- What a line makes of the two copies. -/
theorem parseRouterKey_timeout (p : List Byte) (s : Settings) :
    (parseRouterKey p s).cfg.arpTimeout = (timeoutOfLine p).getD s.cfg.arpTimeout ∧
      (parseRouterKey p s).timeout =
        ((timeoutOfLine p).filter (10 ≤ ·)).getD s.timeout := by
  unfold parseRouterKey timeoutOfLine
  cases routerKey p with
  | none => exact ⟨rfl, rfl⟩
  | some x =>
      obtain ⟨key, val⟩ := x
      dsimp only [Option.bind_some]
      by_cases hk : key = lit "arp_timeout"
      · subst hk
        have hlevel : lit "arp_timeout" ≠ lit "log_level" := by decide
        have hassign : s.cfg.assign (lit "arp_timeout") val =
            some { s.cfg with arpTimeout := atoi val } := rfl
        rw [hassign]
        simp only [if_true, if_neg hlevel, Option.getD_some, Settings.setTimeout, Option.filter]
        by_cases hv : 10 ≤ atoi val <;> simp [hv]
      · rw [if_neg hk]
        cases hassign : s.cfg.assign key val with
        | none => exact ⟨rfl, rfl⟩
        | some cfg =>
            have hcfg := assign_arpTimeout hk hassign
            obtain ⟨hc, ht⟩ := logSetLevel_copies cfg.logLevel { s with cfg := cfg }
            simp only [if_neg hk]
            split
            · exact ⟨(congrArg RouterCfg.arpTimeout hc).trans hcfg, ht⟩
            · exact ⟨hcfg, rfl⟩

theorem foldl_timeout (ls : List (List Byte)) (s : Settings) :
    let y := ls.foldl (fun s p => parseRouterKey p s) s
    y.cfg.arpTimeout = (ls.filterMap timeoutOfLine).getLast?.getD s.cfg.arpTimeout ∧
      y.timeout = ((ls.filterMap timeoutOfLine).filter (10 ≤ ·)).getLast?.getD s.timeout := by
  induction ls using List.reverseRecOn with
  | nil => exact ⟨rfl, rfl⟩
  | append_singleton ls p ih =>
      obtain ⟨hc, ht⟩ := parseRouterKey_timeout p (ls.foldl (fun s p => parseRouterKey p s) s)
      rw [List.foldl_append, List.filterMap_append]
      cases hp : timeoutOfLine p with
      | none =>
          rw [hp] at hc ht
          rw [List.filterMap_cons_none hp, List.filterMap_nil, List.append_nil]
          exact ⟨hc.trans ih.1, ht.trans ih.2⟩
      | some v =>
          rw [hp] at hc ht
          rw [List.filterMap_cons_some hp, List.filterMap_nil, List.filter_append]
          refine ⟨?_, ?_⟩
          · rw [List.getLast?_concat]
            exact hc
          · by_cases hv : 10 ≤ v
            · rw [List.filter_cons_of_pos (by simpa using hv), List.filter_nil, List.getLast?_concat]
              rw [Option.filter_some_pos (by simpa using hv)] at ht
              exact ht
            · rw [List.filter_cons_of_neg (by simpa using hv), List.filter_nil, List.append_nil]
              rw [Option.filter_some_neg (by simpa using hv)] at ht
              exact ht.trans ih.2

/-- **The two copies after a load.** -/
theorem loadSettings_timeout (file : Option (List Byte)) (s : Settings) :
    (loadSettings file s).cfg.arpTimeout = (fileTimeouts file).getLast?.getD arpTmo ∧
      (loadSettings file s).timeout =
        ((fileTimeouts file).filter (10 ≤ ·)).getLast?.getD s.timeout := by
  cases file with
  | none => exact ⟨rfl, rfl⟩
  | some file => exact foldl_timeout (routerLines file) (configDefault s)

/-- They are equal if the last value is one the table takes, or if there is none and the table has
the default. -/
theorem loadSettings_equal_iff {s : Settings} (h : 10 ≤ s.timeout) (file : Option (List Byte)) :
    (loadSettings file s).timeout = (loadSettings file s).cfg.arpTimeout ↔
      match (fileTimeouts file).getLast? with
      | some v => 10 ≤ v
      | none => s.timeout = arpTmo := by
  obtain ⟨hc, ht⟩ := loadSettings_timeout file s
  rw [hc, ht]
  rcases List.eq_nil_or_concat (fileTimeouts file) with e | ⟨vs, v, e⟩
  · rw [e]
    exact Iff.rfl
  · rw [e, List.concat_eq_append, List.getLast?_concat, List.filter_append]
    dsimp only [Option.getD_some]
    by_cases hv : 10 ≤ v
    · rw [List.filter_cons_of_pos (by simpa using hv), List.filter_nil, List.getLast?_concat]
      exact iff_of_true rfl hv
    · rw [List.filter_cons_of_neg (by simpa using hv), List.filter_nil, List.append_nil]
      refine iff_of_false (fun heq => hv ?_) hv
      -- the table has an earlier value, which it took
      rw [← heq]
      cases hlast : (vs.filter (10 ≤ ·)).getLast? with
      | none => exact h
      | some w =>
          have hw := List.mem_of_getLast? hlast
          simpa using (List.mem_filter.mp hw).2

theorem loadSettings_least {s : Settings} (h : 10 ≤ s.timeout) (file : Option (List Byte)) :
    10 ≤ (loadSettings file s).timeout := by
  rw [(loadSettings_timeout file s).2]
  cases hlast : ((fileTimeouts file).filter (10 ≤ ·)).getLast? with
  | none => exact h
  | some w => simpa using (List.mem_filter.mp (List.mem_of_getLast? hlast)).2

/-! ### The table -/

/-- The calls of `arp_set_timeout` that a load makes. -/
def ArpTable.load (file : Option (List Byte)) (t : ArpTable) : ArpTable :=
  (fileTimeouts file).foldl (fun t v => arpSetTimeout v t) t

theorem ArpTable.timeout_load (file : Option (List Byte)) (t : ArpTable) :
    (t.load file).timeout = ((fileTimeouts file).filter (10 ≤ ·)).getLast?.getD t.timeout := by
  unfold ArpTable.load
  induction fileTimeouts file using List.reverseRecOn with
  | nil => rfl
  | append_singleton vs v ih =>
      rw [List.foldl_append, List.filter_append]
      dsimp only [List.foldl_cons, List.foldl_nil, arpSetTimeout]
      by_cases hv : 10 ≤ v
      · rw [if_pos hv, List.filter_cons_of_pos (by simpa using hv), List.filter_nil,
          List.getLast?_concat]
        rfl
      · rw [if_neg hv, List.filter_cons_of_neg (by simpa using hv), List.filter_nil, List.append_nil]
        exact ih

/-- The settings' copy of the limit follows the table. -/
theorem ArpTable.load_copy {t : ArpTable} {s : Settings} (h : t.timeout = s.timeout)
    (file : Option (List Byte)) : (t.load file).timeout = (loadSettings file s).timeout := by
  rw [ArpTable.timeout_load, (loadSettings_timeout file s).2, h]

/-! ### The loader's steps -/

variable {e : World} {s : Manage}

theorem loadLine_settings (sec p : List Byte) :
    (replay execM e (loadLine sec p) s).2.settings =
      if sec = lit "router" then parseRouterKey p s.settings else s.settings := by
  unfold loadLine
  split
  · rfl
  · split
    · cases parseFilterLine p <;> rfl
    · split
      · cases parseFirewallLine p <;> rfl
      · split
        · simp only [Prog.perform_bind, replay]
          cases parseRouteLine (execM .ifaces e s).1 p <;> rfl
        · rfl

theorem loadLines_settings (ls : List (List Byte × List Byte)) :
    (replay execM e (loadLines ls) s).2.settings =
      (ls.filterMap fun x => if x.1 = lit "router" then some x.2 else none).foldl
        (fun s p => parseRouterKey p s) s.settings := by
  induction ls generalizing s with
  | nil => rfl
  | cons l ls ih =>
      obtain ⟨sec, p⟩ := l
      simp only [loadLines, Program.replay_bind]
      rw [ih, loadLine_settings]
      by_cases hsec : sec = lit "router"
      · simp only [List.filterMap_cons, if_pos hsec, List.foldl_cons]
      · simp only [List.filterMap_cons, if_neg hsec]

/-- **The settings that `config_load` leaves.** -/
theorem configLoad_settings (e : World) (s : Manage) :
    (replay execM e configLoadSteps s).2.settings =
      loadSettings (execM .readConf e s).1 s.settings := by
  simp only [configLoadSteps, Prog.perform_bind, replay]
  cases (execM .readConf e s).1 with
  | none => rfl
  | some file => exact loadLines_settings _

/-! ### Every history -/

/-- What `main` does with the ageing time after its `config_load`: `arp_init`, and
`arp_set_timeout` of the configured value. -/
def Settings.startArp (s : Settings) : Settings :=
  { s with timeout := (arpSetTimeout s.cfg.arpTimeout arpInit).timeout }

/-- A router after its start and any loads since. -/
inductive Running : Manage → Prop where
  | start {s : Manage} (e : World) :
      Running { (replay execM e configLoadSteps s).2 with
        settings := (replay execM e configLoadSteps s).2.settings.startArp }
  | load {s : Manage} (e : World) (h : Running s) : Running (replay execM e configLoadSteps s).2
  -- nothing else changes the two copies
  | other {s s' : Manage} (hc : s'.settings.cfg.arpTimeout = s.settings.cfg.arpTimeout)
      (ht : s'.settings.timeout = s.settings.timeout) (h : Running s) : Running s'

/-- The table never has a limit below 10. -/
theorem running_timeout (h : Running s) : 10 ≤ s.settings.timeout := by
  induction h with
  | @start s e =>
      dsimp only [Settings.startArp, arpSetTimeout]
      split
      · assumption
      · decide
  | @load s e _ ih =>
      rw [configLoad_settings]
      exact loadSettings_least ih _
  | other _ ht _ ih => rwa [ht]

/-- A router with its ARP table: after its start, any loads since, and whatever else its threads do. -/
inductive Ages : Manage → ArpTable → Prop where
  | start {s y : Manage} (e : World) (hy : (replay execM e configLoadSteps s).2 = y) :
      Ages { y with settings := y.settings.startArp } (arpSetTimeout y.settings.cfg.arpTimeout arpInit)
  | load {s : Manage} {t : ArpTable} (e : World) (h : Ages s t) :
      Ages (replay execM e configLoadSteps s).2 (t.load (execM .readConf e s).1)
  | other {s s' : Manage} {t t' : ArpTable} (hc : s'.settings.cfg.arpTimeout = s.settings.cfg.arpTimeout)
      (hs : s'.settings.timeout = s.settings.timeout) (ht : t'.timeout = t.timeout) (h : Ages s t) :
      Ages s' t'

/-- **The limit that `arp_tick` reads** is the one that the settings have a copy of. -/
theorem Ages.timeout {t : ArpTable} (h : Ages s t) : t.timeout = s.settings.timeout := by
  induction h with
  | start e hy => rfl
  | load e _ ih =>
      rw [configLoad_settings]
      exact ArpTable.load_copy ih _
  | other _ hs ht _ ih => rw [ht, hs, ih]

theorem Ages.running {t : ArpTable} (h : Ages s t) : Running s := by
  induction h with
  | start e hy =>
      subst hy
      exact .start e
  | load e _ ih => exact .load e ih
  | other hc hs _ _ ih => exact .other hc hs ih

/-- The table after a load ages by the configured value under the same condition. -/
theorem Ages.in_force {t : ArpTable} (h : Ages s t) (e : World) :
    (t.load (execM .readConf e s).1).timeout =
        (replay execM e configLoadSteps s).2.settings.cfg.arpTimeout ↔
      match (fileTimeouts (execM .readConf e s).1).getLast? with
      | some v => 10 ≤ v
      | none => t.timeout = arpTmo := by
  rw [h.timeout, configLoad_settings, ArpTable.load_copy h.timeout]
  exact loadSettings_equal_iff (running_timeout h.running) _

/-- **When the configured limit is in force.**  After a load at any time, `arp_tick` ages by the
configured value exactly if the last `arp_timeout` of the file is at least 10, or the file has none
and the limit in force before is the default. -/
theorem ageing_in_force_iff (h : Running s) (e : World) :
    let y := (replay execM e configLoadSteps s).2
    y.settings.timeout = y.settings.cfg.arpTimeout ↔
      match (fileTimeouts (execM .readConf e s).1).getLast? with
      | some v => 10 ≤ v
      | none => s.settings.timeout = arpTmo := by
  dsimp only
  rw [configLoad_settings]
  exact loadSettings_equal_iff (running_timeout h) _

/-! ### Two loads -/

/-- A router that has loaded a file twice, at its start and again. -/
def Manage.loadedTwice (file : List Byte) : Manage :=
  let y := (replay execM .fair configLoadSteps (.guarded [] file)).2
  (replay execM .fair configLoadSteps { y with settings := y.settings.startArp }).2

theorem running_loadedTwice (file : List Byte) : Running (.loadedTwice file) :=
  .load .fair (.start .fair)

theorem ageing_kept :
    let y := (replay execM .fair configLoadSteps
      (.loadedTwice (lit "[router]\narp_timeout=600\n"))).2
    y.settings.timeout = y.settings.cfg.arpTimeout := by
  have hfile : fileTimeouts (some (lit "[router]\narp_timeout=600\n")) = [600] := by decide +kernel
  refine (ageing_in_force_iff (running_loadedTwice _) .fair).mpr ?_
  rw [show (execM .readConf .fair (Manage.loadedTwice (lit "[router]\narp_timeout=600\n"))).1 =
    some (lit "[router]\narp_timeout=600\n") by decide +kernel, hfile]
  exact (by decide : (10 : CInt) ≤ 600)

/-- **The two come apart** when a file without `arp_timeout` is loaded after one with 600: the
configuration says 300 again, and the table goes on ageing by 600. -/
theorem ageing_apart :
    let s := Manage.loadedTwice (lit "[router]\narp_timeout=600\n")
    let s' := { s with disk := s.disk.link configFile (lit "[router]\n") }
    let y := (replay execM .fair configLoadSteps s').2
    Running s' ∧ y.settings.cfg.arpTimeout = 300 ∧ y.settings.timeout = 600 := by
  intro s s' y
  refine ⟨Running.other (s := s) rfl rfl (running_loadedTwice _), ?_, ?_⟩
  all_goals decide +kernel

end LinuxRouter
