import LinuxRouter.Model.Manage
import LinuxRouter.Routes.Table

/-!
# Config — the tables of a file

`config_load` of a file that is there, from its lines to the firewall's table and the routes.

* `fileRules` and `fileRoutes` are what the lines of a file say, in order, and `described` the
  firewall's table they describe.
* `loadLines_tables`: what the loop of `config_load` adds to the tables.
* `configLoad_tables`: the tables it leaves.

The loader goes through the lines with the section it is in, and adds a rule or a route for some of
them; what is refused, for want of room or because it is there already, leaves the table as it is.
So the tables are folds over the rules and routes of the file, and the fold is described by what is
taken at the end: the first rules, the first routes without repetitions.
-/

namespace LinuxRouter

open Text (lit)
open Program (Prog replay)

/-- The rule of a line, if it is one. -/
def ruleOfLine (l : List Byte × List Byte) : Option FwRule :=
  if l.1 = lit "filter" then parseFilterLine l.2
  else if l.1 = lit "firewall" then parseFirewallLine l.2
  else none

/-- The rules of a file, in order; a file that cannot be opened has none. -/
def fileRules : Option (List Byte) → List FwRule
  | none => []
  | some file => (confLines [] (Text.fgetsAll 512 file)).filterMap ruleOfLine

/-- The table that a file describes. -/
def described (file : Option (List Byte)) : List FwRule := (fileRules file).take maxRule

/-- The room in the table makes no difference between adding one by one and at once. -/
theorem fwAdd_take (r : FwRule) (rules : List FwRule) :
    (fwAdd r (rules.take maxRule)).2 = (rules ++ [r]).take maxRule := by
  unfold fwAdd
  rw [List.length_take, List.take_append]
  split
  · rw [show maxRule - rules.length = 0 by omega, List.take_zero, List.append_nil]
  · rename_i h
    rw [List.take_of_length_le (by omega), List.take_of_length_le (l := [r])]
    simp only [List.length_singleton]
    omega

/-- The route of a line, if it is one. -/
def routeOfLine (ifs : Ifaces) (l : List Byte × List Byte) : Option RouteArgs :=
  if l.1 = lit "route" then parseRouteLine ifs l.2 else none

/-- The routes of a file, in order. -/
def fileRoutes (ifs : Ifaces) (file : List Byte) : List RouteArgs :=
  (confLines [] (Text.fgetsAll 512 file)).filterMap (routeOfLine ifs)

variable {e : World} {s : Manage}

/-- What a line of `config_load` changes of the tables. -/
theorem loadLine_tables (sec p : List Byte) :
    let y := (replay execM e (loadLine sec p) s).2
    y.ifaces = s.ifaces ∧
      y.rules = (ruleOfLine (sec, p)).elim s.rules (fun r => (fwAdd r s.rules).2) ∧
      y.routes = (routeOfLine s.ifaces (sec, p)).elim s.routes (addRoute s.routes) := by
  have hfr : lit "filter" ≠ lit "route" := by decide
  have hwr : lit "firewall" ≠ lit "route" := by decide
  unfold loadLine
  dsimp only [ruleOfLine, routeOfLine]
  split
  · rename_i h
    subst h
    exact ⟨rfl, rfl, rfl⟩
  · split
    · rename_i h
      subst h
      rw [if_neg hfr]
      cases parseFilterLine p <;> exact ⟨rfl, rfl, rfl⟩
    · split
      · rename_i h
        subst h
        rw [if_neg hwr]
        cases parseFirewallLine p <;> exact ⟨rfl, rfl, rfl⟩
      · split
        · simp only [Prog.perform_bind, replay]
          change _ ∧ _ ∧ _ = (parseRouteLine s.ifaces p).elim _ _
          have ha : (execM .ifaces e s).1 = s.ifaces ∧ (execM .ifaces e s).2 = s := ⟨rfl, rfl⟩
          rw [ha.1, ha.2]
          cases parseRouteLine s.ifaces p <;> exact ⟨rfl, rfl, rfl⟩
        · exact ⟨rfl, rfl, rfl⟩

/-- What the loop of `config_load` adds to the tables. -/
theorem loadLines_tables (ls : List (List Byte × List Byte)) {rules : List FwRule}
    (hs : s.rules = rules.take maxRule) :
    let y := (replay execM e (loadLines ls) s).2
    y.rules = (rules ++ ls.filterMap ruleOfLine).take maxRule ∧
      y.routes = (ls.filterMap (routeOfLine s.ifaces)).foldl addRoute s.routes := by
  induction ls generalizing s rules with
  | nil => exact ⟨by rw [List.filterMap_nil, List.append_nil]; exact hs, rfl⟩
  | cons l ls ih =>
      obtain ⟨sec, p⟩ := l
      obtain ⟨hi, hr, ht⟩ := loadLine_tables (e := e) (s := s) sec p
      simp only [loadLines, Program.replay_bind]
      generalize (replay execM e (loadLine sec p) s).2 = y at hi hr ht
      rw [List.filterMap_cons, List.filterMap_cons]
      have hy : y.rules = (rules ++ (ruleOfLine (sec, p)).toList).take maxRule := by
        rw [hr]
        cases ruleOfLine (sec, p) with
        | none => rw [Option.elim_none, Option.toList_none, List.append_nil, hs]
        | some r => rw [Option.elim_some, hs, fwAdd_take, Option.toList_some]
      obtain ⟨h₁, h₂⟩ := ih hy
      rw [hi, ht] at h₂
      refine ⟨h₁.trans ?_, h₂.trans ?_⟩
      · cases ruleOfLine (sec, p) <;> simp
      · cases routeOfLine s.ifaces (sec, p) <;> rfl

/-- **The tables that `config_load` leaves**, of a file that opens. -/
theorem configLoad_tables {file : List Byte} (he : e.opened = true)
    (hs : s.disk.read configFile = some file) :
    let y := (replay execM e configLoadSteps s).2
    y.rules = described (some file) ∧
      y.routes = (fileRoutes s.ifaces file).foldl addRoute (routeClearStatic s.routes) := by
  have hconf : (execM .readConf e s).1 = some file := by simp only [execM, he, if_true, hs]
  simp only [configLoadSteps, Prog.perform_bind, replay]
  rw [hconf]
  exact @loadLines_tables _ _ _ [] rfl

/-- A router with a password and a file, and nothing else. -/
def Manage.guarded (password file : List Byte) : Manage where
  settings := { Settings.fresh with
    cfg := { cfgDefault with password := Text.CStr.store 64 password } }
  rules := []
  routes := []
  ifaces := []
  disk := Files.Fs.empty.link configFile file
  up :=
    { inProgress := false, newPath := [], exePath := [], fp := none, hc := sha256Init
      haveSha := false, expect := [], expected := 0, received := 0, first4 := [] }

/-- A world in which every call succeeds.  A stream writes whole blocks. -/
def World.fair : World where
  settled := fun n => n / 4096 * 4096
  flushed := none
  exe := none
  opened := true
  wrote := none
  closed := true
  renamed := true
  saved := none
  recv := []
  stop := false
  conf := none
  rc := 0
  out := []
  execed := false

theorem World.fair_settled : Monotone World.fair.settled := fun _ _ h =>
  Nat.mul_le_mul_right 4096 (Nat.div_le_div_right h)

end LinuxRouter
