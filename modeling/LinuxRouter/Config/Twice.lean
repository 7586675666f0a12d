import LinuxRouter.Support.Watch
import LinuxRouter.Config.Reload

/-!
# Config — reloads at once

Two threads in `config_load`, or more, one command at a time in any order.

* `callers` is the system of the calls.  What the callers do before and after, and what everybody
  else does, is in the surroundings; it leaves the table alone.
* `lastClear` observes whose `fw_clear` was the last.
* `LastTable`: the table is what the call of the last `fw_clear` has offered, as far as there is room.
  It is kept while no other call adds a rule (`addsOwn`).
* `reloads_agree`: in every run with that, the table is the one a single `config_load` leaves.
* `rule_twice` is a run without it.

Whose `fw_clear` was the last cannot be seen in the table, so an observer keeps it.  With it the
invariant is the one of a single reload (`Config/Reload`), of that call alone: the table is what it
has offered since.  The only commands that could break it are the `fw_add` of the other calls, and
these are what the condition is about.
-/

namespace LinuxRouter

open Text (lit)
open Program (Prog Along Reach Config By Watched replay)

/-! ### The calls -/

/-- A thread is about to call `config_load`, or does not call it any more. -/
inductive Caller where
  | call
  | done
  deriving DecidableEq

/-- A call of `config_load`. -/
def callBody : Caller → MAct (Option Caller)
  | .call => (fun _ => some .done) <$> configLoadSteps
  | .done => .ret (some .done)

/-- The calls, with surroundings that leave the table alone. -/
def callers : Program.System MCmd World Manage (List Note) ℕ Caller :=
  (manage fun s s' => s'.rules = s.rules).withBody fun _ => callBody

/-- Some threads are about to call. -/
structure Calling (x : Config MCmd Manage (List Note) ℕ Caller) : Prop where
  idle : ∀ t, ∃ l, x.thread t = .idle l
  fresh : ∀ t, x.ghost t = []

/-- The thread of the last `fw_clear`. -/
def lastClear ⦃β : Type⦄ (t : ℕ) (c : MCmd β) (_ : Manage) (_ : β) (v : Option ℕ) : Option ℕ :=
  match c with
  | .fwClear => some t
  | _ => v

/-- A state of the calls with the thread of the last `fw_clear`. -/
abbrev Calls := Watched Manage (List Note) ℕ (Option ℕ)

/-- `fw_add` adds a rule only for the call that has cleared the table last. -/
def addsOwn : ∀ ⦃β : Type⦄, ℕ → By ℕ MCmd β → World → Calls → Prop
  | _, t, ⟨_, .fwAdd _⟩, _, s => s.view = some t ∨ maxRule ≤ s.shared.rules.length
  | _, _, _, _, _ => True

/-! ### The table -/

/-- The table is what the call of the last `fw_clear` has offered. -/
structure LastTable (s : Calls) : Prop where
  before : s.view = none → ∀ t, cleared (s.ghost t) = false
  table : ∀ t, s.view = some t →
    cleared (s.ghost t) = true ∧ s.shared.rules = (offered (s.ghost t)).take maxRule

variable {s : Calls} {t : ℕ}

/-- A command that leaves the table, and offers nothing. -/
theorem LastTable.quiet (h : LastTable s) {r : Manage} {n : Note} (hr : r.rules = s.shared.rules)
    (ho : n.offers = []) (hc : cleared (n :: s.ghost t) = cleared (s.ghost t)) :
    LastTable
      { shared := r, ghost := Function.update s.ghost t (n :: s.ghost t), view := s.view } := by
  have hg : ∀ u, cleared (Function.update s.ghost t (n :: s.ghost t) u) = cleared (s.ghost u) ∧
      offered (Function.update s.ghost t (n :: s.ghost t) u) = offered (s.ghost u) := by
    intro u
    by_cases e : u = t
    · subst e
      rw [Function.update_self]
      exact ⟨hc, by rw [offered, ho, List.append_nil]⟩
    · rw [Function.update_of_ne e]
      exact ⟨rfl, rfl⟩
  refine ⟨fun hv u => (hg u).1.trans (h.before hv u), fun u hv => ?_⟩
  obtain ⟨hu, htable⟩ := h.table u hv
  exact ⟨(hg u).1.trans hu, by rw [(hg u).2]; exact hr.trans htable⟩

/-- `fw_add` for the call that has cleared the table, or none at all. -/
theorem LastTable.add (h : LastTable s) {r : FwRule} (hc : cleared (s.ghost t) = true)
    (hok : s.view = some t ∨ maxRule ≤ s.shared.rules.length) (e : World) :
    LastTable (Watched.exec callers lastClear t (.fwAdd r) e s).2 := by
  have hrules : (Watched.exec callers lastClear t (.fwAdd r) e s).2.shared.rules =
      (fwAdd r s.shared.rules).2 := rfl
  refine ⟨fun hv => ?_, fun u hv => ?_⟩
  · rw [h.before hv t] at hc
    cases hc
  · obtain ⟨hu, htable⟩ := h.table u hv
    by_cases hut : u = t
    · subst hut
      have hg : (Watched.exec callers lastClear u (.fwAdd r) e s).2.ghost u =
          .fwAdd r (fwAdd r s.shared.rules).1 :: s.ghost u := Function.update_self ..
      rw [hrules, hg]
      refine ⟨hu, ?_⟩
      rw [htable, fwAdd_take]
      rfl
    · have hg : (Watched.exec callers lastClear t (.fwAdd r) e s).2.ghost u = s.ghost u :=
        Function.update_of_ne hut ..
      have hfull : maxRule ≤ s.shared.rules.length :=
        hok.resolve_left fun e => hut (Option.some.inj (hv.symm.trans e))
      rw [hrules, hg, fwAdd, if_pos hfull]
      exact ⟨hu, htable⟩

theorem LastTable.exec (h : LastTable s) {β : Type} {c : MCmd β} (e : World)
    (hp : reloadPre c (s.ghost t)) (hok : addsOwn t ⟨t, c⟩ e s) :
    LastTable (Watched.exec callers lastClear t c e s).2 := by
  cases c with
  | fwClear =>
      have ho : offered (s.ghost t) = [] := hp
      refine ⟨fun hv => (nomatch hv), fun u hv => ?_⟩
      cases hv
      have hg : (Watched.exec callers lastClear t .fwClear e s).2.ghost t =
          .fwClear :: s.ghost t := Function.update_self ..
      rw [hg, offered, ho]
      exact ⟨rfl, rfl⟩
  | fwAdd r => exact h.add hp.1 hok e
  | readConf => exact h.quiet rfl rfl rfl
  | configDefault => exact h.quiet rfl rfl rfl
  | configSave => exact h.quiet rfl rfl rfl
  | routerKey p => exact h.quiet rfl rfl rfl
  | ifaces => exact h.quiet rfl rfl rfl
  | routeClearStatic => exact h.quiet rfl rfl rfl
  | routeAdd dest mask gw ifindex => exact h.quiet rfl rfl rfl
  | routeDeriveConnected => exact h.quiet rfl rfl rfl
  | _ => cases hp

/-- A change of the surroundings. -/
theorem LastTable.admin (h : LastTable s) {s' : Calls} (hr : s'.shared.rules = s.shared.rules)
    (hg : s'.ghost = s.ghost) (hv : s'.view = s.view) : LastTable s' := by
  refine ⟨?_, ?_⟩
  · rw [hv, hg]
    exact h.before
  · rw [hv, hg, hr]
    exact h.table

/-! ### Runs -/

variable {x : Config MCmd Manage (List Note) ℕ Caller}

/-- What is known of a thread outside its call: it is still to come, or it has offered its whole file,
or there is none. -/
def callerRest (x : Config MCmd Manage (List Note) ℕ Caller) (t : ℕ) : Caller → List Note → Prop
  | .call, h => x.thread t = .idle .call ∧ h = []
  | .done, h => (x.thread t = .idle .call ∧ StillToOffer [] h) ∨ (x.thread t = .idle .done ∧ h = [])

theorem callBody_reloads {t : ℕ} {l : Caller} {h : List Note} (hl : callerRest x t l h) :
    Reloads (fun r h => ∀ l, r = some l → callerRest x t l h) (callBody l) h := by
  cases l with
  | call =>
      obtain ⟨hx, rfl⟩ := hl
      refine Along.map (configLoadSteps_reloads.mono fun _ h hs l e => ?_)
      cases e
      exact .inl ⟨hx, hs⟩
  | done =>
      intro l e
      cases e
      exact hl

/-- A run keeps the table, and every call offers its file. -/
theorem calls_run (hx : Calling x) {y : Config (By ℕ MCmd) Calls ℕ ℕ Caller}
    (hr : Reach (callers.watched lastClear) addsOwn (x.shadow none) y) :
    LastTable y.shared ∧ ∀ t l, y.thread t = .idle l → callerRest x t l (y.shared.ghost t) := by
  have hfresh : LastTable (x.shadow none).shared := by
    refine ⟨fun _ t => ?_, fun t hv => (nomatch hv)⟩
    change cleared (x.ghost t) = false
    rw [hx.fresh t]
    rfl
  have hthread : ∀ t, Program.AlongThread MCmd.note reloadPre (fun _ _ _ => True) (callerRest x) t
      (x.thread t) (x.ghost t) := by
    intro t
    obtain ⟨l, hl⟩ := hx.idle t
    rw [hl, hx.fresh t]
    cases l with
    | call => exact ⟨hl, rfl⟩
    | done => exact .inr ⟨hl, rfl⟩
  have hstep : ∀ ⦃β : Type⦄ t (c : MCmd β) e s, LastTable s → reloadPre c (s.ghost t) →
      addsOwn t ⟨t, c⟩ e s → LastTable (Watched.exec callers lastClear t c e s).2 :=
    fun _ _ _ e _ hs hp hok => hs.exec e hp hok
  obtain ⟨hi, z, w, rfl, hz⟩ := Program.watched_along (fun _ _ _ _ _ => rfl)
    (fun _ _ _ _ _ _ => trivial) (fun _ _ _ hl => callBody_reloads hl) hstep
    (fun _ _ hs ha hg hv => hs.admin ha hg hv) hfresh hthread hr
  refine ⟨hi, fun t l hl => ?_⟩
  have ht := hz t
  rw [Program.tag_eq_idle hl] at ht
  exact ht

/-- A `config_load` alone leaves the described table. -/
theorem configLoad_rules (e : World) (s : Manage) :
    (replay execM e configLoadSteps s).2.rules = described (execM .readConf e s).1 := by
  simp only [configLoadSteps, Prog.perform_bind, replay]
  cases hf : (execM .readConf e s).1 with
  | none => rfl
  | some file => exact (@loadLines_tables e _ _ [] rfl).1

/-- **Reloads at once are one reload**, in every run in which no call adds a rule to a table with
room that another has cleared since. -/
theorem reloads_agree (hx : Calling x) {t₀ : ℕ} (h₀ : x.thread t₀ = .idle .call)
    {y : Config (By ℕ MCmd) Calls ℕ ℕ Caller}
    (hr : Reach (callers.watched lastClear) addsOwn (x.shadow none) y)
    (hy : ∀ t, y.thread t = .idle .done) {e : World} {s : Manage}
    (hfile : ∀ t, OfFile (execM .readConf e s).1 (y.shared.ghost t)) :
    y.shared.shared.rules = (replay execM e configLoadSteps s).2.rules := by
  obtain ⟨hi, hrest⟩ := calls_run hx hr
  have hoffered : ∀ t, cleared (y.shared.ghost t) = true →
      offered (y.shared.ghost t) = fileRules (execM .readConf e s).1 := by
    intro t hc
    rcases hrest t _ (hy t) with ⟨-, -, hall⟩ | ⟨-, hnil⟩
    · rw [← hall _ (hfile t), List.append_nil]
    · rw [hnil] at hc
      cases hc
  have hclear : cleared (y.shared.ghost t₀) = true := by
    rcases hrest t₀ _ (hy t₀) with ⟨-, hc, -⟩ | ⟨hd, -⟩
    · exact hc
    · rw [h₀] at hd
      cases hd
  rw [configLoad_rules]
  cases hv : y.shared.view with
  | none =>
      rw [hi.before hv t₀] at hclear
      cases hclear
  | some t =>
      obtain ⟨hc, htable⟩ := hi.table t hv
      rw [htable, hoffered t hc, described]

/-! ### Two calls -/

/-- Two threads about to load a file of one rule. -/
def twoCallers : Config MCmd Manage (List Note) ℕ Caller where
  shared := Manage.guarded [] (lit "[firewall]\ndrop\n")
  thread t := .idle (if t < 2 then .call else .done)
  ghost _ := []

theorem twoCallers_calling : Calling twoCallers := ⟨fun _ => ⟨_, rfl⟩, fun _ => rfl⟩

/-- The history of a call that has read the file. -/
theorem ofFile_called {h : List Note} (hh : h = [.fwAdd (.blank fwDrop) true, .quiet, .fwClear,
    .configDefault, .readConf (execM .readConf World.fair twoCallers.shared).1]) :
    OfFile (execM .readConf World.fair twoCallers.shared).1 h := by
  subst hh
  intro text hm
  simpa using hm

/-- A schedule, in a world in which every call succeeds. -/
def inTurn (w : List ℕ) : List (ℕ × World) := w.map fun t => (t, World.fair)

/-- One call after the other. -/
def afterEachOther : Config (By ℕ MCmd) Calls ℕ ℕ Caller :=
  Program.play (callers.watched lastClear) (inTurn [0, 0, 0, 0, 0, 0, 0, 1, 1, 1, 1, 1, 1, 1])
    (twoCallers.shadow none)

/-- One call and then another leave the rule once. -/
theorem one_after_other :
    afterEachOther.shared.shared.rules =
      (replay execM World.fair configLoadSteps twoCallers.shared).2.rules := by
  have h₀ : twoCallers.thread 0 = .idle .call := rfl
  refine reloads_agree twoCallers_calling h₀ (Program.PlayOk.reach ?_) ?_ ?_
  · exact ⟨trivial, trivial, trivial, trivial, trivial, .inl rfl, trivial,
      trivial, trivial, trivial, trivial, trivial, .inl rfl, trivial, trivial⟩
  · intro t
    match t with
    | 0 => rfl
    | 1 => rfl
    | _ + 2 => rfl
  · intro t
    match t with
    | 0 => exact ofFile_called rfl
    | 1 => exact ofFile_called rfl
    | _ + 2 => exact fun _ hm => nomatch hm

/-- Both calls have read the file, and cleared the table, before either adds the rule. -/
def bothAtOnce : Config MCmd Manage (List Note) ℕ Caller :=
  Program.play callers (inTurn [0, 0, 0, 0, 0, 1, 1, 1, 1, 1, 0, 0, 1, 1]) twoCallers

/-- **A rule is there twice** after two calls at once: both clear the table before either adds its
rule, so that the rule of the file stands in the table two times. -/
theorem rule_twice :
    Calling twoCallers ∧ Reach callers Program.anyStep twoCallers bothAtOnce ∧
      (∀ t, bothAtOnce.thread t = .idle .done) ∧
      (∀ t, OfFile (execM .readConf World.fair twoCallers.shared).1 (bothAtOnce.ghost t)) ∧
      (replay execM World.fair configLoadSteps twoCallers.shared).2.rules = [.blank fwDrop] ∧
      bothAtOnce.shared.rules = [.blank fwDrop, .blank fwDrop] := by
  refine ⟨twoCallers_calling, Program.play_reach (fun _ _ _ _ _ => trivial) _, fun t => ?_,
    fun t => ?_, rfl, rfl⟩
  · match t with
    | 0 => rfl
    | 1 => rfl
    | _ + 2 => rfl
  · match t with
    | 0 => exact ofFile_called rfl
    | 1 => exact ofFile_called rfl
    | _ + 2 => exact fun _ hm => nomatch hm

end LinuxRouter
