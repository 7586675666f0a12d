import LinuxRouter.Remote.Gate

/-!
# Config — a reload under traffic

The firewall's table while `config_load` runs.  A worker's `fw_check` takes the table's lock, so it
sees the table as it is between two commands of the reload.

* `offered` and `cleared` say how far a reload is.
* `ReloadInv`: before `fw_clear` the table is the old one, after it what was offered, as far as there
  is room.  It is kept by every command of the reload (`reloading`).
* `reload_loaded`: the table that `config_load` leaves is the described one.
* `reload_drops_iff`: of the frames that both tables drop, which are dropped on the way.

A reload is one thread's program, and the table is shared; the argument is a discipline with the
reload's own history in it.  How many rules it has offered says what the table is: the old one
before `fw_clear`, and after it the rules offered so far, cut to the room there is.  A frame that
the new table drops is dropped by a part of it as soon as its first rule is in the part
(`fwCheck_take`); until then it is judged by the rules before that, and an empty table lets it pass.
-/

namespace LinuxRouter

open Text (lit)
open Program (Prog Along along_step along_last Discipline Reach Config)

/-! ### The first rule for a frame -/

/-- Where the first rule for a frame is. -/
def firstRule (rules : List FwRule) (f : List Byte) (len : ℕ) : ℕ :=
  rules.findIdx fun r => ruleMatch r f len

/-- A part of a table decides as the table does, once it has the first rule for the frame. -/
theorem fwCheck_take (rules : List FwRule) (k : ℕ) (f : List Byte) (len : ℕ) :
    fwCheck (rules.take k) f len = if firstRule rules f len < k then fwCheck rules f len else fwAllow
    := by
  unfold fwCheck firstRule
  induction rules generalizing k with
  | nil => simp only [List.take_nil, List.find?_nil, ite_self]
  | cons r rules ih =>
      cases k with
      | zero => simp
      | succ k =>
          rw [List.take_succ_cons, List.find?_cons, List.find?_cons, List.findIdx_cons]
          cases ruleMatch r f len with
          | true => simp
          | false => simpa using ih k

/-! ### How far a reload is -/

/-- The rule that a note has handed to `fw_add`. -/
def Note.offers : Note → List FwRule
  | .fwAdd r _ => [r]
  | _ => []

/-- The rules handed to `fw_add`, in order. -/
def offered : List Note → List FwRule
  | [] => []
  | n :: h => offered h ++ n.offers

/-- `fw_clear` is done. -/
def cleared : List Note → Bool
  | [] => false
  | .fwClear :: _ => true
  | _ :: h => cleared h

/-- What has been read, if anything, is `file`. -/
def OfFile (file : Option (List Byte)) (h : List Note) : Prop :=
  ∀ text, Note.readConf text ∈ h → text = file

theorem OfFile.tail {file : Option (List Byte)} {n : Note} {h : List Note}
    (hf : OfFile file (n :: h)) : OfFile file h :=
  fun text hm => hf text (List.mem_cons_of_mem n hm)

/-- The table in the middle of a reload: `h` is what the reload has done, `old` what it has found. -/
structure ReloadInv (old : List FwRule) (h : List Note) (rules : List FwRule) : Prop where
  table : rules = if cleared h then (offered h).take maxRule else old
  before : cleared h = false → offered h = []
  prefixOf : ∀ file, OfFile file h → offered h <+: fileRules file

/-- What the commands of a reload need. -/
def reloadPre : ∀ ⦃β : Type⦄, MCmd β → List Note → Prop
  | _, .fwClear, h => offered h = []
  | _, .fwAdd r, h =>
      cleared h = true ∧ ∀ file, OfFile file h → offered h ++ [r] <+: fileRules file
  | _, .routeDeriveConnected, h =>
      cleared h = true ∧ ∀ file, OfFile file h → offered h = fileRules file
  | _, c, _ => c.ofConfig = true

/-- A command that leaves the table and its history alone. -/
theorem ReloadInv.quiet {old rules : List FwRule} {h : List Note} {n : Note}
    (hi : ReloadInv old h rules) (ho : n.offers = []) (hc : cleared (n :: h) = cleared h) :
    ReloadInv old (n :: h) rules := by
  have ho : offered (n :: h) = offered h := by rw [offered, ho, List.append_nil]
  refine ⟨?_, ?_, fun file hf => ?_⟩
  · rw [ho, hc]
    exact hi.table
  · rw [ho, hc]
    exact hi.before
  · rw [ho]
    exact hi.prefixOf file hf.tail

theorem ReloadInv.exec {old : List FwRule} {h : List Note} {s : Manage} {β : Type} {c : MCmd β}
    (e : World) (hi : ReloadInv old h s.rules) (hp : reloadPre c h) :
    ReloadInv old (c.note (execM c e s).1 :: h) (execM c e s).2.rules := by
  cases c with
  | readConf => exact hi.quiet rfl rfl
  | fwClear =>
      have ho : offered h = [] := hp
      refine ⟨?_, fun hc => ?_, fun file _ => ?_⟩
      · simp [execM, offered, Note.offers, cleared, MCmd.note, ho]
      · cases hc
      · simp [offered, MCmd.note, Note.offers, ho]
  | fwAdd r =>
      obtain ⟨hc, hpre⟩ := hp
      have ht := hi.table
      rw [if_pos hc] at ht
      refine ⟨?_, fun hc' => ?_, fun file hm => ?_⟩
      · simp only [execM, MCmd.note, cleared, hc, if_true, offered, Note.offers, ht, fwAdd_take]
      · cases hc.symm.trans hc'
      · exact hpre file hm.tail
  | configDefault => exact hi.quiet rfl rfl
  | configSave => exact hi.quiet rfl rfl
  | routerKey p => exact hi.quiet rfl rfl
  | ifaces => exact hi.quiet rfl rfl
  | routeClearStatic => exact hi.quiet rfl rfl
  | routeAdd dest mask gw ifindex => exact hi.quiet rfl rfl
  | routeDeriveConnected => exact hi.quiet rfl rfl
  | _ => cases hp

/-! ### The program -/

/-- The reload still has to offer `rs`. -/
def StillToOffer (rs : List FwRule) (h : List Note) : Prop :=
  cleared h = true ∧ ∀ file, OfFile file h → offered h ++ rs = fileRules file

variable {α : Type} {h : List Note}

/-- A command that offers nothing. -/
theorem StillToOffer.quiet {rs : List FwRule} {n : Note} (hs : StillToOffer rs h)
    (ho : n.offers = []) : StillToOffer rs (n :: h) := by
  refine ⟨?_, fun file hf => ?_⟩
  · cases n <;> first | rfl | exact hs.1
  · rw [offered, ho, List.append_nil]
    exact hs.2 file hf.tail

/-- The judgment on a reload's program. -/
abbrev Reloads (Q : α → List Note → Prop) (p : MAct α) (h : List Note) : Prop :=
  Along MCmd.note reloadPre (fun _ _ _ => True) Q p h

/-- The rule of a line is offered. -/
theorem offer_reloads {r : FwRule} {rs : List FwRule} (hs : StillToOffer (r :: rs) h) :
    Reloads (fun _ h => StillToOffer rs h)
      (Prog.perform (.fwAdd r) >>= fun _ => Prog.ret ()) h := by
  refine along_step ⟨hs.1, fun file hm => ?_⟩ fun ok _ => ⟨hs.1, fun file hm => ?_⟩
  · exact ⟨rs, by rw [← hs.2 file hm, List.append_assoc, List.singleton_append]⟩
  · rw [← hs.2 file hm.tail]
    simp [offered, MCmd.note, Note.offers]

theorem loadLine_reloads (l : List Byte × List Byte) {rs : List FwRule}
    (hs : StillToOffer ((ruleOfLine l).toList ++ rs) h) :
    Reloads (fun _ h => StillToOffer rs h) (loadLine l.1 l.2) h := by
  obtain ⟨sec, p⟩ := l
  dsimp only
  unfold loadLine
  split
  · rename_i hsec
    have hr : ruleOfLine (sec, p) = none := by
      subst hsec
      rfl
    rw [hr] at hs
    exact along_last rfl fun _ _ => hs.quiet rfl
  · split
    · rename_i hsec
      rw [ruleOfLine, if_pos hsec] at hs
      split
      · rename_i r hr
        rw [hr] at hs
        exact offer_reloads hs
      · rename_i hr
        rw [hr] at hs
        exact hs
    · rename_i hfilter
      split
      · rename_i hsec
        rw [ruleOfLine, if_neg hfilter, if_pos hsec] at hs
        split
        · rename_i r hr
          rw [hr] at hs
          exact offer_reloads hs
        · rename_i hr
          rw [hr] at hs
          exact hs
      · rename_i hfirewall
        rw [ruleOfLine, if_neg hfilter, if_neg hfirewall] at hs
        split
        · refine along_step rfl fun ifs _ => ?_
          have hs' := hs.quiet (n := MCmd.ifaces.note ifs) rfl
          split
          · exact along_step rfl fun ok _ => hs'.quiet rfl
          · exact hs'
        · exact hs

theorem loadLines_reloads (ls : List (List Byte × List Byte))
    (hs : StillToOffer (ls.filterMap ruleOfLine) h) :
    Reloads (fun _ h => StillToOffer [] h) (loadLines ls) h := by
  induction ls generalizing h with
  | nil => exact hs
  | cons l ls ih =>
      have hl : StillToOffer ((ruleOfLine l).toList ++ ls.filterMap ruleOfLine) h := by
        rw [List.filterMap_cons] at hs
        cases hr : ruleOfLine l <;> rw [hr] at hs <;> exact hs
      exact ((loadLine_reloads l hl).mono fun _ _ hs => ih hs).bind

/-- `config_load` offers the rules of its file, in order. -/
theorem configLoadSteps_reloads : Reloads (fun _ h => StillToOffer [] h) configLoadSteps [] := by
  refine along_step rfl fun text _ => ?_
  cases text with
  | none =>
      refine along_step rfl fun _ _ => along_step rfl fun _ _ => along_step rfl fun _ _ =>
        along_last rfl fun _ _ => ⟨rfl, fun file hm => ?_⟩
      obtain rfl : none = file := hm none (by simp [MCmd.note])
      rfl
  | some text =>
      refine along_step rfl fun _ _ => along_step rfl fun _ _ => along_step rfl fun _ _ =>
        loadLines_reloads _ ⟨rfl, fun file hm => ?_⟩
      obtain rfl : some text = file := hm _ (by simp [MCmd.note])
      rfl

theorem reload_reloads : Reloads (fun _ _ => True) reload [] := by
  refine (configLoadSteps_reloads.mono fun _ h hs => ?_).bind
  refine along_last ⟨hs.1, fun file hm => ?_⟩ fun _ _ => trivial
  rw [← hs.2 file hm, List.append_nil]

/-! ### Every run -/

section Runs

variable {admin : Manage → Manage → Prop} {x y : Config MCmd Manage (List Note) ℕ Task}
  {old : List FwRule}

/-- The discipline of a reload by the thread 0, while nothing else changes the table. -/
def reloading (old : List FwRule) (hq : ∀ s s', admin s s' → s'.rules = s.rules) :
    Discipline (manage admin) Program.anyStep where
  inv s g := ReloadInv old (g 0) s.rules
  fact _ _ := True
  pre _ t c h _ := t = 0 ∧ reloadPre c h
  rely _ _ _ := True
  rely_refl _ _ := trivial
  rely_trans _ _ := trivial
  fact_of_inv _ _ := trivial
  exec_inv := by
    rintro s g t γ c e hi ⟨rfl, hp⟩ -
    simp only [manage, Function.update_self]
    exact hi.exec e hp
  exec_rely _ _ _ _ _ _ _ _ _ := trivial
  admin_inv hi ha := by rwa [hq _ _ ha]
  admin_rely _ _ _ := trivial

/-- The thread 0 is about to reload, alone. -/
structure Reloading (x : Config MCmd Manage (List Note) ℕ Task) : Prop where
  idle : x.thread 0 = .idle .reload
  alone : ∀ t, t ≠ 0 → x.thread t = .stopped
  fresh : x.ghost 0 = []

/-- A round is started once, with nothing done. -/
def reloadRest (t : ℕ) (l : Task) (h : List Note) (_ : Manage) : Prop := t = 0 ∧ h = [] ∧ l = .reload

theorem reload_good (hq : ∀ s s', admin s s' → s'.rules = s.rules) (hx : Reloading x)
    (hr : Reach (manage admin) Program.anyStep x y) :
    (reloading x.shared.rules hq).Good reloadRest y := by
  refine Discipline.sound (fun _ _ _ _ _ h _ _ => h) ?_ ?_ hr
  · rintro _ _ _ s ⟨rfl, rfl, rfl⟩
    have hend : Reloads (fun r h => ∀ l, r = some l → reloadRest 0 l h s)
        ((fun _ => none) <$> reload) [] :=
      Along.map (reload_reloads.mono fun _ _ _ l hl => nomatch hl)
    exact hend.toOk (D := reloading x.shared.rules hq) (fun _ _ _ _ _ => rfl) (fun _ _ _ _ _ _ => trivial)
      (fun _ _ _ _ hp => ⟨rfl, hp⟩) s
  · refine ⟨⟨?_, fun _ => ?_, fun file hm => ?_⟩, fun t => ?_⟩
    · rw [hx.fresh]
      rfl
    · rw [hx.fresh]
      rfl
    · rw [hx.fresh]
      exact List.nil_prefix
    · by_cases ht : t = 0
      · subst ht
        rw [hx.idle]
        exact ⟨rfl, hx.fresh, rfl⟩
      · rw [hx.alone t ht]
        trivial

/-- **The described table** is what `config_load` leaves. -/
theorem reload_loaded (hq : ∀ s s', admin s s' → s'.rules = s.rules) (hx : Reloading x)
    (hr : Reach (manage admin) Program.anyStep x y) {k : Unit → MAct (Option Task)}
    (hy : y.thread 0 = .running (.cmd .routeDeriveConnected k)) {file : Option (List Byte)}
    (hfile : OfFile file (y.ghost 0)) : y.shared.rules = described file := by
  obtain ⟨hi, ht⟩ := reload_good hq hx hr
  have h₀ := ht 0
  rw [hy] at h₀
  obtain ⟨⟨-, hc, hall⟩, -⟩ := h₀ y.shared trivial trivial
  have htable : y.shared.rules = _ := hi.table
  rw [htable, if_pos hc, hall file hfile, described]

/-- **A reload drops what both tables drop** at every point before `fw_clear`, and again once the
first rule for the frame is added, but at no point between the two. -/
theorem reload_drops_iff (hq : ∀ s s', admin s s' → s'.rules = s.rules) (hx : Reloading x)
    (hr : Reach (manage admin) Program.anyStep x y) {file : Option (List Byte)}
    (hfile : OfFile file (y.ghost 0)) {f : List Byte} {len : ℕ}
    (hold : fwCheck x.shared.rules f len = fwDrop) (hnew : fwCheck (described file) f len = fwDrop) :
    fwCheck y.shared.rules f len = fwDrop ↔
      (cleared (y.ghost 0) = true → firstRule (fileRules file) f len < (offered (y.ghost 0)).length)
    := by
  obtain ⟨hi, -⟩ := reload_good hq hx hr
  have htable : y.shared.rules = _ := hi.table
  rw [described, fwCheck_take] at hnew
  split at hnew
  · rename_i hroom
    cases hc : cleared (y.ghost 0) with
    | false =>
        rw [htable, hc, if_neg (by simp)]
        exact iff_of_true hold fun e => nomatch e
    | true =>
        obtain ⟨rest, hrest⟩ := hi.prefixOf file hfile
        have hpart : offered (y.ghost 0) = (fileRules file).take (offered (y.ghost 0)).length := by
          rw [← hrest, List.take_left]
        rw [htable, hc, if_pos rfl, hpart, List.take_take, fwCheck_take, hnew]
        have hne : fwAllow ≠ fwDrop := by decide
        split
        · refine iff_of_true rfl fun _ => ?_
          rw [← hpart]
          omega
        · refine iff_of_false hne fun h => ?_
          have := h rfl
          rw [← hpart] at this
          omega
  · cases hnew

end Runs

/-- A router that drops everything, about to reload a file that says the same. -/
def closedRouter : Config MCmd Manage (List Note) ℕ Task where
  shared := { Manage.guarded [] (lit "[firewall]\ndrop\n") with rules := [.blank fwDrop] }
  thread t := if t = 0 then .idle .reload else .stopped
  ghost _ := []

theorem closedRouter_reloading : Reloading closedRouter :=
  ⟨rfl, fun _ ht => if_neg ht, rfl⟩

/-- The router after `n` steps of its reload. -/
def closedRouterAt (n : ℕ) : Config MCmd Manage (List Note) ℕ Task :=
  Program.play (manage fun s s' => s'.rules = s.rules) (List.replicate n (0, World.fair)) closedRouter

theorem closedRouterAt_reach (n : ℕ) :
    Reach (manage fun s s' => s'.rules = s.rules) Program.anyStep closedRouter (closedRouterAt n) :=
  Program.play_reach (fun _ _ _ _ _ => trivial) _

/-- An IP header without a payload. -/
def bareFrame : List Byte := List.replicate 14 0 ++ 0x45#8 :: List.replicate 19 0

/-- The frame is dropped again, once the rule is added. -/
theorem reload_drops_again : fwCheck (closedRouterAt 6).shared.rules bareFrame 34 = fwDrop :=
  (reload_drops_iff (fun _ _ h => h) closedRouter_reloading (closedRouterAt_reach 6)
    (show OfFile (some (lit "[firewall]\ndrop\n")) ((closedRouterAt 6).ghost 0) from by
      intro text hm
      have hg : (closedRouterAt 6).ghost 0 = [.fwAdd (.blank fwDrop) true, .quiet, .fwClear,
          .configDefault, .readConf (some (lit "[firewall]\ndrop\n")) ] := rfl
      simpa [hg] using hm)
    (by decide +kernel) (by decide +kernel)).mpr fun _ => by decide +kernel

/-- **A reload lets everything through** between `fw_clear` and the first `fw_add`: the old table
drops the frame, the described one drops it, and the table in between has no rule. -/
theorem reload_gap :
    Reloading closedRouter ∧
      Reach (manage fun s s' => s'.rules = s.rules) Program.anyStep closedRouter (closedRouterAt 4) ∧
      OfFile (some (lit "[firewall]\ndrop\n")) ((closedRouterAt 4).ghost 0) ∧
      fwCheck closedRouter.shared.rules bareFrame 34 = fwDrop ∧
      fwCheck (described (some (lit "[firewall]\ndrop\n"))) bareFrame 34 = fwDrop ∧
      fwCheck (closedRouterAt 4).shared.rules bareFrame 34 = fwAllow := by
  refine ⟨closedRouter_reloading, closedRouterAt_reach 4, fun text hm => ?_, by decide +kernel,
    by decide +kernel, rfl⟩
  have hg : (closedRouterAt 4).ghost 0 = [.fwClear, .configDefault,
      .readConf (some (lit "[firewall]\ndrop\n"))] := rfl
  simpa [hg] using hm

end LinuxRouter
