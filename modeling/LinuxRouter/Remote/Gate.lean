import LinuxRouter.Remote.Parts
import LinuxRouter.Config.Load

/-!
# Remote — the authentication gate

What a connection does before it has been sent the password.

* `Privileged` commands are those behind the gate; `Opened` says that a line with the password has
  been handed to `handle_line`.
* `gated`: in every run whose reads of the password find one of a set of non-empty passwords, no
  thread does anything privileged before its gate is opened with one of them.
* `auth_gate`: so nothing is done on a connection that has not sent the password, if that is fixed.
* `reload_gate`: and while a reload replaces one password by another, a connection is let in by one
  of the two only, if no read falls between them; `reload_opens` is a read that does.

The gate is judged along the program of a connection.  `ConnOk` ties its one bit of state to its
history: a connection that has `authed` set was opened, unless the password was empty when it came.
The only program text that sets the bit is that of `auth`, behind a comparison with what it has just
read; so all that has to be shown of the others is that they do nothing privileged while the bit is
not set.  Since the reads of the password are steps of their own, a reload may fall between the two
that `auth` makes, and the run condition speaks of every read: with a set of passwords for the times
of a reload, and with a single one if the file does not change.
-/

namespace LinuxRouter

open Text (lit nl)
open Program (Prog Along along_step Reach Config)

/-! ### The gate -/

/-- The words of the line are `auth`, a password of the set, and whatever follows. -/
def Authorizes (S : Set (List Byte)) (line : List Byte) : Prop :=
  ∃ pw ∈ S, ∃ ws, Text.words line = lit "auth" :: pw :: ws

/-- Such a line has been handled. -/
def Opened (S : Set (List Byte)) (h : List Note) : Prop :=
  ∃ raw, Note.mark (.line raw) ∈ h ∧ Authorizes S (lineText raw)

/-- What is behind the gate: to be authenticated, `cmd_dispatch`, `config_serialize`, the `putconf`
and `upgrade` commands, and all they lead to. -/
def Note.privileged : Note → Bool
  | .mark (.line _) => false
  | .mark _ => true
  | .serialize => true
  | .dispatch _ => true
  | .fopen _ => true
  | .fwrite _ _ _ => true
  | .fclose _ => true
  | .rename _ => true
  | .unlink => true
  | .upgradeBegin _ => true
  | .upgradeWrite _ _ => true
  | .upgradeFinish _ => true
  | .upgradeExec => true
  | .upgradeAbort => true
  | _ => false

/-- The commands of which the notes are privileged. -/
def MCmd.privileged {β : Type} (c : MCmd β) (a : β) : Bool := (c.note a).privileged

/-- A command behind the gate needs it open. -/
def gatePre (S : Set (List Byte)) : ∀ ⦃β : Type⦄, MCmd β → List Note → Prop :=
  fun _ c h => (∃ a, c.privileged a = true) → Opened S h

/-- The passwords that are read. -/
def gateAns (S : Set (List Byte)) : ∀ ⦃β : Type⦄, MCmd β → β → Prop
  | _, .password, pw => pw ∈ S
  | _, _, _ => True

/-- Everything privileged came after the gate was opened. -/
def Gated (S : Set (List Byte)) (h : List Note) : Prop :=
  ∀ h₁ n h₂, h = h₁ ++ n :: h₂ → n.privileged = true → Opened S h₂

variable {S : Set (List Byte)} {h : List Note} {c : Conn} {α : Type}

/-- A gate that is open stays open. -/
theorem Opened.cons (hO : Opened S h) (n : Note) : Opened S (n :: h) := by
  obtain ⟨raw, hr, ha⟩ := hO
  exact ⟨raw, List.mem_cons_of_mem _ hr, ha⟩

/-- Another note, of something privileged only behind an open gate. -/
theorem Gated.cons (hg : Gated S h) {n : Note} (hn : n.privileged = true → Opened S h) :
    Gated S (n :: h) := by
  intro h₁ m h₂ e hm
  cases h₁ with
  | nil =>
      obtain ⟨rfl, rfl⟩ := List.cons.inj e
      exact hn hm
  | cons n' h₁ =>
      obtain ⟨-, rfl⟩ := List.cons.inj e
      exact hg h₁ m h₂ rfl hm

/-- The judgment on a connection's program. -/
abbrev Guarded (S : Set (List Byte)) (Q : α → List Note → Prop) (p : MAct α) (h : List Note) : Prop :=
  Along MCmd.note (gatePre S) (gateAns S) Q p h

/-- A connection that is past the gate opened it. -/
def ConnOk (S : Set (List Byte)) (c : Conn) (h : List Note) : Prop :=
  c.authed = true ∨ c.binary = true ∨ c.mode ≠ .line → Opened S h

/-- Another note leaves a connection as it should be. -/
theorem ConnOk.cons (hc : ConnOk S c h) (n : Note) : ConnOk S c (n :: h) := fun e => (hc e).cons n

/-- Behind an open gate a connection may have any state. -/
theorem ConnOk.of_opened (hO : Opened S h) : ConnOk S c h := fun _ => hO

/-- A command that is not privileged. -/
theorem gatePre_of_not {β : Type} {c : MCmd β} (hc : ∀ a, c.privileged a = false) :
    gatePre S c h := by
  rintro ⟨a, ha⟩
  rw [hc a] at ha
  cases ha

theorem gatePre_send (s : List Byte) : gatePre S (.send s) h := gatePre_of_not fun _ => rfl

/-- Past the gate every command is allowed. -/
theorem gatePre_of_opened {β : Type} {c : MCmd β} (hO : Opened S h) : gatePre S c h := fun _ => hO

/-- A program past the gate. -/
theorem guarded_of_opened (hO : Opened S h) (p : MAct α) : Guarded S (fun _ h => Opened S h) p h := by
  induction p generalizing h with
  | ret a => exact hO
  | cmd c k ih => exact ⟨gatePre_of_opened hO, fun a _ => ih a (hO.cons _)⟩

/-! ### The functions -/

/-- **`auth`** opens the gate with the password only. -/
theorem handleAuth_goes (hS : [] ∉ S) (hc : ConnOk S c h) {args : List (List Byte)}
    (ha : ∀ arg ∈ args.head?, arg ∈ S → Opened S h) :
    Guarded S (fun c h => ConnOk S c h) (handleAuth c args) h := by
  unfold handleAuth
  refine along_step (gatePre_of_not fun _ => rfl) fun pw hpw => ?_
  have hpw : pw ∈ S := hpw
  have hne : pw ≠ [] := by
    rintro rfl
    exact hS hpw
  simp only [hne, if_false]
  have hrefuse : ∀ {h}, ConnOk S c h →
      Guarded S (fun c h => ConnOk S c h) (sendStr (lit "AUTH_FAIL\r\n") >>= fun _ => .ret c) h :=
    fun hc => along_step (gatePre_send _) fun _ _ => hc.cons _
  cases args with
  | nil => exact hrefuse (hc.cons _)
  | cons arg args =>
      refine along_step (gatePre_of_not fun _ => rfl) fun pw' hpw' => ?_
      split
      · rename_i e
        have hO := ((ha arg rfl (e ▸ hpw')).cons (.password pw)).cons (.password pw')
        exact (guarded_of_opened hO _).mono fun c h hO => ConnOk.of_opened hO
      · exact hrefuse ((hc.cons _).cons _)

/-- **A line** does nothing privileged before the gate is open. -/
theorem handleLine_goes (hS : [] ∉ S) (hc : ConnOk S c h) {line : List Byte}
    (hz : Text.nul ∉ line) (hl : Authorizes S line → Opened S h) :
    Guarded S (fun c h => ConnOk S c h) (handleLine c line) h := by
  unfold handleLine
  split
  · exact along_step (gatePre_send _) fun _ _ => hc.cons _
  · split
    · exact hc
    · rename_i tok args ht
      dsimp only
      split
      · rename_i hf
        exact handleAuth_goes hS hc fun arg harg hS' => hl ⟨arg, hS',
          words_of_tokSplit hz ht (by decide) hf harg⟩
      · split
        · exact along_step (gatePre_send _) fun _ _ => hc.cons _
        · rename_i hauth
          have hO := hc (.inl (by simpa using hauth))
          exact (guarded_of_opened hO _).mono fun c h hO => ConnOk.of_opened hO

theorem processLinesFrom_goes (hS : [] ∉ S) (n : ℕ) (hc : ConnOk S c h) :
    Guarded S (fun c h => ConnOk S c h) (processLinesFrom n c) h := by
  induction n generalizing c h with
  | zero => exact hc
  | succ n ih =>
      unfold processLinesFrom
      split
      · refine along_step (gatePre_of_not fun _ => rfl) fun _ _ => ?_
        refine Along.bind ((handleLine_goes hS (hc.cons _) (Text.nul_notMem_cstr _) ?_).mono ?_)
        · exact fun ha => ⟨_, List.mem_cons_self, ha⟩
        · intro d h hd
          dsimp only
          split
          · exact hd
          · exact ih hd
      · exact hc

/-- What is left when a connection ends. -/
theorem connClose_goes (hc : ConnOk S c h) :
    Guarded S (fun _ h => ConnOk S c h) (connClose c) h := by
  by_cases hm : c.mode = .line
  · unfold connClose
    simp only [hm]
    exact hc
  · exact (guarded_of_opened (hc (.inr (.inr hm))) _).mono fun _ h hO => ConnOk.of_opened hO

/-- The end of a connection's thread. -/
theorem close_goes (hc : ConnOk S c h) {Q : Option Conn → List Note → Prop}
    (hQ : ∀ h, Q none h) : Guarded S Q (connClose c >>= fun _ => .ret none) h :=
  Along.bind ((connClose_goes hc).mono fun _ h _ => hQ h)

theorem connRound_goes (hS : [] ∉ S) (hc : ConnOk S c h) :
    Guarded S (fun r h => ∀ c, r = some c → ConnOk S c h) (connRound c) h := by
  have hnone : ∀ h, ∀ c, (none : Option Conn) = some c → ConnOk S c h := fun _ _ e => nomatch e
  unfold connRound
  split
  · exact close_goes hc hnone
  · refine along_step (gatePre_of_not fun _ => rfl) fun stop _ => ?_
    split
    · exact close_goes (hc.cons _) hnone
    · refine along_step (gatePre_of_not fun _ => rfl) fun bytes _ => ?_
      split
      · exact close_goes ((hc.cons _).cons _) hnone
      · dsimp only
        split
        · rename_i hb
          have hO := ((hc (.inr (.inl hb))).cons .quiet).cons
            (.recv (ibufSize - c.ibuf.length) bytes)
          exact (guarded_of_opened hO _).mono fun _ h hO _ _ => ConnOk.of_opened hO
        · have hc' : ConnOk S { c with ibuf := c.ibuf ++ bytes }
              (.recv (ibufSize - c.ibuf.length) bytes :: .quiet :: h) := (hc.cons _).cons _
          unfold pumpLines
          split
          · exact along_step (gatePre_send _) fun _ _ => close_goes (hc'.cons _) hnone
          · refine Along.map ((processLinesFrom_goes hS _ hc').mono fun d h hd d' e => ?_)
            obtain rfl := Option.some.inj e
            exact hd

/-- A new connection is open only without a password. -/
theorem connStart_goes (hS : [] ∉ S) : Guarded S (fun c h => ConnOk S c h) connStart h := by
  unfold connStart
  refine along_step (gatePre_send _) fun _ _ => along_step (gatePre_of_not fun _ => rfl) fun pw hpw => ?_
  have hne : pw ≠ [] := by
    rintro rfl
    exact hS hpw
  intro e
  simp [Conn.init, hne] at e

theorem reload_goes : Guarded S (fun _ _ => True) reload h := by
  refine Along.of_every (R := fun _ _ => True) (fun _ => trivial) ?_ (fun _ _ _ _ _ _ _ => trivial)
    reload_every h
  intro β c h h' hc _
  refine gatePre_of_not fun a => ?_
  cases c <;> first | rfl | cases hc

/-! ### Runs -/

/-- Every read of the password finds one of the set. -/
def readsIn (S : Set (List Byte)) : ∀ ⦃β : Type⦄, ℕ → MCmd β → World → Manage → Prop
  | _, _, .password, _, s => s.settings.cfg.password.1 ∈ S
  | _, _, _, _, _ => True

/-- **Nothing privileged happens on a connection before its gate is opened**, if every read of the
password finds one of the set. -/
theorem gated (hS : [] ∉ S) {admin : Manage → Manage → Prop}
    {x y : Config MCmd Manage (List Note) ℕ Task} (hx : Started x)
    (hr : Reach (manage admin) (readsIn S) x y) (t : ℕ) :
    Gated S (y.ghost t) ∧ ∀ c, y.thread t = .idle (.pump c) → ConnOk S c (y.ghost t) := by
  have hans : ∀ ⦃β : Type⦄ t (c : MCmd β) e s, readsIn S t c e s → gateAns S c (execM c e s).1 := by
    intro β t c e s hok
    cases c <;> trivial
  have hinv : ∀ ⦃β : Type⦄ (c : MCmd β) a h, Gated S h → gatePre S c h → gateAns S c a →
      Gated S (c.note a :: h) :=
    fun β c a h hg hp _ => hg.cons fun ha => hp ⟨a, ha⟩
  have hempty : Gated S [] := fun h₁ n h₂ e => absurd e (by simp)
  obtain ⟨hg, ht⟩ := manage_along hans hinv hempty (connStart_goes hS)
    (fun c h hc => connRound_goes hS hc) (fun h => reload_goes) hx hr t
  refine ⟨hg, fun c hc => ?_⟩
  rw [hc] at ht
  exact ht

/-- A change from outside that leaves the password alone. -/
def samePassword (s s' : Manage) : Prop :=
  s'.settings.cfg.password = s.settings.cfg.password

/-- A command that leaves the password alone. -/
def keepsPassword : ∀ ⦃β : Type⦄, ℕ → MCmd β → World → Manage → Prop :=
  fun _ _ c e s => samePassword s (execM c e s).2

/-- A run in which the password stays fixed reads nothing else. -/
theorem readsIn_of_keeps {x y : Config MCmd Manage (List Note) ℕ Task}
    (hr : Reach (manage samePassword) keepsPassword x y) :
    Reach (manage samePassword) (readsIn {x.shared.settings.cfg.password.1}) x y ∧
      y.shared.settings.cfg.password = x.shared.settings.cfg.password := by
  induction hr with
  | refl => exact ⟨.refl, rfl⟩
  | @tail y z _ hs ih =>
      obtain ⟨hr, hp⟩ := ih
      cases hs with
      | start t ht => exact ⟨hr.tail (.start t ht), hp⟩
      | @exec t β c k e ht hok =>
          refine ⟨hr.tail (.exec t e ht ?_), hok.trans hp⟩
          cases c <;> first | trivial | exact congrArg Subtype.val hp
      | finish t ht => exact ⟨hr.tail (.finish t ht), hp⟩
      | admin ha => exact ⟨hr.tail (.admin ha), ha.trans hp⟩

/-- **The gate**: while the password is fixed and not empty, a connection that has not been sent a
line of `auth` and the password does nothing privileged, and is neither authenticated nor in a
payload. -/
theorem auth_gate {x y : Config MCmd Manage (List Note) ℕ Task} (hx : Started x)
    (hpw : x.shared.settings.cfg.password.1 ≠ [])
    (hr : Reach (manage samePassword) keepsPassword x y) {t : ℕ}
    (hn : ∀ raw, Note.mark (.line raw) ∈ y.ghost t →
      ¬ Authorizes {x.shared.settings.cfg.password.1} (lineText raw)) :
    (∀ n ∈ y.ghost t, n.privileged = false) ∧
      ∀ c, y.thread t = .idle (.pump c) → c.authed = false ∧ c.binary = false := by
  have hS : [] ∉ ({x.shared.settings.cfg.password.1} : Set (List Byte)) :=
    fun e => hpw (Set.mem_singleton_iff.mp e).symm
  obtain ⟨hg, hc⟩ := gated hS hx (readsIn_of_keeps hr).1 t
  have hno : ¬ Opened {x.shared.settings.cfg.password.1} (y.ghost t) := by
    rintro ⟨raw, hr, ha⟩
    exact hn raw hr ha
  constructor
  · intro n hmem
    obtain ⟨h₁, h₂, e⟩ := List.append_of_mem hmem
    by_contra hp
    obtain ⟨raw, hr, ha⟩ := hg h₁ n h₂ e (by simpa using hp)
    exact hno ⟨raw, by rw [e]; simp [hr], ha⟩
  · intro c e
    constructor
    · by_contra h
      exact hno (hc c e (.inl (by simpa using h)))
    · by_contra h
      exact hno (hc c e (.inr (.inl (by simpa using h))))

/-- A reload and a connection about to be accepted. -/
def guarding (password file : List Byte) : Config MCmd Manage (List Note) ℕ Task where
  shared := .guarded password file
  thread t := if t = 0 then .idle .reload else if t = 1 then .idle .accept else .stopped
  ghost _ := []

/-- The router with a password, before anybody has connected. -/
theorem guarding_started (password file : List Byte) : Started (guarding password file) := by
  intro t
  refine ⟨rfl, ?_⟩
  simp only [guarding]
  split
  · exact .inr (.inl rfl)
  · split
    · exact .inl rfl
    · exact .inr (.inr rfl)

/-- A connection that sends `putconf 5` at once. -/
theorem auth_gate_putconf :
    let y := Program.play (manage samePassword)
      (List.replicate 6 (1, .fair) ++ [(1, { World.fair with recv := lit "putconf 5\n" })] ++
        List.replicate 3 (1, .fair)) (guarding (lit "pw") [])
    (∀ n ∈ y.ghost 1, n.privileged = false) ∧
      ∀ c, y.thread 1 = .idle (.pump c) → c.authed = false ∧ c.binary = false := by
  intro y
  have hr : Reach (manage samePassword) keepsPassword (guarding (lit "pw") []) y :=
    Program.PlayOk.reach ⟨trivial, rfl, rfl, trivial, trivial, rfl, rfl, rfl, rfl, trivial, trivial⟩
  refine auth_gate (guarding_started _ _) (by decide) hr fun raw hraw => ?_
  have hg : y.ghost 1 = [.send (lit "AUTH_REQUIRED\r\n"), .mark (.line (lit "putconf 5")),
      .recv 16384 (lit "putconf 5\n"), .quiet, .password (lit "pw"),
      .send (lit "MOTD RTR v1.0\r\n")] := rfl
  obtain rfl : raw = lit "putconf 5" := by simpa [hg] using hraw
  rintro ⟨pw, -, ws, hw⟩
  have hwords : Text.words (lineText (lit "putconf 5")) = [lit "putconf", lit "5"] := by
    decide +kernel
  rw [hwords] at hw
  exact absurd (List.cons.inj hw).1 (by decide)

/-! ### Reloading -/

/-- **The gate during a reload**: if every read of the password finds the old or the new one, a
connection is authenticated only after a line of `auth` and one of the two. -/
theorem reload_gate {old new : List Byte} (ho : old ≠ []) (hn : new ≠ [])
    {admin : Manage → Manage → Prop} {x y : Config MCmd Manage (List Note) ℕ Task}
    (hx : Started x) (hr : Reach (manage admin) (readsIn {old, new}) x y) (t : ℕ) :
    (∀ h₁ h₂, y.ghost t = h₁ ++ .mark .authed :: h₂ → Opened {old, new} h₂) ∧
      ∀ c, y.thread t = .idle (.pump c) → c.authed = true → Opened {old, new} (y.ghost t) := by
  have hS : [] ∉ ({old, new} : Set (List Byte)) := by
    rintro (e | e)
    · exact ho e.symm
    · exact hn (Set.mem_singleton_iff.mp e).symm
  obtain ⟨hg, hc⟩ := gated hS hx hr t
  exact ⟨fun h₁ h₂ e => hg h₁ _ h₂ e rfl, fun c e ha => hc c e (.inl ha)⟩

/-- A connection that sends the old password before the reload starts. -/
theorem reload_gate_old :
    let y := Program.play (manage samePassword)
      (List.replicate 6 (1, .fair) ++ [(1, { World.fair with recv := lit "auth old\n" })] ++
        List.replicate 6 (1, .fair)) (guarding (lit "old") (lit "[router]\npassword=new\n"))
    Opened {lit "old", lit "new"} (y.ghost 1) := by
  intro y
  have hr : Reach (manage samePassword) (readsIn {lit "old", lit "new"})
      (guarding (lit "old") (lit "[router]\npassword=new\n")) y :=
    Program.PlayOk.reach ⟨trivial, trivial, .inl rfl, trivial, trivial, trivial, trivial, trivial,
      .inl rfl, .inl rfl, trivial, trivial, trivial, trivial⟩
  exact (reload_gate (by decide) (by decide) (guarding_started _ _) hr 1).2 _ rfl rfl

/-- A connection that is accepted after the `config_default` of a reload is authenticated without a
word, although the router had a password and will have one. -/
theorem reload_opens :
    ∃ y, Reach (manage samePassword) Program.anyStep
        (guarding (lit "old") (lit "[router]\npassword=new\n")) y ∧
      (configLoad (lit "[router]\npassword=new\n") .fresh).cfg.password.1 = lit "new" ∧
      (∀ raw, Note.mark (.line raw) ∉ y.ghost 1) ∧
      ∃ c, y.thread 1 = .idle (.pump c) ∧ c.authed = true := by
  refine ⟨_, Program.play_reach (w := [(0, .fair), (0, .fair), (0, .fair), (1, .fair), (1, .fair),
    (1, .fair), (1, .fair)]) (fun _ _ _ _ _ => trivial) _, by decide +kernel, ?_, _, rfl, rfl⟩
  intro raw h
  have hg : ∀ n : Note, n ∈ [Note.password [], .send (lit "MOTD RTR v1.0\r\n")] →
      n ≠ .mark (.line raw) := by simp
  exact hg _ h rfl

end LinuxRouter
