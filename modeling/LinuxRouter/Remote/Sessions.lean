import LinuxRouter.Remote.Gate

/-!
# Remote — upgrade sessions

Whose upgrade session it is.  The session is global and has no owner; `owns` reads from a
connection's history whether it has one.

* `SessionOk`: a connection has a session exactly while it is receiving an upgrade.
* `sessions_isolated`: in every run in which `upgrade_abort` meets no session but that of its own
  connection, each session has one owner, and nobody else's calls change it.
* `session_lost` is a run in which a connection whose own upgrade has failed takes away another's.

There is one `g_up` for all connections, and what keeps them apart is that each of them calls
`upgrade_write` and `upgrade_finish` only while it is receiving an upgrade itself.  That is a
judgment along its program (`connRound_minds`): it owns a session from an `upgrade_begin` that
succeeded to a `finish` or `abort`, and is in a payload of that mode exactly as long.  Of the shared
state, over a run: if a session is in progress, one connection owns it, and no other (`OneSession`).
An `upgrade_begin` keeps this because it fails while there is a session; `upgrade_abort` is the one
call that asks nothing of its caller, and the run condition is about it.
-/

namespace LinuxRouter

open Text (lit)
open Program (Prog Along along_step along_last along_sound Reach ReachIf Config)

/-! ### Ownership -/

/-- The connection has begun a session that is not over. -/
def owns : List Note → Bool
  | [] => false
  | .upgradeBegin ok :: h => ok || owns h
  | .upgradeFinish _ :: _ => false
  | .upgradeAbort :: _ => false
  | _ :: h => owns h

/-- The calls on the session. -/
def MCmd.onSession {β : Type} : MCmd β → Bool
  | .upgradeBegin _ _ => true
  | .upgradeWrite _ => true
  | .upgradeFinish => true
  | .upgradeAbort => true
  | _ => false

/-- What a connection ensures before a call. -/
def ownPre : ∀ ⦃β : Type⦄, MCmd β → List Note → Prop
  | _, .upgradeBegin _ _, h => owns h = false
  | _, .upgradeWrite _, h => owns h = true
  | _, .upgradeFinish, h => owns h = true
  | _, _, _ => True

variable {h h' : List Note} {c : Conn} {α : Type}

/-- A note that is not about sessions. -/
theorem owns_note {β : Type} {c : MCmd β} (hc : c.onSession = false) (a : β) (h : List Note) :
    owns (c.note a :: h) = owns h := by
  cases c <;> first | rfl | cases hc

/-- A command that is not about sessions may always come. -/
theorem ownPre_of_not {β : Type} {c : MCmd β} (hc : c.onSession = false) : ownPre c h := by
  cases c <;> trivial

/-- The judgment on a connection's program. -/
abbrev Minds (Q : α → List Note → Prop) (p : MAct α) (h : List Note) : Prop :=
  Along MCmd.note ownPre (fun _ _ _ => True) Q p h

/-- Such a command at the front of a program. -/
theorem mind_step {β : Type} {c : MCmd β} {f : β → MAct α} {Q : α → List Note → Prop}
    (hc : c.onSession = false) (hf : ∀ a h', owns h' = owns h → Minds Q (f a) h') :
    Minds Q (Prog.perform c >>= f) h :=
  along_step (ownPre_of_not hc) fun a _ => hf a _ (owns_note hc a h)

/-- A program without a call on the session. -/
theorem Minds.of_every {p : MAct α} (hp : p.Every fun _ c => c.onSession = false)
    (h : List Note) : Minds (fun _ h' => owns h' = owns h) p h := by
  refine Along.of_every (R := fun h h' => owns h' = owns h) (fun _ => rfl) ?_ ?_ hp h
  · intro β c h h' hc _
    exact ownPre_of_not hc
  · intro β c a h h' hc hr
    exact (owns_note hc a h').trans hr

/-- A connection has a session exactly while it is receiving an upgrade. -/
def SessionOk (c : Conn) (h : List Note) : Prop :=
  owns h = true ↔ c.binary = true ∧ c.mode = .upgrade

/-- Without a session and without a payload. -/
theorem SessionOk.idle (ho : owns h = false) (hb : c.binary = false) : SessionOk c h := by
  simp [SessionOk, ho, hb]

/-- In line mode a connection has no session. -/
theorem SessionOk.not_owns (hc : SessionOk c h) (hb : c.binary = false) : owns h = false := by
  by_contra ho
  have := (hc.mp (by simpa using ho)).1
  rw [hb] at this
  cases this

/-! ### The functions -/

/-- Lines that announce nothing leave the session alone. -/
theorem plainOk_owns : PlainOk ownPre fun h => owns h = false := by
  intro β c h hc ho
  have hc' : c.onSession = false := by
    cases c <;> first | rfl | cases hc
  exact ⟨ownPre_of_not hc', fun a => (owns_note hc' a h).trans ho⟩

theorem handlePutconf_minds (hb : c.binary = false) (ho : owns h = false) (arg : List Byte) :
    Minds SessionOk (handlePutconf c arg) h := by
  unfold handlePutconf
  dsimp only
  split
  · exact mind_step rfl fun _ _ o₁ => SessionOk.idle (o₁.trans ho) hb
  · refine mind_step rfl fun f _ o₁ => ?_
    cases f with
    | none => exact mind_step rfl fun _ _ o₂ => SessionOk.idle ((o₂.trans o₁).trans ho) hb
    | some f =>
        refine mind_step rfl fun _ _ o₂ => mind_step rfl fun _ _ o₃ => ?_
        have hno := ((o₃.trans o₂).trans o₁).trans ho
        exact ⟨fun e => absurd (e.symm.trans hno) (by simp), fun e => nomatch e.2⟩

/-- **`upgrade`** begins one exactly if it goes over to the payload. -/
theorem handleUpgrade_minds (hb : c.binary = false) (ho : owns h = false) (arg sha : List Byte) :
    Minds SessionOk (handleUpgrade c arg sha) h := by
  unfold handleUpgrade
  refine along_step ho fun err _ => ?_
  cases err with
  | some err => exact mind_step rfl fun _ _ o₁ => SessionOk.idle (o₁.trans ho) hb
  | none =>
      exact mind_step rfl fun _ _ o₁ => mind_step rfl fun _ _ o₂ =>
        iff_of_true (o₂.trans o₁) ⟨rfl, rfl⟩

theorem processLinesFrom_minds (n : ℕ) (hb : c.binary = false) (ho : owns h = false) :
    Minds SessionOk (processLinesFrom n c) h := by
  refine processLinesFrom_along (fun c h raw rest hc hb _ _ => ⟨trivial, ?_⟩) n
    (SessionOk.idle ho hb) hb
  have ho : owns (.mark (.line raw) :: h) = false := hc.not_owns hb
  refine handleLine_along plainOk_owns ho ?_ (Text.nul_notMem_cstr _) ?_ ?_
  · exact fun d h' ha ho => SessionOk.idle ho (ha.binary.trans hb)
  · exact fun arg _ _ => handlePutconf_minds hb ho arg
  · exact fun arg sha _ _ => handleUpgrade_minds hb ho arg sha

/-- At the end of a connection only a call of `upgrade_abort` is made. -/
theorem connClose_minds (c : Conn) (h : List Note) : Minds (fun _ _ => True) (connClose c) h := by
  unfold connClose
  split
  · exact mind_step rfl fun _ _ _ => along_last trivial fun _ _ => trivial
  · exact along_last trivial fun _ _ => trivial
  · trivial

/-- A connection that goes on is in order. -/
def SessionsOn (r : Option Conn) (h : List Note) : Prop := ∀ c, r = some c → SessionOk c h

/-- A connection that has ended has no session. -/
theorem sessionsOn_none (h : List Note) : SessionsOn none h := fun _ e => nomatch e

/-- A connection without a session ends. -/
theorem close_minds : Minds SessionsOn (connClose c >>= fun _ => .ret none) h :=
  Along.bind ((connClose_minds c h).mono fun _ h' _ => sessionsOn_none h')

theorem processLines_minds (hb : c.binary = false) (ho : owns h = false) :
    Minds SessionsOn (some <$> processLines c) h := by
  refine Along.map ((processLinesFrom_minds _ hb ho).mono fun d h' hd e he => ?_)
  obtain rfl := Option.some.inj he
  exact hd

theorem pumpLines_minds (hb : c.binary = false) (ho : owns h = false) :
    Minds SessionsOn (pumpLines c) h := by
  unfold pumpLines
  split
  · exact mind_step rfl fun _ _ _ => close_minds
  · exact processLines_minds hb ho

/-- A part of a payload; a session is not over after it. -/
theorem binWrite_minds (hm : owns h = true ↔ c.mode = .upgrade) (p : List Byte) :
    Minds (fun r h' => r.2.binary = c.binary ∧ r.2.mode = c.mode ∧ owns h' = owns h)
      (binWrite c p) h := by
  unfold binWrite
  refine mind_step rfl fun _ _ o₁ => ?_
  split
  · exact mind_step rfl fun _ _ o₂ => ⟨rfl, rfl, o₂.trans o₁⟩
  · exact ⟨rfl, rfl, o₁⟩
  · rename_i hmode
    refine along_step (o₁.trans (hm.mpr hmode)) fun err _ => ?_
    cases err with
    | none => exact ⟨rfl, rfl, o₁⟩
    | some err => exact mind_step rfl fun _ _ o₂ => ⟨rfl, rfl, o₂.trans o₁⟩
  · exact ⟨rfl, rfl, o₁⟩

/-- A reload is not about sessions. -/
theorem onSession_of_config {β : Type} {c : MCmd β} (hc : c.ofConfig = true) :
    c.onSession = false := by
  cases c <;> first | rfl | cases hc

/-- `bin_finish` leaves no session. -/
theorem binFinish_minds (hb : c.binary = false) (hm : owns h = true ↔ c.mode = .upgrade) :
    Minds (fun r h' => ∀ d, r = .done d → d.binary = false ∧ owns h' = false) (binFinish c) h := by
  have hno : c.mode ≠ .upgrade → owns h = false := fun hne => by
    by_contra ho
    exact hne (hm.mp (by simpa using ho))
  unfold binFinish
  refine mind_step rfl fun _ _ o₁ => ?_
  split
  · rename_i hmode
    have ho := hno (by simp [hmode])
    have hgo : ∀ {h'}, owns h' = false →
        Minds (fun r h' => ∀ d, r = .done d → d.binary = false ∧ owns h' = false)
          (finishPutconf { c with pcfp := none }) h' := by
      intro h' ho
      refine mind_step rfl fun ok _ o₁ => ?_
      cases ok with
      | false => exact mind_step rfl fun _ _ _ => mind_step rfl fun _ _ _ _ e => nomatch e
      | true =>
          refine Along.bind ((Minds.of_every ?_ _).mono fun _ h₂ o₂ => ?_)
          · exact Prog.Every.mono configLoadSteps_every fun _ _ hc => onSession_of_config hc
          · refine mind_step rfl fun _ _ o₃ => mind_step rfl fun _ _ o₄ d e => ?_
            cases e
            exact ⟨hb, (((o₄.trans o₃).trans o₂).trans o₁).trans ho⟩
    split
    · exact mind_step rfl fun _ _ o₂ => hgo ((o₂.trans o₁).trans ho)
    · exact hgo (o₁.trans ho)
  · rename_i hmode
    refine along_step (o₁.trans (hm.mpr hmode)) fun err _ => ?_
    cases err with
    | some err => exact mind_step rfl fun _ _ _ _ e => nomatch e
    | none =>
        refine mind_step rfl fun _ _ o₂ => mind_step rfl fun ok _ o₃ => ?_
        cases ok with
        | true => exact fun _ e => nomatch e
        | false =>
            rintro d ⟨⟩
            exact ⟨hb, o₃.trans o₂⟩
  · rename_i hmode
    rintro d ⟨⟩
    exact ⟨hb, o₁.trans (hno (by simp [hmode]))⟩

/-- **A turn with a payload**, which may end the session. -/
theorem pumpBinary_minds (hc : SessionOk c h) (hb : c.binary = true) :
    Minds SessionsOn (pumpBinary c) h := by
  have hm : owns h = true ↔ c.mode = .upgrade := by simpa [SessionOk, hb] using hc
  rw [pumpBinary_eq]
  have hwrite : Minds (fun r h' => r.2.binary = c.binary ∧ r.2.mode = c.mode ∧ owns h' = owns h)
      (if min c.ibuf.length c.bleft = 0 then .ret (true, c)
        else binWrite c (c.ibuf.take (min c.ibuf.length c.bleft))) h := by
    split
    · exact ⟨rfl, rfl, rfl⟩
    · exact binWrite_minds hm _
  refine Along.bind (hwrite.mono ?_)
  rintro ⟨ok, d⟩ h₁ ⟨hbin, hmode, ho⟩
  simp only at hbin hmode
  have hm₁ : owns h₁ = true ↔ d.mode = .upgrade := by rw [ho, hmode, hm]
  cases ok with
  | false => exact close_minds
  | true =>
      simp only [pumpAfter, Bool.not_true, Bool.false_eq_true, if_false]
      split
      · intro e he
        obtain rfl := Option.some.inj he
        simpa [SessionOk, hbin, hb] using hm₁
      · refine Along.bind ((binFinish_minds (c := { d with
          ibuf := d.ibuf.drop _, bleft := d.bleft - _, binary := false }) rfl hm₁).mono
            fun r h₂ hr => ?_)
        cases r with
        | failed e => exact close_minds
        | replaced => exact sessionsOn_none h₂
        | done e => exact processLines_minds (hr e rfl).1 (hr e rfl).2

/-- **A turn** of a connection. -/
theorem connRound_minds (hc : SessionOk c h) : Minds SessionsOn (connRound c) h := by
  unfold connRound
  split
  · exact close_minds
  · refine mind_step rfl fun stop _ o₁ => ?_
    split
    · exact close_minds
    · refine mind_step rfl fun bytes _ o₂ => ?_
      split
      · exact close_minds
      · dsimp only
        split
        · rename_i hb
          refine pumpBinary_minds ?_ hb
          simpa [SessionOk, o₂.trans o₁] using hc
        · rename_i hb
          have hb' : c.binary = false := by simpa using hb
          exact pumpLines_minds hb' ((o₂.trans o₁).trans (hc.not_owns hb'))

/-- A new connection has no session. -/
theorem connStart_minds : Minds SessionOk connStart [] :=
  mind_step rfl fun _ _ o₁ => mind_step rfl fun _ _ o₂ => SessionOk.idle (o₂.trans o₁) rfl

/-! ### Runs -/

variable {admin : Manage → Manage → Prop} {x y z : Config MCmd Manage (List Note) ℕ Task}

/-- A connection about to make a call has what the call needs. -/
theorem ownPre_run (hx : Started x) (hr : Reach (manage admin) Program.anyStep x y) {t : ℕ}
    {β : Type} {c : MCmd β} {k : β → MAct (Option Task)} (ht : y.thread t = .running (.cmd c k)) :
    ownPre c (y.ghost t) := by
  have hreload : ∀ h, Minds (fun _ _ => True) reload h := fun h =>
    (Minds.of_every (Prog.Every.mono reload_every fun _ _ hc => onSession_of_config hc) h).mono
      fun _ _ _ => trivial
  have hm := (manage_along (I := fun _ => True) (fun _ _ _ _ _ _ => trivial)
    (fun _ _ _ _ _ _ _ => trivial) trivial connStart_minds (fun c h hc => connRound_minds hc)
    hreload hx hr t).2
  rw [ht] at hm
  exact hm.1

/-! ### The calls -/

/-- `upgrade_begin` while there is a session. -/
theorem begin_busy {o : FileCalls} {sha : List Byte} {size : ℕ} {u : Upgrade} {fs : Disk}
    (hu : u.inProgress = true) : (upgradeBegin o sha size u fs).2 = (u, fs) ∧
      (upgradeBegin o sha size u fs).1.isNone = false := by
  unfold upgradeBegin
  split <;> exact ⟨rfl, rfl⟩

theorem begin_free {o : FileCalls} {sha : List Byte} {size : ℕ} {u : Upgrade} {fs : Disk}
    (hu : u.inProgress = false) : (upgradeBegin o sha size u fs).2.1.inProgress =
      (upgradeBegin o sha size u fs).1.isNone := by
  unfold upgradeBegin
  split
  · exact hu
  · simp only [hu, Bool.false_eq_true, if_false]
    split
    · exact hu
    · exact hu
    · split
      · rfl
      · split
        · split <;> rfl
        · rfl

/-- A write leaves the session in progress or not. -/
theorem write_inProgress (o : FileCalls) (p : List Byte) (u : Upgrade) (fs : Disk) :
    (upgradeWrite o p u fs).2.1.inProgress = u.inProgress := by
  unfold upgradeWrite
  split
  · rfl
  · dsimp only
    split
    · rfl
    · split <;> rfl

theorem finish_inProgress (o : FileCalls) (u : Upgrade) (fs : Disk) :
    (upgradeFinish o u fs).2.1.inProgress = false := by
  unfold upgradeFinish
  split
  · assumption
  · split
    · rfl
    · split
      · rfl
      · dsimp only
        generalize (if u.haveSha = true then { u with hc := sha256Init } else u) = v
        split
        · rfl
        · split
          · rfl
          · split <;> rfl

theorem abort_inProgress (u : Upgrade) (fs : Disk) : (upgradeAbort u fs).1.inProgress = false := by
  unfold upgradeAbort
  split
  · rfl
  · rename_i hu
    simpa using hu

/-- What else a connection does leaves `g_up` alone. -/
theorem up_of_not {β : Type} {c : MCmd β} (hc : c.onSession = false) (e : World) (s : Manage) :
    (execM c e s).2.up = s.up := by
  cases c <;> first | rfl | (simp only [execM]; split <;> rfl) | cases hc

/-! ### Isolation -/

/-- `upgrade_abort` meets no session but one of its own connection. -/
def abortsOwn (g : ℕ → List Note) : ∀ ⦃β : Type⦄, ℕ → MCmd β → World → Manage → Prop
  | _, t, .upgradeAbort, _, s => s.up.inProgress = true → owns (g t) = true
  | _, _, _, _, _ => True

/-- A session has one owner, and an owner has a session. -/
structure OneSession (s : Manage) (g : ℕ → List Note) : Prop where
  one : ∀ t t', owns (g t) = true → owns (g t') = true → t = t'
  iff : s.up.inProgress = true ↔ ∃ t, owns (g t) = true

/-- A change from outside that leaves the session alone. -/
def sameSession (s s' : Manage) : Prop := s'.up = s.up

/-- Nothing has happened to the session or its owner. -/
theorem OneSession.of_same {s s' : Manage} {g g' : ℕ → List Note} (h : OneSession s g)
    (hs : s'.up.inProgress = s.up.inProgress) (hg : ∀ t, owns (g' t) = owns (g t)) :
    OneSession s' g' := by
  refine ⟨fun t t' => ?_, ?_⟩
  · rw [hg, hg]
    exact h.one t t'
  · rw [hs, h.iff]
    simp only [hg]

/-- After the session's end. -/
theorem OneSession.of_ended {s s' : Manage} {g : ℕ → List Note} {t : ℕ} {n : Note} (h : OneSession s g)
    (ht : s.up.inProgress = true → owns (g t) = true) (hs : s'.up.inProgress = false)
    (hn : owns (n :: g t) = false) : OneSession s' (Function.update g t (n :: g t)) := by
  have hnone : ∀ t', owns (Function.update g t (n :: g t) t') = false := by
    intro t'
    by_cases e : t' = t
    · rw [e, Function.update_self]
      exact hn
    · rw [Function.update_of_ne e]
      by_contra ho
      have ho : owns (g t') = true := by simpa using ho
      exact e (h.one t' t ho (ht (h.iff.mpr ⟨t', ho⟩)))
  refine ⟨fun t' _ ho => absurd (ho.symm.trans (hnone t')) (by simp), ?_⟩
  rw [hs]
  refine ⟨fun e => (nomatch e), fun ⟨t', ho⟩ => absurd (ho.symm.trans (hnone t')) (by simp)⟩

/-- A call keeps the owner. -/
theorem OneSession.exec {s : Manage} {g : ℕ → List Note} {t : ℕ} {β : Type} {c : MCmd β} {e : World}
    (h : OneSession s g) (hp : ownPre c (g t)) (hok : abortsOwn g t c e s) :
    OneSession (execM c e s).2 (Function.update g t (c.note (execM c e s).1 :: g t)) := by
  have hkeep : ∀ {n : Note} {s' : Manage}, owns (n :: g t) = owns (g t) →
      s'.up.inProgress = s.up.inProgress → OneSession s' (Function.update g t (n :: g t)) := by
    intro n s' hn hs
    refine h.of_same hs fun t' => ?_
    by_cases e : t' = t
    · rw [e, Function.update_self, hn]
    · rw [Function.update_of_ne e]
  cases c with
  | upgradeBegin sha size =>
      have hno : owns (g t) = false := hp
      simp only [execM, MCmd.note]
      cases hu : s.up.inProgress with
      | true =>
          obtain ⟨h₂, h₁⟩ := @begin_busy e.toFileCalls sha size s.up s.disk hu
          rw [h₁, h₂]
          exact hkeep rfl rfl
      | false =>
          have hb := @begin_free e.toFileCalls sha size s.up s.disk hu
          cases hr : (upgradeBegin e.toFileCalls sha size s.up s.disk).1.isNone with
          | false => exact hkeep rfl ((hb.trans hr).trans hu.symm)
          | true =>
              have hnone : ∀ t', owns (g t') = false := by
                intro t'
                by_contra ho
                have := h.iff.mpr ⟨t', by simpa using ho⟩
                rw [hu] at this
                cases this
              have howner : ∀ t', owns (Function.update g t (.upgradeBegin true :: g t) t') = true →
                  t' = t := by
                intro t' ho
                by_contra e
                rw [Function.update_of_ne e, hnone] at ho
                cases ho
              refine ⟨fun a b ha hb' => (howner a ha).trans (howner b hb').symm, ?_⟩
              refine iff_of_true (hb.trans hr) ⟨t, ?_⟩
              rw [Function.update_self]
              rfl
  | upgradeWrite p => exact hkeep rfl (write_inProgress _ _ _ _)
  | upgradeFinish => exact h.of_ended (fun _ => hp) (finish_inProgress _ _ _) rfl
  | upgradeAbort => exact h.of_ended hok (abort_inProgress _ _) rfl
  | _ => exact hkeep rfl (congrArg Upgrade.inProgress (up_of_not rfl e s))

/-- **One step** of a run keeps the session with its owner. -/
theorem OneSession.step (hx : Started x) (hr : Reach (manage sameSession) Program.anyStep x y)
    (h : OneSession y.shared y.ghost) (hs : Program.Step (manage sameSession) (abortsOwn y.ghost) y z) :
    OneSession z.shared z.ghost := by
  cases hs with
  | start t ht => exact h
  | exec t e ht hok => exact h.exec (ownPre_run hx hr ht) hok
  | finish t ht => exact h
  | admin ha => exact h.of_same (congrArg Upgrade.inProgress ha) fun _ => rfl

/-- **Every run** does. -/
theorem owned_run (hx : Started x) (hu : x.shared.up.inProgress = false)
    (hr : ReachIf (manage sameSession) abortsOwn x y) : OneSession y.shared y.ghost := by
  have hinit : OneSession x.shared x.ghost := by
    have hno : ∀ t, owns (x.ghost t) = false := fun t => by rw [(hx t).1]; rfl
    refine ⟨fun t _ ho => absurd (ho.symm.trans (hno t)) (by simp), ?_⟩
    rw [hu]
    exact ⟨fun e => (nomatch e), fun ⟨t, ho⟩ => absurd (ho.symm.trans (hno t)) (by simp)⟩
  induction hr with
  | refl => exact hinit
  | tail hr hs ih => exact ih.step hx (ReachIf.reach hr) hs

/-- The call of `bin_write`. -/
def MCmd.isWrite {β : Type} : MCmd β → Bool
  | .upgradeWrite _ => true
  | _ => false

/-- What is asked of a step of the connection `t`. -/
structure Isolated (t : ℕ) {β : Type} (c : MCmd β) (e : World) (s : Manage) (g : ℕ → List Note) :
    Prop where
  /-- no call changes a session of another connection: its file, its state, its place on the disk -/
  others : c.onSession = true → (∃ t', t' ≠ t ∧ owns (g t') = true) →
    (execM c e s).2.up = s.up ∧ (execM c e s).2.disk = s.disk
  /-- only the connection that has begun it ends a session -/
  ended : s.up.inProgress = true → (execM c e s).2.up.inProgress = false → owns (g t) = true
  /-- a write finds a session of its own connection in progress -/
  write : c.isWrite = true → s.up.inProgress = true ∧ owns (g t) = true

/-- The others' calls do not change an owned session. -/
theorem OneSession.isolated {s : Manage} {g : ℕ → List Note} {t : ℕ} {β : Type} {c : MCmd β} {e : World}
    (h : OneSession s g) (hp : ownPre c (g t)) (hok : abortsOwn g t c e s) : Isolated t c e s g := by
  -- a call on the connection's own session
  have hown : owns (g t) = true → Isolated t c e s g := by
    intro ho
    refine ⟨fun _ hother => ?_, fun _ _ => ho, fun _ => ⟨h.iff.mpr ⟨t, ho⟩, ho⟩⟩
    obtain ⟨t', hne, ho'⟩ := hother
    exact absurd (h.one t' t ho' ho) hne
  -- a call that changes nothing
  have hstay : (execM c e s).2 = s → c.isWrite = false → Isolated t c e s g := by
    intro hs hw
    refine ⟨fun _ _ => ?_, fun hu hu' => ?_, fun hw' => absurd (hw.symm.trans hw') (by simp)⟩
    · rw [hs]
      exact ⟨rfl, rfl⟩
    · rw [hs, hu] at hu'
      cases hu'
  by_cases hc : c.onSession = false
  · refine ⟨fun hc' => absurd (hc.symm.trans hc') (by simp), fun hu hu' => ?_, fun hw => ?_⟩
    · rw [up_of_not hc, hu] at hu'
      cases hu'
    · cases c <;> simp [MCmd.isWrite, MCmd.onSession] at hw hc
  · cases c with
    | upgradeBegin sha size =>
        cases hu : s.up.inProgress with
        | true =>
            refine hstay ?_ rfl
            simp only [execM, (@begin_busy e.toFileCalls sha size s.up s.disk hu).1]
        | false =>
            refine ⟨fun _ hother => ?_, fun hu' => absurd (hu.symm.trans hu') (by simp),
              fun hw => by cases hw⟩
            obtain ⟨t', _, ho⟩ := hother
            rw [h.iff.mpr ⟨t', ho⟩] at hu
            cases hu
    | upgradeWrite p => exact hown hp
    | upgradeFinish => exact hown hp
    | upgradeAbort =>
        cases hu : s.up.inProgress with
        | true => exact hown (hok hu)
        | false =>
            refine hstay ?_ rfl
            simp only [execM, upgradeAbort, hu, Bool.false_eq_true, if_false]
    | _ => exact absurd rfl hc

/-- **Sessions are isolated** in every run of any number of connections in which `upgrade_abort`
meets no session but that of its own connection: each step leaves the others' sessions alone. -/
theorem sessions_isolated (hx : Started x) (hu : x.shared.up.inProgress = false)
    (hr : ReachIf (manage sameSession) abortsOwn x y) :
    OneSession y.shared y.ghost ∧
      ∀ (t : ℕ) {β : Type} (c : MCmd β) (k : β → MAct (Option Task)) (e : World),
        y.thread t = .running (.cmd c k) → abortsOwn y.ghost t c e y.shared →
        Isolated t c e y.shared y.ghost := by
  have ho := owned_run hx hu hr
  exact ⟨ho, fun t β c k e ht hok => ho.isolated (ownPre_run hx (ReachIf.reach hr) ht) hok⟩

/-- Two connections about to be accepted. -/
def twoClients : Config MCmd Manage (List Note) ℕ Task where
  shared := .guarded [] []
  thread t := if t < 2 then .idle .accept else .stopped
  ghost _ := []

/-- Two clients that have begun nothing. -/
theorem twoClients_started : Started twoClients := by
  intro t
  refine ⟨rfl, ?_⟩
  simp only [twoClients]
  split
  · exact .inl rfl
  · exact .inr (.inr rfl)

/-- A world in which every call succeeds and `/proc/self/exe` is found. -/
def World.serving (bytes : List Byte) : World :=
  { World.fair with exe := some (lit "/router"), recv := bytes }

/-- The connection `t` up to the handling of its first line. -/
def firstLine (t : ℕ) (line : List Byte) : List (ℕ × World) :=
  List.replicate 6 (t, .serving []) ++ [(t, .serving line)] ++ List.replicate 5 (t, .serving [])

/-- One connection uploads a binary, while the other is told to wait. -/
theorem sessions_isolated_two :
    let y := Program.play (manage sameSession)
      (firstLine 0 (lit "upgrade 1 -\n") ++ firstLine 1 (lit "upgrade 4 -\n")) twoClients
    OneSession y.shared y.ghost ∧ owns (y.ghost 0) = true ∧ owns (y.ghost 1) = false := by
  intro y
  have hr : ReachIf (manage sameSession) abortsOwn twoClients y :=
    Program.PlayIf.reach (by repeat' first | exact trivial | constructor)
  exact ⟨(sessions_isolated twoClients_started rfl hr).1, rfl, rfl⟩

/-- A connection whose upgrade was not an ELF file ends, and takes another's session with it: that
one's next write finds no session. -/
theorem session_lost :
    ∃ y, Reach (manage sameSession) Program.anyStep twoClients y ∧ owns (y.ghost 1) = true ∧
      y.shared.up.inProgress = false ∧ y.shared.up.fp = none ∧
      ∃ p k, y.thread 1 = .running (.cmd (.upgradeWrite p) k) := by
  refine ⟨_, Program.play_reach (w := firstLine 0 (lit "upgrade 1 -\n") ++
    (List.replicate 2 (0, .serving []) ++ [(0, .serving (lit "x"))] ++
      List.replicate 5 (0, .serving [])) ++ firstLine 1 (lit "upgrade 4 -\n") ++
    [(0, .serving [])] ++ (List.replicate 2 (1, .serving []) ++ [(1, .serving (lit "abcd"))] ++
      [(1, .serving [])])) (fun _ _ _ _ _ => trivial) _, rfl, rfl, rfl, _, _, rfl⟩

end LinuxRouter
