import LinuxRouter.Model.Remote

/-!
# Remote — the parts of a connection's program

The functions of a connection, cut where the proofs about them are cut.

* `reload_every`: what the commands of a reload are.
* `handleLine_along`, `processLinesFrom_along`: what is to be shown of lines, for any judgment on
  histories.
* `binFinish_putconf`, `pumpBinary_eq`: `bin_finish` and `conn_pump` as a call and what follows it.
* `manage_along`: what is to be shown of a connection, for every run.

Four developments judge a connection by its history, each with a judgment of its own, on framing,
the gate, sessions and uploads.  What they have in common is where a program branches.  The branches
that concern none of them, a reply, a command of the table, a line that is too long, are dealt with
here, once, for any judgment that such `plain` commands do not touch; what is left of a line is
`putconf` and `upgrade`, and of a payload its end.
-/

namespace LinuxRouter

open Text (lit nl)
open Program (Prog Along AlongThread along_step along_sound Reach Config)

/-! ### The commands of a reload -/

/-- The commands of `config_load` and `route_derive_connected`. -/
def MCmd.ofConfig {β : Type} : MCmd β → Bool
  | .readConf => true
  | .configDefault => true
  | .configSave => true
  | .routerKey _ => true
  | .fwClear => true
  | .fwAdd _ => true
  | .ifaces => true
  | .routeClearStatic => true
  | .routeAdd _ _ _ _ => true
  | .routeDeriveConnected => true
  | _ => false

theorem loadLine_every (sec p : List Byte) : (loadLine sec p).Every fun _ c => c.ofConfig = true := by
  unfold loadLine
  split
  · exact Prog.every_last rfl
  · split
    · split
      · exact Prog.every_step rfl fun _ => trivial
      · trivial
    · split
      · split
        · exact Prog.every_step rfl fun _ => trivial
        · trivial
      · split
        · refine Prog.every_step rfl fun ifs => ?_
          split
          · exact Prog.every_step rfl fun _ => trivial
          · trivial
        · trivial

theorem loadLines_every (ls : List (List Byte × List Byte)) :
    (loadLines ls).Every fun _ c => c.ofConfig = true := by
  induction ls with
  | nil => trivial
  | cons l ls ih => exact (loadLine_every l.1 l.2).bind fun _ => ih

theorem configLoadSteps_every : configLoadSteps.Every fun _ c => c.ofConfig = true := by
  refine Prog.every_step rfl fun text => ?_
  cases text with
  | none =>
      exact Prog.every_step rfl fun _ => Prog.every_step rfl fun _ => Prog.every_step rfl fun _ =>
        Prog.every_last rfl
  | some file =>
      exact Prog.every_step rfl fun _ => Prog.every_step rfl fun _ => Prog.every_step rfl fun _ =>
        loadLines_every _

/-- The file, and the connected routes behind it. -/
theorem reload_every : reload.Every fun _ c => c.ofConfig = true :=
  configLoadSteps_every.bind fun _ => Prog.every_last rfl

/-! ### Lines -/

/-- The words that `handle_line` compares and uses are those of the line. -/
theorem words_line {line tok k : List Byte} {args : List (List Byte)} (hz : Text.nul ∉ line)
    (ht : tokSplit line 24 = tok :: args) (hk : k.length < 15)
    (hf : (Text.CStr.store 16 tok).1 = k) : ∃ ws, Text.words line = k :: (args.take 22 ++ ws) := by
  have hw := Text.take_splitWords 23 line
  rw [← tokSplit, ht, List.take_succ_cons] at hw
  have htok : tok ∈ tokSplit line 24 := by simp [ht]
  have hz' : Text.nul ∉ tok := fun hm => hz (Text.subset_of_mem_splitWords htok hm)
  have hfull : tok = k := by
    have hv : tok.take 15 = k := by
      rw [← hf]
      simp only [Text.CStr.store, Text.cstr_eq_self hz']
    have hlen := congrArg List.length hv
    rw [List.length_take] at hlen
    rwa [List.take_of_length_le (by omega)] at hv
  have hws := List.take_append_drop 23 (Text.words line)
  rw [← hw, hfull] at hws
  exact ⟨_, hws.symm⟩

/-- What the first two words are, in terms of the line. -/
theorem words_of_tokSplit {line tok k : List Byte} {args : List (List Byte)} (hz : Text.nul ∉ line)
    (ht : tokSplit line 24 = tok :: args) (hk : k.length < 15)
    (hf : (Text.CStr.store 16 tok).1 = k) {a : List Byte} (ha : a ∈ args.head?) :
    ∃ ws, Text.words line = k :: a :: ws := by
  obtain ⟨args, rfl⟩ : ∃ args', args = a :: args' := by
    cases args with
    | nil => cases ha
    | cons b args =>
        obtain rfl : b = a := by simpa using ha
        exact ⟨args, rfl⟩
  obtain ⟨ws, hws⟩ := words_line hz ht hk hf
  exact ⟨_, hws⟩

/-- The commands of a line that announces no payload. -/
def MCmd.plain {β : Type} : MCmd β → Bool
  | .mark .authed => true
  | .send _ => true
  | .password => true
  | .serialize => true
  | .dispatch _ => true
  | _ => false

/-- The connections differ in `authed` and `closed` only. -/
structure Alike (c d : Conn) : Prop where
  ibuf : d.ibuf = c.ibuf
  binary : d.binary = c.binary
  bleft : d.bleft = c.bleft
  mode : d.mode = c.mode
  pcfp : d.pcfp = c.pcfp

theorem Alike.refl (c : Conn) : Alike c c := ⟨rfl, rfl, rfl, rfl, rfl⟩

section Rules

variable {pre : ∀ ⦃β : Type⦄, MCmd β → List Note → Prop} {ans : ∀ ⦃β : Type⦄, MCmd β → β → Prop}
  {α : Type} {Q : α → List Note → Prop} {J : Conn → List Note → Prop} {R : List Note → Prop}
  {c : Conn} {h : List Note}

/-- The plain commands are allowed wherever `R` holds, and keep it. -/
def PlainOk (pre : ∀ ⦃β : Type⦄, MCmd β → List Note → Prop) (R : List Note → Prop) : Prop :=
  ∀ ⦃β : Type⦄ (c : MCmd β) (h : List Note), c.plain = true → R h → pre c h ∧ ∀ a, R (c.note a :: h)

/-- A plain command at the front of a program. -/
theorem plain_step (hp : PlainOk pre R) {β : Type} {c : MCmd β} {f : β → MAct α}
    (hc : c.plain = true) (hR : R h)
    (hf : ∀ a h', R h' → Along MCmd.note pre ans Q (f a) h') :
    Along MCmd.note pre ans Q (Prog.perform c >>= f) h :=
  along_step (hp c h hc hR).1 fun a _ => hf a _ ((hp c h hc hR).2 a)

/-- A line of `auth`, for any judgment. -/
theorem handleAuth_along (hp : PlainOk pre R) (hR : R h)
    (hJ : ∀ d h', Alike c d → R h' → J d h') (args : List (List Byte)) :
    Along MCmd.note pre ans J (handleAuth c args) h := by
  have haccept : ∀ {h'}, R h' → Along MCmd.note pre ans J (Prog.perform (.mark .authed) >>= fun _ =>
      sendStr (lit "AUTH_OK\r\n") >>= fun _ => .ret { c with authed := true }) h' := fun hR =>
    plain_step hp rfl hR fun _ _ hR => plain_step hp rfl hR fun _ _ hR =>
      hJ _ _ ⟨rfl, rfl, rfl, rfl, rfl⟩ hR
  have hrefuse : ∀ {h'}, R h' → Along MCmd.note pre ans J
      (sendStr (lit "AUTH_FAIL\r\n") >>= fun _ => .ret c) h' := fun hR =>
    plain_step hp rfl hR fun _ _ hR => hJ _ _ (.refl c) hR
  unfold handleAuth
  refine plain_step hp rfl hR fun pw _ hR => ?_
  split
  · exact haccept hR
  · cases args with
    | nil => exact hrefuse hR
    | cons arg args =>
        refine plain_step hp rfl hR fun pw' _ hR => ?_
        split
        · exact haccept hR
        · exact hrefuse hR

/-- A command of the table, for any judgment. -/
theorem handleCommand_along (hp : PlainOk pre R) (hR : R h)
    (hJ : ∀ d h', Alike c d → R h' → J d h') (line : List Byte) :
    Along MCmd.note pre ans J (handleCommand c line) h := by
  refine plain_step hp rfl hR fun r _ hR => plain_step hp rfl hR fun _ _ hR =>
    plain_step hp rfl hR fun _ _ hR => ?_
  split
  · exact hJ _ _ ⟨rfl, rfl, rfl, rfl, rfl⟩ hR
  · exact hJ _ _ (.refl c) hR

/-- **A line**: what is left to be shown is about the two commands that announce a payload. -/
theorem handleLine_announces (hp : PlainOk pre R) (hR : R h)
    (hJ : ∀ d h', Alike c d → R h' → J d h') {line : List Byte} (hz : Text.nul ∉ line)
    (hput : ∀ arg ws, Text.words line = lit "putconf" :: arg :: ws →
      Along MCmd.note pre ans J (handlePutconf c arg) h)
    (hup : ∀ arg sha ws, Text.words line = lit "upgrade" :: arg :: sha :: ws →
      Along MCmd.note pre ans J (handleUpgrade c arg sha) h) :
    Along MCmd.note pre ans J (handleLine c line) h := by
  unfold handleLine
  split
  · exact plain_step hp rfl hR fun _ _ hR => hJ _ _ (.refl c) hR
  · split
    · exact hJ _ _ (.refl c) hR
    · rename_i tok args ht
      dsimp only
      split
      · exact handleAuth_along hp hR hJ args
      · split
        · exact plain_step hp rfl hR fun _ _ hR => hJ _ _ (.refl c) hR
        · unfold handleAuthed
          split
          · exact plain_step hp rfl hR fun _ _ hR => plain_step hp rfl hR fun _ _ hR =>
              plain_step hp rfl hR fun _ _ hR => plain_step hp rfl hR fun _ _ hR =>
                hJ _ _ (.refl c) hR
          · cases args with
            | nil => exact handleCommand_along hp hR hJ _
            | cons arg args =>
                dsimp only
                split
                · rename_i hf
                  obtain ⟨ws, hw⟩ := words_of_tokSplit (a := arg) hz ht (by decide) hf rfl
                  exact hput arg ws hw
                · cases args with
                  | nil => exact handleCommand_along hp hR hJ _
                  | cons sha args =>
                      dsimp only
                      split
                      · rename_i hf
                        obtain ⟨ws, hw⟩ := words_line hz ht (by decide) hf
                        exact hup arg sha _ hw
                      · exact handleCommand_along hp hR hJ _

/-- **A line**, for any judgment: what is left is `putconf` and `upgrade`. -/
theorem handleLine_along (hp : PlainOk pre R) (hR : R h)
    (hJ : ∀ d h', Alike c d → R h' → J d h') {line : List Byte} (hz : Text.nul ∉ line)
    (hput : ∀ arg ws, Text.words line = lit "putconf" :: arg :: ws →
      Along MCmd.note pre ans J (handlePutconf c arg) h)
    (hup : ∀ arg sha ws, Text.words line = lit "upgrade" :: arg :: ws →
      Along MCmd.note pre ans J (handleUpgrade c arg sha) h) :
    Along MCmd.note pre ans J (handleLine c line) h :=
  handleLine_announces hp hR hJ hz hput fun arg sha ws hw => hup arg sha (sha :: ws) hw

/-- The buffer at its first newline. -/
theorem ibuf_line {buf : List Byte} (hn : nl ∈ buf) :
    buf = (buf.takeWhile (· != nl) ++ [nl]) ++ buf.drop ((buf.takeWhile (· != nl)).length + 1) ∧
      nl ∉ buf.takeWhile (· != nl) := by
  have hsplit : ∃ rest, buf = buf.takeWhile (· != nl) ++ nl :: rest := by
    induction buf with
    | nil => cases hn
    | cons b buf ih =>
        by_cases hb : b = nl
        · exact ⟨buf, by simp [hb]⟩
        · obtain ⟨rest, hr⟩ := ih (by simpa [Ne.symm hb] using hn)
          refine ⟨rest, ?_⟩
          have hcons : (b :: buf).takeWhile (· != nl) = b :: buf.takeWhile (· != nl) := by simp [hb]
          rw [hcons, List.cons_append, ← hr]
  obtain ⟨rest, hr⟩ := hsplit
  constructor
  · generalize buf.takeWhile (· != nl) = raw at hr
    subst hr
    simp
  · intro hm
    have := List.mem_takeWhile_imp hm
    simp at this

/-- **The lines of a buffer**: an invariant between two lines is kept if every line keeps it. -/
theorem processLinesFrom_along
    (hline : ∀ (c : Conn) (h : List Note) (raw rest : List Byte), J c h → c.binary = false →
      c.ibuf = raw ++ [nl] ++ rest → nl ∉ raw → pre (.mark (.line raw)) h ∧
        Along MCmd.note pre ans (fun d h' => J { d with ibuf := rest } h')
          (handleLine c (lineText raw)) (.mark (.line raw) :: h))
    (n : ℕ) (hc : J c h) (hb : c.binary = false) :
    Along MCmd.note pre ans J (processLinesFrom n c) h := by
  induction n generalizing c h with
  | zero => exact hc
  | succ n ih =>
      unfold processLinesFrom
      split
      · rename_i hn
        obtain ⟨hsplit, hno⟩ := ibuf_line hn
        obtain ⟨hpre, hl⟩ := hline c h _ _ hc hb hsplit hno
        refine along_step hpre fun _ _ => Along.bind (hl.mono fun d h' hd => ?_)
        dsimp only
        split
        · exact hd
        · rename_i hgo
          exact ih hd (by simpa using (not_or.mp hgo).2)
      · exact hc

end Rules

/-! ### The end of a payload -/

/-- `bin_finish` of a `putconf`, after its `fclose`. -/
def finishPutconf (c : Conn) : MAct Finish := do
  if !(← Prog.perform .rename) then
    Prog.perform .unlink
    sendStr (lit "rename failed\r\nCMD_ERR\r\n")
    pure (.failed c)
  else
    configLoadSteps
    Prog.perform .routeDeriveConnected
    sendStr (lit "OK reloaded\r\n")
    pure (.done c)

/-- The end of a `putconf`, step by step. -/
theorem binFinish_putconf {c : Conn} (hm : c.mode = .putconf) :
    binFinish c = Prog.perform (.mark .finish) >>= fun _ => (match c.pcfp with
      | some f => Prog.perform (.fclose f) >>= fun _ => .ret ()
      | none => .ret ()) >>= fun _ => finishPutconf { c with pcfp := none } := by
  unfold binFinish
  rw [hm]
  cases c.pcfp <;> rfl

/-- `pumpBinary` after its call of `bin_write`. -/
def pumpAfter (take : ℕ) (r : Bool × Conn) : MAct (Option Conn) := do
  let (ok, c) := r
  if !ok then
    connClose c
    pure none
  else
    let c := { c with ibuf := c.ibuf.drop take, bleft := c.bleft - take }
    if c.bleft ≠ 0 then pure (some c)
    else
      match ← binFinish { c with binary := false } with
      | .failed c =>
        connClose c
        pure none
      | .replaced => pure none
      | .done c => some <$> processLines c

/-- A turn with a payload: a part is written, and what follows. -/
theorem pumpBinary_eq (c : Conn) :
    pumpBinary c = (if min c.ibuf.length c.bleft = 0 then .ret (true, c)
      else binWrite c (c.ibuf.take (min c.ibuf.length c.bleft))) >>=
        pumpAfter (min c.ibuf.length c.bleft) := by
  unfold pumpBinary
  dsimp only
  split <;> rfl

/-! ### Runs -/

/-- Threads that have not started: connections to be accepted, and reloads. -/
def Started (x : Config MCmd Manage (List Note) ℕ Task) : Prop :=
  ∀ t, x.ghost t = [] ∧
    (x.thread t = .idle .accept ∨ x.thread t = .idle .reload ∨ x.thread t = .stopped)

/-- What a thread carries from round to round, if a connection carries `J`. -/
def taskRest (J : Conn → List Note → Prop) : ℕ → Task → List Note → Prop
  | _, .accept, h => h = []
  | _, .pump c, h => J c h
  | _, .reload, _ => True

/-- **A judgment on connections, in every run**: it is to be shown that a fresh connection has `J`,
that a round keeps it, and that a reload finds its preconditions. -/
theorem manage_along {pre : ∀ ⦃β : Type⦄, MCmd β → List Note → Prop}
    {ans : ∀ ⦃β : Type⦄, MCmd β → β → Prop} {J : Conn → List Note → Prop} {I : List Note → Prop}
    {ok : ∀ ⦃β : Type⦄, ℕ → MCmd β → World → Manage → Prop} {admin : Manage → Manage → Prop}
    {x y : Config MCmd Manage (List Note) ℕ Task}
    (hans : ∀ ⦃β : Type⦄ t (c : MCmd β) e s, ok t c e s → ans c (execM c e s).1)
    (hinv : ∀ ⦃β : Type⦄ (c : MCmd β) a h, I h → pre c h → ans c a → I (c.note a :: h))
    (hempty : I []) (hstart : Along MCmd.note pre ans J connStart [])
    (hround : ∀ c h, J c h →
      Along MCmd.note pre ans (fun r h => ∀ c, r = some c → J c h) (connRound c) h)
    (hreload : ∀ h, Along MCmd.note pre ans (fun _ _ => True) reload h)
    (hx : Started x) (hr : Reach (manage admin) ok x y) (t : ℕ) :
    I (y.ghost t) ∧ AlongThread MCmd.note pre ans (taskRest J) t (y.thread t) (y.ghost t) := by
  refine along_sound (M := manage admin) (fun _ c s a h => rfl) hans hinv ?_ ?_ hr t
  · intro t l h hl
    cases l with
    | accept =>
        obtain rfl := hl
        exact Along.map (hstart.mono fun c h hc l e => by cases e; exact hc)
    | pump c =>
        refine Along.map ((hround c h hl).mono fun r h hc l e => ?_)
        obtain ⟨c', rfl, rfl⟩ := Option.map_eq_some_iff.mp e
        exact hc c' rfl
    | reload => exact Along.map ((hreload h).mono fun _ h _ l e => nomatch e)
  · intro t
    obtain ⟨hg, ht⟩ := hx t
    rw [hg]
    refine ⟨hempty, ?_⟩
    rcases ht with ht | ht | ht <;> rw [ht] <;> trivial

end LinuxRouter
