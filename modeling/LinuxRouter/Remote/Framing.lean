import LinuxRouter.Remote.Gate

/-!
# Remote — lines and payloads

How a connection cuts the bytes it receives.

* `received` is what `recv` has returned, `consumed` what has been cut off its front: the lines
  handed to `handle_line`, each with its newline, and the parts of payloads handed to `bin_write`.
* `due` is how much of the current payload is still to come.
* `Framed`: what is consumed is the received stream, piece after piece; a payload has exactly the
  announced length, and `bin_finish` is called at its end; the buffer is never full before a `recv`.
  `framed` is the run lemma.

The proof is a judgment on the program of a connection, with its own history as the only state: what
each function may assume of the history before it, and what it leaves.  Most commands have no part
in the framing (`Still`), and a line is what `handle_line` is given, so that the two functions that
cut the buffer carry the argument.  `process_lines` cuts a line with its newline off the front; and
once a line has announced a payload, `conn_pump` cuts parts off it, none of which is longer than
what is due.  Between two turns the history then says how much is due, and the buffer is what has
been received and not yet consumed.
-/

namespace LinuxRouter

open Text (lit nl)
open Program (Prog Along AlongThread along_step along_sound Reach Config)

/-! ### The stream -/

/-- The bytes received so far. -/
def received : List Note → List Byte
  | [] => []
  | .recv _ bytes :: h => received h ++ bytes
  | _ :: h => received h

/-- The bytes consumed so far. -/
def consumed : List Note → List Byte
  | [] => []
  | .mark (.line raw) :: h => consumed h ++ (raw ++ [nl])
  | .mark (.chunk p) :: h => consumed h ++ p
  | _ :: h => consumed h

/-- The rest of the current payload, if there is one. -/
def due : List Note → Option ℕ
  | [] => none
  | .mark (.binary n) :: _ => some n
  | .mark (.chunk p) :: h => (due h).map (· - p.length)
  | .mark .finish :: _ => none
  | _ :: h => due h

/-- The last piece, or the start or the end of a payload. -/
def lastMark : List Note → Option Mark
  | [] => none
  | .mark .authed :: h => lastMark h
  | .mark m :: _ => some m
  | _ :: h => lastMark h

/-- The line is a `putconf` or an `upgrade` of `n` bytes. -/
def Announces (raw : List Byte) (n : ℕ) : Prop :=
  ∃ k arg ws, Text.words (lineText raw) = k :: arg :: ws ∧
    (k = lit "putconf" ∨ k = lit "upgrade") ∧ Text.strtoul arg = n

/-- What holds before a note. -/
def framePre : Note → List Note → Prop
  | .recv room bytes, h =>
      0 < room ∧ bytes.length ≤ room ∧ (received h).length + room = (consumed h).length + ibufSize
  | .mark (.line raw), h => due h = none ∧ nl ∉ raw ∧ consumed h ++ (raw ++ [nl]) <+: received h
  | .mark (.binary n), h => due h = none ∧ ∃ raw, lastMark h = some (.line raw) ∧ Announces raw n
  | .mark (.chunk p), h => ∃ k, due h = some k ∧ p.length ≤ k ∧ consumed h ++ p <+: received h
  | .mark .finish, h => due h = some 0
  | _, _ => True

/-- Every note came in order. -/
def InFrame : List Note → Prop
  | [] => True
  | n :: h => framePre n h ∧ InFrame h

/-! ### The functions -/

/-- Nothing is received or consumed between two histories. -/
structure Still (h h' : List Note) : Prop where
  recv : received h' = received h
  used : consumed h' = consumed h
  rest : due h' = due h
  last : lastMark h' = lastMark h

theorem Still.refl (h : List Note) : Still h h := ⟨rfl, rfl, rfl, rfl⟩

theorem Still.trans {h h' h'' : List Note} (h₁ : Still h h') (h₂ : Still h' h'') : Still h h'' :=
  ⟨h₂.recv.trans h₁.recv, h₂.used.trans h₁.used, h₂.rest.trans h₁.rest, h₂.last.trans h₁.last⟩

/-- A command that neither receives nor consumes. -/
def MCmd.still {β : Type} : MCmd β → Bool
  | .mark .authed => true
  | .mark _ => false
  | .recv _ => false
  | _ => true

/-- What a command may find in the history. -/
def frameCmdPre : ∀ ⦃β : Type⦄, MCmd β → List Note → Prop
  | _, .recv room, h =>
      0 < room ∧ (received h).length + room = (consumed h).length + ibufSize
  | _, .mark m, h => framePre (.mark m) h
  | _, _, _ => True

def frameAns : ∀ ⦃β : Type⦄, MCmd β → β → Prop
  | _, .recv room, bytes => bytes.length ≤ room
  | _, .upgradeBegin _ size, err => err = none → 0 < size
  | _, _, _ => True

variable {h h' : List Note} {c : Conn} {α : Type}

/-- A note of a command that has no part in the framing. -/
theorem still_note {β : Type} {c : MCmd β} (hc : c.still = true) (a : β) (h : List Note) :
    Still h (c.note a :: h) := by
  cases c with
  | mark m => cases m <;> first | exact ⟨rfl, rfl, rfl, rfl⟩ | cases hc
  | recv room => cases hc
  | _ => exact ⟨rfl, rfl, rfl, rfl⟩

/-- Such a command is always allowed. -/
theorem frameCmdPre_of_still {β : Type} {c : MCmd β} (hc : c.still = true) : frameCmdPre c h := by
  cases c with
  | mark m => cases m <;> trivial
  | recv room => cases hc
  | _ => trivial

/-- The judgment on a connection's program. -/
abbrev Cuts (Q : α → List Note → Prop) (p : MAct α) (h : List Note) : Prop :=
  Along MCmd.note frameCmdPre frameAns Q p h

/-- A program that neither receives nor consumes. -/
theorem Cuts.of_still {p : MAct α} (hp : p.Every fun _ c => c.still = true) (h : List Note) :
    Cuts (fun _ h' => Still h h') p h := by
  refine Along.of_every (R := Still) Still.refl ?_ ?_ hp h
  · intro β c h h' hc _
    exact frameCmdPre_of_still hc
  · intro β c a h h' hc hr
    exact hr.trans (still_note hc a h')

/-- Such a command at the front of a program. -/
theorem still_step {β : Type} {c : MCmd β} {f : β → MAct α} {Q : α → List Note → Prop}
    (hc : c.still = true) (hf : ∀ a h', frameAns c a → Still h h' → Cuts Q (f a) h') :
    Cuts Q (Prog.perform c >>= f) h :=
  along_step (frameCmdPre_of_still hc) fun a ha => hf a _ ha (still_note hc a h)

/-- What a line leaves: the buffer as it was, and a payload if it announced one. -/
structure Held (c : Conn) (h : List Note) (d : Conn) (h' : List Note) : Prop where
  ibuf : d.ibuf = c.ibuf
  recv : received h' = received h
  used : consumed h' = consumed h
  rest : due h' = if d.binary then some d.bleft else none
  pos : d.binary = true → 0 < d.bleft

/-- A connection that has only talked. -/
theorem Held.of_still {d : Conn} (hs : Still h h') (hi : d.ibuf = c.ibuf) (hb : d.binary = false)
    (hd : due h = none) : Held c h d h' := by
  refine ⟨hi, hs.recv, hs.used, ?_, fun e => absurd e (by simp [hb])⟩
  rw [hs.rest, hd, hb]
  rfl

/-- Lines that announce nothing only talk. -/
theorem plainOk_still (h : List Note) : PlainOk frameCmdPre (Still h) := by
  intro β c h' hc hs
  have hc' : c.still = true := by
    cases c with
    | mark m => cases m <;> first | rfl | cases hc
    | _ => first | rfl | cases hc
  exact ⟨frameCmdPre_of_still hc', fun a => hs.trans (still_note hc' a h')⟩

/-- The switch to a payload of `n` bytes. -/
theorem switch_cuts {raw : List Byte} {n : ℕ} {d : Conn} {h₀ : List Note} (hs : Still h₀ h)
    (hd : due h₀ = none) (hl : lastMark h₀ = some (.line raw)) (ha : Announces raw n) (hn : 0 < n)
    (hi : d.ibuf = c.ibuf) (hb : d.binary = true) (hleft : d.bleft = n) :
    Cuts (Held c h₀) (Prog.perform (.mark (.binary n)) >>= fun _ => sendStr (lit "OK\r\n") >>=
      fun _ => .ret d) h := by
  refine along_step ⟨hs.rest.trans hd, raw, hs.last.trans hl, ha⟩ fun _ _ => ?_
  refine still_step rfl fun _ h₂ _ s₂ => ?_
  refine ⟨hi, s₂.recv.trans hs.recv, s₂.used.trans hs.used, ?_, fun _ => hleft ▸ hn⟩
  rw [s₂.rest, hb, hleft]
  rfl

/-- `putconf` announces its payload, or nothing. -/
theorem handlePutconf_cuts {raw arg : List Byte} (hb : c.binary = false) (hd : due h = none)
    (hl : lastMark h = some (.line raw)) (ha : Announces raw (Text.strtoul arg)) :
    Cuts (Held c h) (handlePutconf c arg) h := by
  unfold handlePutconf
  dsimp only
  split
  · exact still_step rfl fun _ _ _ s₁ => Held.of_still s₁ rfl hb hd
  · rename_i hsize
    refine still_step rfl fun f h₁ _ s₁ => ?_
    cases f with
    | none => exact still_step rfl fun _ _ _ s₂ => Held.of_still (s₁.trans s₂) rfl hb hd
    | some f => exact switch_cuts s₁ hd hl ha (by omega) rfl rfl rfl

/-- `upgrade` announces its payload, or nothing. -/
theorem handleUpgrade_cuts {raw arg sha : List Byte} (hb : c.binary = false) (hd : due h = none)
    (hl : lastMark h = some (.line raw)) (ha : Announces raw (Text.strtoul arg)) :
    Cuts (Held c h) (handleUpgrade c arg sha) h := by
  refine still_step rfl fun err h₁ herr s₁ => ?_
  cases err with
  | none => exact switch_cuts s₁ hd hl ha (herr rfl) rfl rfl rfl
  | some err => exact still_step rfl fun _ _ _ s₂ => Held.of_still (s₁.trans s₂) rfl hb hd

/-- **A line** announces a payload, or leaves the connection with lines. -/
theorem handleLine_cuts {raw : List Byte} (hb : c.binary = false) (hd : due h = none)
    (hl : lastMark h = some (.line raw)) : Cuts (Held c h) (handleLine c (lineText raw)) h := by
  refine handleLine_along (plainOk_still h) (Still.refl h) ?_ (Text.nul_notMem_cstr _) ?_ ?_
  · exact fun d h' ha hs => Held.of_still hs ha.ibuf (ha.binary.trans hb) hd
  · exact fun arg ws hw => handlePutconf_cuts hb hd hl ⟨_, arg, ws, hw, .inl rfl, rfl⟩
  · exact fun arg sha ws hw => handleUpgrade_cuts hb hd hl ⟨_, arg, ws, hw, .inr rfl, rfl⟩

/-- A session that is begun is not of zero bytes. -/
theorem upgradeBegin_pos {o : FileCalls} {sha : List Byte} {size : ℕ} {u : Upgrade} {fs : Disk}
    (he : (upgradeBegin o sha size u fs).1 = none) : 0 < size := by
  by_contra h
  obtain rfl : size = 0 := by omega
  simp [upgradeBegin, errText] at he

/-- Where a connection is between two calls: what it received and has not consumed is in its
buffer. -/
structure InStep (c : Conn) (h : List Note) : Prop where
  stream : received h = consumed h ++ c.ibuf
  rest : due h = if c.binary then some c.bleft else none
  pos : c.binary = true → 0 < c.bleft
  room : c.ibuf.length < ibufSize

/-- Talking keeps a connection in step with its history. -/
theorem InStep.still (hc : InStep c h) (hs : Still h h') : InStep c h' :=
  ⟨by rw [hs.recv, hs.used, hc.stream], hs.rest.trans hc.rest, hc.pos, hc.room⟩

/-- **The lines of the buffer**, cut off one by one. -/
theorem processLinesFrom_cuts (n : ℕ) (hc : InStep c h) (hb : c.binary = false) :
    Cuts InStep (processLinesFrom n c) h := by
  refine processLinesFrom_along (fun c h raw rest hc hb hi hno => ?_) n hc hb
  have hd : due h = none := by rw [hc.rest, hb]; rfl
  have hpre : consumed h ++ (raw ++ [nl]) <+: received h := by
    rw [hc.stream, hi, List.prefix_append_right_inj]
    exact List.prefix_append _ _
  refine ⟨⟨hd, hno, hpre⟩, (handleLine_cuts (h := .mark (.line raw) :: h) hb hd rfl).mono fun d h' hh => ?_⟩
  refine ⟨?_, hh.rest, hh.pos, ?_⟩
  · rw [hh.recv, hh.used]
    simp only [received, consumed, hc.stream, hi, List.append_assoc]
  · have hlen := hc.room
    rw [hi] at hlen
    simp only [List.length_append] at hlen
    exact lt_of_le_of_lt (Nat.le_add_left _ _) hlen

/-- A part of a payload, of which `k` more bytes were due. -/
theorem binWrite_cuts {k : ℕ} {p : List Byte} (hd : due h = some k) (hk : p.length ≤ k)
    (hp : consumed h ++ p <+: received h) :
    Cuts (fun r h' => (r.2.ibuf = c.ibuf ∧ r.2.binary = c.binary ∧ r.2.bleft = c.bleft) ∧
      received h' = received h ∧ consumed h' = consumed h ++ p ∧ due h' = some (k - p.length))
      (binWrite c p) h := by
  have hdone : ∀ {h'}, Still (.mark (.chunk p) :: h) h' → received h' = received h ∧
      consumed h' = consumed h ++ p ∧ due h' = some (k - p.length) := by
    intro h' hs
    refine ⟨hs.recv, hs.used, hs.rest.trans ?_⟩
    simp [due, hd]
  unfold binWrite
  refine along_step ⟨k, hd, hk, hp⟩ fun _ _ => ?_
  split
  · exact still_step rfl fun _ _ _ s₁ => ⟨⟨rfl, rfl, rfl⟩, hdone s₁⟩
  · exact ⟨⟨rfl, rfl, rfl⟩, hdone (Still.refl _)⟩
  · refine still_step rfl fun err _ _ s₁ => ?_
    cases err with
    | none => exact ⟨⟨rfl, rfl, rfl⟩, hdone s₁⟩
    | some err => exact still_step rfl fun _ _ _ s₂ => ⟨⟨rfl, rfl, rfl⟩, hdone (s₁.trans s₂)⟩
  · exact ⟨⟨rfl, rfl, rfl⟩, hdone (Still.refl _)⟩

/-- A reload has no part in the framing. -/
theorem still_of_config {β : Type} {c : MCmd β} (hc : c.ofConfig = true) : c.still = true := by
  cases c <;> first | rfl | cases hc

/-- What `bin_finish` leaves, unless it does not return. -/
def finishOk (c : Conn) (h h' : List Note) : Finish → Prop
  | .failed _ => True
  | .done d => d.ibuf = c.ibuf ∧ d.binary = c.binary ∧ Still (.mark .finish :: h) h'
  | .replaced => True

/-- The end of a payload comes when nothing is due. -/
theorem binFinish_cuts (hd : due h = some 0) :
    Cuts (fun r h' => finishOk c h h' r) (binFinish c) h := by
  unfold binFinish
  refine along_step hd fun _ _ => ?_
  split
  · have hgo : ∀ {h'}, Still (.mark .finish :: h) h' →
        Cuts (fun r h' => finishOk c h h' r) (do
          let c := { c with pcfp := none }
          if !(← Prog.perform .rename) then
            Prog.perform .unlink
            sendStr (lit "rename failed\r\nCMD_ERR\r\n")
            pure (.failed c)
          else
            configLoadSteps
            Prog.perform .routeDeriveConnected
            sendStr (lit "OK reloaded\r\n")
            pure (.done c)) h' := by
      intro h' hs
      refine still_step rfl fun ok _ _ s₁ => ?_
      cases ok with
      | false => exact still_step rfl fun _ _ _ _ => still_step rfl fun _ _ _ _ => trivial
      | true =>
          refine Along.bind ((Cuts.of_still ?_ _).mono fun _ h₂ s₂ => ?_)
          · exact Prog.Every.mono configLoadSteps_every fun _ _ hc => still_of_config hc
          · exact still_step rfl fun _ _ _ s₃ => still_step rfl fun _ _ _ s₄ =>
              ⟨rfl, rfl, (((hs.trans s₁).trans s₂).trans s₃).trans s₄⟩
    split
    · exact still_step rfl fun _ _ _ s₁ => hgo s₁
    · exact hgo (Still.refl _)
  · refine still_step rfl fun err _ _ s₁ => ?_
    cases err with
    | some err => exact still_step rfl fun _ _ _ _ => trivial
    | none =>
        refine still_step rfl fun _ _ _ s₂ => still_step rfl fun ok _ _ s₃ => ?_
        cases ok with
        | true => trivial
        | false => exact ⟨rfl, rfl, (s₁.trans s₂).trans s₃⟩
  · exact ⟨rfl, rfl, Still.refl _⟩

/-- What a connection does at its end neither receives nor consumes. -/
theorem connClose_still (c : Conn) : (connClose c).Every fun _ c => c.still = true := by
  unfold connClose
  split
  · exact Prog.every_step rfl fun _ => Prog.every_last rfl
  · exact Prog.every_last rfl
  · trivial

/-- The end of a connection's thread. -/
theorem close_cuts {Q : Option Conn → List Note → Prop} (hQ : ∀ h', Q none h') :
    Cuts Q (connClose c >>= fun _ => .ret none) h :=
  Along.bind ((Cuts.of_still (connClose_still c) h).mono fun _ h' _ => hQ h')

/-- A connection that goes on is in step. -/
def GoesOn (r : Option Conn) (h : List Note) : Prop := ∀ c, r = some c → InStep c h

/-- A connection that ends owes nothing. -/
theorem goesOn_none (h : List Note) : GoesOn none h := fun _ e => nomatch e

theorem processLines_goesOn (hc : InStep c h) (hb : c.binary = false) :
    Cuts GoesOn (some <$> processLines c) h := by
  refine Along.map ((processLinesFrom_cuts _ hc hb).mono fun d h' hd e he => ?_)
  obtain rfl := Option.some.inj he
  exact hd

/-- A turn with lines, or a protocol error. -/
theorem pumpLines_cuts (hs : received h = consumed h ++ c.ibuf) (hd : due h = none)
    (hb : c.binary = false) : Cuts GoesOn (pumpLines c) h := by
  unfold pumpLines
  split
  · exact still_step rfl fun _ _ _ _ => close_cuts goesOn_none
  · refine processLines_goesOn ⟨hs, by rw [hd, hb]; rfl, fun e => absurd e (by simp [hb]), ?_⟩ hb
    simp only [ibufSize]
    omega

/-- **A turn with a payload**: a part of it, and the lines behind it. -/
theorem pumpBinary_cuts (hs : received h = consumed h ++ c.ibuf) (hd : due h = some c.bleft)
    (hpos : 0 < c.bleft) (hne : c.ibuf ≠ []) (hlen : c.ibuf.length ≤ ibufSize)
    (hb : c.binary = true) : Cuts GoesOn (pumpBinary c) h := by
  have hibuf : 0 < c.ibuf.length := List.length_pos_of_ne_nil hne
  have htake : min c.ibuf.length c.bleft ≠ 0 := by omega
  unfold pumpBinary
  simp only [htake, if_false]
  generalize hk : min c.ibuf.length c.bleft = k
  have hl : (c.ibuf.take k).length = k := by
    rw [List.length_take]
    omega
  have hpre : consumed h ++ c.ibuf.take k <+: received h := by
    rw [hs, List.prefix_append_right_inj]
    exact List.take_prefix _ _
  refine Along.bind ((binWrite_cuts (c := c) hd (by omega) hpre).mono ?_)
  rintro ⟨ok, d⟩ h₁ ⟨⟨hi, hbin, hbl⟩, hr, hu, hdue⟩
  simp only at hi hbin hbl hr hu hdue ⊢
  rw [hl] at hdue
  cases ok with
  | false => exact close_cuts goesOn_none
  | true =>
      -- what is left in the buffer comes next in the stream
      have hstream : received h₁ = consumed h₁ ++ d.ibuf.drop k := by
        rw [hr, hu, hs, hi, List.append_assoc, List.take_append_drop]
      have hroom : (d.ibuf.drop k).length < ibufSize := by
        rw [hi, List.length_drop]
        omega
      simp only [Bool.not_true, Bool.false_eq_true, if_false]
      split
      · rename_i hmore
        intro e he
        obtain rfl := Option.some.inj he
        refine ⟨hstream, ?_, fun _ => Nat.pos_of_ne_zero hmore, hroom⟩
        rw [hdue, hbin, hb, hbl]
        rfl
      · rename_i hend
        -- the payload is complete, and lines follow
        have hzero : due h₁ = some 0 := by rw [hdue]; congr 1; omega
        refine Along.bind ((binFinish_cuts hzero).mono fun r h₂ hr₂ => ?_)
        cases r with
        | failed e => exact close_cuts goesOn_none
        | replaced => exact goesOn_none h₂
        | done e =>
            obtain ⟨hi₂, hb₂, s₂⟩ := hr₂
            refine processLines_goesOn ⟨?_, ?_, fun e' => absurd e' (by simp [hb₂]), ?_⟩ hb₂
            · rw [s₂.recv, s₂.used, hi₂]
              exact hstream
            · rw [s₂.rest, hb₂]
              rfl
            · rw [hi₂]
              exact hroom

/-- **A turn** keeps a connection in step with its history. -/
theorem connRound_cuts (hc : InStep c h) : Cuts GoesOn (connRound c) h := by
  unfold connRound
  split
  · exact close_cuts goesOn_none
  · refine still_step rfl fun stop h₁ _ s₁ => ?_
    split
    · exact close_cuts goesOn_none
    · have hc₁ := hc.still s₁
      have hroom : ibufSize - c.ibuf.length + c.ibuf.length = ibufSize :=
        Nat.sub_add_cancel hc.room.le
      refine along_step ⟨Nat.sub_pos_of_lt hc.room, ?_⟩ fun bytes hbytes => ?_
      · rw [hc₁.stream, List.length_append]
        omega
      · have hlen : bytes.length ≤ ibufSize - c.ibuf.length := hbytes
        have hs : received (.recv (ibufSize - c.ibuf.length) bytes :: h₁) =
            consumed (.recv (ibufSize - c.ibuf.length) bytes :: h₁) ++ (c.ibuf ++ bytes) := by
          simp only [received, consumed, hc₁.stream, List.append_assoc]
        split
        · exact close_cuts goesOn_none
        · rename_i hne
          dsimp only
          split
          · rename_i hb
            have hd : due h₁ = some c.bleft := by simpa [hb] using hc₁.rest
            refine pumpBinary_cuts hs hd (hc.pos hb) (by simp [hne]) ?_ hb
            rw [List.length_append]
            omega
          · rename_i hb
            have hd : due h₁ = none := by simpa [hb] using hc₁.rest
            exact pumpLines_cuts hs hd (by simpa using hb)

/-- A new connection is in step. -/
theorem connStart_cuts : Cuts InStep connStart [] := by
  unfold connStart
  exact along_step trivial fun _ _ => along_step trivial fun _ _ =>
    ⟨rfl, rfl, fun e => absurd e Bool.false_ne_true, Nat.zero_lt_succ _⟩

/-! ### Runs -/

/-- Every history of a run is in order. -/
theorem inFrame {admin : Manage → Manage → Prop} {x y : Config MCmd Manage (List Note) ℕ Task}
    (hx : Started x) (hr : Reach (manage admin) Program.anyStep x y) (t : ℕ) :
    InFrame (y.ghost t) ∧ ∀ c, y.thread t = .idle (.pump c) → InStep c (y.ghost t) := by
  have hans : ∀ ⦃β : Type⦄ (t : ℕ) (c : MCmd β) e s, Program.anyStep t c e s →
      frameAns c (execM c e s).1 := by
    intro β t c e s _
    cases c with
    | recv room => exact List.length_take_le _ _
    | upgradeBegin sha size => exact fun he => upgradeBegin_pos he
    | _ => trivial
  have hinv : ∀ ⦃β : Type⦄ (c : MCmd β) a h, InFrame h → frameCmdPre c h → frameAns c a →
      InFrame (c.note a :: h) := by
    intro β c a h hf hp ha
    refine ⟨?_, hf⟩
    cases c with
    | mark m => exact hp
    | recv room => exact ⟨hp.1, ha, hp.2⟩
    | _ => trivial
  have hreload : ∀ h, Cuts (fun _ _ => True) reload h := fun h =>
    (Cuts.of_still (Prog.Every.mono reload_every fun _ _ hc => still_of_config hc) h).mono
      fun _ _ _ => trivial
  obtain ⟨hf, ht⟩ := manage_along hans hinv trivial connStart_cuts
    (fun c h hc => connRound_cuts hc) hreload hx hr t
  refine ⟨hf, fun c hc => ?_⟩
  rw [hc] at ht
  exact ht

/-! ### What it says about the stream -/

/-- The parts of the payload since it was announced. -/
def payload : List Note → List Byte
  | [] => []
  | .mark (.chunk p) :: h => payload h ++ p
  | _ :: h => payload h

/-- What holds of a history holds of its beginning. -/
theorem InFrame.tail {h₁ h₂ : List Note} (hf : InFrame (h₁ ++ h₂)) : InFrame h₂ := by
  induction h₁ with
  | nil => exact hf
  | cons n h₁ ih => exact ih hf.2

/-- What holds before a note of a history. -/
theorem InFrame.pre {h₁ h₂ : List Note} {n : Note} (hf : InFrame (h₁ ++ n :: h₂)) :
    framePre n h₂ :=
  hf.tail.1

theorem received_append (h₁ h₂ : List Note) : received h₂ <+: received (h₁ ++ h₂) := by
  induction h₁ with
  | nil => exact List.prefix_refl _
  | cons n h₁ ih =>
      cases n with
      | recv room bytes => exact ih.trans (List.prefix_append _ _)
      | _ => exact ih

/-- The notes that are neither pieces of the stream nor places in it. -/
def Note.idle : Note → Bool
  | .mark .authed => true
  | .mark _ => false
  | .recv _ _ => false
  | _ => true

theorem still_idle {n : Note} (hn : n.idle = true) (h : List Note) : Still h (n :: h) := by
  cases n with
  | mark m => cases m <;> first | exact ⟨rfl, rfl, rfl, rfl⟩ | cases hn
  | recv room bytes => cases hn
  | _ => exact ⟨rfl, rfl, rfl, rfl⟩

/-- It is no part of a payload. -/
theorem payload_idle {n : Note} (hn : n.idle = true) (h : List Note) : payload (n :: h) = payload h := by
  cases n with
  | mark m => cases m <;> first | rfl | cases hn
  | recv room bytes => cases hn
  | _ => rfl

/-- What is received and not consumed fits into the buffer. -/
theorem InFrame.stream (hf : InFrame h) :
    ∃ ibuf, received h = consumed h ++ ibuf ∧ ibuf.length ≤ ibufSize := by
  induction h with
  | nil => exact ⟨[], rfl, by simp⟩
  | cons n h ih =>
      obtain ⟨ibuf, hs, hlen⟩ := ih hf.2
      by_cases hn : n.idle = true
      · have := still_idle hn h
        exact ⟨ibuf, by rw [this.recv, this.used, hs], hlen⟩
      · have hcut : ∀ {p}, consumed h ++ p <+: received h →
            ∃ ibuf', received h = consumed h ++ p ++ ibuf' ∧ ibuf'.length ≤ ibufSize := by
          rintro p ⟨ibuf', hp⟩
          refine ⟨ibuf', hp.symm, ?_⟩
          have hl := congrArg List.length (hp.trans hs)
          simp only [List.length_append] at hl
          omega
        cases n with
        | recv room bytes =>
            obtain ⟨-, hb, hr⟩ := hf.1
            refine ⟨ibuf ++ bytes, by simp [received, consumed, hs], ?_⟩
            rw [hs] at hr
            simp only [List.length_append] at hr ⊢
            omega
        | mark m =>
            cases m with
            | line raw => exact hcut hf.1.2.2
            | chunk p => exact hcut hf.1.choose_spec.2.2
            | binary n => exact ⟨ibuf, hs, hlen⟩
            | finish => exact ⟨ibuf, hs, hlen⟩
            | authed => exact absurd rfl hn
        | _ => exact absurd rfl hn

/-- Within a payload. -/
theorem InFrame.within {h₁ h₂ : List Note} {n : ℕ} (hf : InFrame (h₁ ++ .mark (.binary n) :: h₂))
    (hn : Note.mark .finish ∉ h₁) :
    due (h₁ ++ .mark (.binary n) :: h₂) = some (n - (payload h₁).length) ∧
      (payload h₁).length ≤ n ∧ (∀ raw, Note.mark (.line raw) ∉ h₁) ∧
      consumed (h₁ ++ .mark (.binary n) :: h₂) = consumed h₂ ++ payload h₁ := by
  induction h₁ with
  | nil => exact ⟨rfl, Nat.zero_le _, fun _ hm => absurd hm List.not_mem_nil,
      (List.append_nil _).symm⟩
  | cons m h₁ ih =>
      obtain ⟨hd, hle, hno, hcon⟩ := ih hf.2 fun hm => hn (List.mem_cons_of_mem _ hm)
      have hcons : (∀ raw, m ≠ .mark (.line raw)) → ∀ raw, Note.mark (.line raw) ∉ m :: h₁ := by
        intro hm raw hr
        rcases List.mem_cons.mp hr with e | hr
        · exact hm raw e.symm
        · exact hno raw hr
      by_cases hi : m.idle = true
      · have := still_idle hi (h₁ ++ .mark (.binary n) :: h₂)
        rw [List.cons_append, this.rest, this.used, payload_idle hi]
        exact ⟨hd, hle, hcons (fun raw e => by subst e; cases hi), hcon⟩
      · cases m with
        | recv room bytes => exact ⟨hd, hle, hcons fun _ e => (nomatch e), hcon⟩
        | mark m =>
            cases m with
            | line raw =>
                cases hd.symm.trans hf.1.1
            | binary k =>
                cases hd.symm.trans hf.1.1
            | chunk p =>
                obtain ⟨k, hk, hpk, -⟩ := hf.1
                obtain rfl : n - (payload h₁).length = k := Option.some.inj (hd.symm.trans hk)
                refine ⟨?_, ?_, hcons fun _ e => (nomatch e), ?_⟩
                · simp only [List.cons_append, due, hd, Option.map_some, payload,
                    List.length_append]
                  congr 1
                  omega
                · simp only [payload, List.length_append]
                  omega
                · simp only [List.cons_append, consumed, hcon, payload, List.append_assoc]
            | finish => exact absurd List.mem_cons_self hn
            | authed => exact absurd rfl hi
        | _ => exact absurd rfl hi

/-- A payload that is not over was announced. -/
theorem due_some {k : ℕ} (hd : due h = some k) :
    ∃ h₁ n h₂, h = h₁ ++ .mark (.binary n) :: h₂ ∧ Note.mark .finish ∉ h₁ := by
  induction h generalizing k with
  | nil => cases hd
  | cons m h ih =>
      have hgo : m ≠ .mark .finish → (∃ k', due h = some k') →
          ∃ h₁ n h₂, m :: h = h₁ ++ .mark (.binary n) :: h₂ ∧ Note.mark .finish ∉ h₁ := by
        rintro hm ⟨k', hk'⟩
        obtain ⟨h₁, n, h₂, rfl, hn⟩ := ih hk'
        exact ⟨m :: h₁, n, h₂, rfl, fun hmem => (List.mem_cons.mp hmem).elim
          (fun e => hm e.symm) hn⟩
      by_cases hi : m.idle = true
      · refine hgo (fun e => by subst e; cases hi) ⟨k, ?_⟩
        rw [← (still_idle hi h).rest, hd]
      · cases m with
        | recv room bytes => exact hgo (fun e => nomatch e) ⟨k, hd⟩
        | mark m =>
            cases m with
            | line raw => exact hgo (fun e => nomatch e) ⟨k, hd⟩
            | binary n => exact ⟨[], n, h, rfl, fun hm => nomatch hm⟩
            | chunk p =>
                obtain ⟨k', hk', -⟩ := Option.map_eq_some_iff.mp hd
                exact hgo (fun e => nomatch e) ⟨k', hk'⟩
            | finish => cases hd
            | authed => exact absurd rfl hi
        | _ => exact absurd rfl hi

/-- After a payload, before the next line. -/
theorem InFrame.after {h₁ h₂ : List Note} (hf : InFrame (h₁ ++ .mark .finish :: h₂))
    (hn : ∀ raw, Note.mark (.line raw) ∉ h₁) :
    due (h₁ ++ .mark .finish :: h₂) = none ∧
      (∀ raw, lastMark (h₁ ++ .mark .finish :: h₂) ≠ some (.line raw)) ∧
      consumed (h₁ ++ .mark .finish :: h₂) = consumed h₂ := by
  induction h₁ with
  | nil => exact ⟨rfl, fun _ e => (nomatch e), rfl⟩
  | cons m h₁ ih =>
      obtain ⟨hd, hl, hcon⟩ := ih hf.2 fun raw hm => hn raw (List.mem_cons_of_mem _ hm)
      by_cases hi : m.idle = true
      · have := still_idle hi (h₁ ++ .mark .finish :: h₂)
        rw [List.cons_append, this.rest, this.used, this.last]
        exact ⟨hd, hl, hcon⟩
      · cases m with
        | recv room bytes => exact ⟨hd, hl, hcon⟩
        | mark m =>
            cases m with
            | line raw => exact absurd List.mem_cons_self (hn raw)
            | binary k =>
                obtain ⟨-, raw, hr, -⟩ := hf.1
                exact absurd hr (hl raw)
            | chunk p =>
                obtain ⟨k, hk, -⟩ := hf.1
                cases hd.symm.trans hk
            | finish => exact ⟨rfl, fun _ e => (nomatch e), hcon⟩
            | authed => exact absurd rfl hi
        | _ => exact absurd rfl hi

/-- After a line, before anything else is consumed. -/
theorem lastMark_line {raw : List Byte} (hl : lastMark h = some (.line raw)) :
    Note.mark (.line raw) ∈ h ∧ ∃ h₃, consumed h = consumed h₃ ++ (raw ++ [nl]) := by
  induction h with
  | nil => cases hl
  | cons m h ih =>
      by_cases hi : m.idle = true
      · have := still_idle hi h
        obtain ⟨hm, h₃, hc⟩ := ih (this.last ▸ hl)
        exact ⟨List.mem_cons_of_mem _ hm, h₃, this.used.trans hc⟩
      · cases m with
        | recv room bytes =>
            obtain ⟨hm, h₃, hc⟩ := ih hl
            exact ⟨List.mem_cons_of_mem _ hm, h₃, hc⟩
        | mark m =>
            cases m with
            | line raw' =>
                cases hl
                exact ⟨List.mem_cons_self, h, rfl⟩
            | authed => exact absurd rfl hi
            | _ => cases hl
        | _ => exact absurd rfl hi

/-- **The framing.**  Histories are newest first. -/
structure Framed (h : List Note) : Prop where
  /-- the bytes are consumed in the order they come in; the rest is in the buffer, and fits -/
  stream : ∃ ibuf, received h = consumed h ++ ibuf ∧ ibuf.length ≤ ibufSize
  /-- `recv` has room, and is asked to fill the buffer -/
  recv : ∀ h₁ room bytes h₂, h = h₁ ++ .recv room bytes :: h₂ → 0 < room ∧ bytes.length ≤ room ∧
    (received h₂).length + room = (consumed h₂).length + ibufSize
  /-- a line is the next bytes up to a newline -/
  line : ∀ h₁ raw h₂, h = h₁ ++ .mark (.line raw) :: h₂ →
    nl ∉ raw ∧ consumed h₂ ++ (raw ++ [nl]) <+: received h
  /-- a payload is announced, with its length, by the line that ends right before it -/
  announced : ∀ h₁ n h₂, h = h₁ ++ .mark (.binary n) :: h₂ →
    ∃ raw h₃, Announces raw n ∧ Note.mark (.line raw) ∈ h₂ ∧
      consumed h₂ = consumed h₃ ++ (raw ++ [nl])
  /-- until `bin_finish`, all that is consumed is a part of the payload's `n` bytes -/
  prefix_payload : ∀ h₁ n h₂, h = h₁ ++ .mark (.binary n) :: h₂ → Note.mark .finish ∉ h₁ →
    (∀ raw, Note.mark (.line raw) ∉ h₁) ∧ consumed h = consumed h₂ ++ payload h₁ ∧
      payload h₁ <+: ((received h).drop (consumed h₂).length).take n
  /-- `bin_finish` comes when it has had all of them -/
  finish : ∀ h₁ h₂, h = h₁ ++ .mark .finish :: h₂ →
    ∃ h₃ n h₄, h₂ = h₃ ++ .mark (.binary n) :: h₄ ∧ Note.mark .finish ∉ h₃ ∧
      (payload h₃).length = n ∧ payload h₃ = ((received h).drop (consumed h₄).length).take n
  /-- and up to the next line nothing else is consumed -/
  next : ∀ h₁ h₂, h = h₁ ++ .mark .finish :: h₂ → (∀ raw, Note.mark (.line raw) ∉ h₁) →
    consumed h = consumed h₂

/-- What is consumed after a point is a part of what is received after it. -/
theorem prefix_drop_take {a b p : List Byte} {n : ℕ} (hp : a ++ p <+: b) (hn : p.length ≤ n) :
    p <+: (b.drop a.length).take n := by
  obtain ⟨q, rfl⟩ := hp
  rw [List.append_assoc, List.drop_left, List.prefix_take_iff]
  exact ⟨List.prefix_append _ _, hn⟩

/-- A history in step is framed. -/
theorem InFrame.frames (hf : InFrame h) : Framed h where
  stream := hf.stream
  recv h₁ room bytes h₂ e := by
    subst e
    exact hf.pre
  line h₁ raw h₂ e := by
    subst e
    obtain ⟨-, hno, hp⟩ := hf.pre
    refine ⟨hno, hp.trans ?_⟩
    exact received_append (h₁ ++ [.mark (.line raw)]) h₂ |>.trans (by simp)
  announced h₁ n h₂ e := by
    subst e
    obtain ⟨-, raw, hl, ha⟩ := hf.pre
    obtain ⟨hm, h₃, hc⟩ := lastMark_line hl
    exact ⟨raw, h₃, ha, hm, hc⟩
  prefix_payload h₁ n h₂ e hn := by
    subst e
    obtain ⟨-, hle, hno, hcon⟩ := hf.within hn
    obtain ⟨ibuf, hs, -⟩ := hf.stream
    refine ⟨hno, hcon, prefix_drop_take ?_ hle⟩
    rw [← hcon, hs]
    exact List.prefix_append _ _
  finish h₁ h₂ e := by
    subst e
    -- the payload that ends here was announced in `h₄`, and none of it is missing
    obtain ⟨h₃, n, h₄, rfl, hn⟩ := due_some hf.pre
    have hf' := hf.tail.2
    obtain ⟨hd, hle, -, hcon⟩ := hf'.within hn
    have hz : n - (payload h₃).length = 0 := Option.some.inj (hd.symm.trans hf.pre)
    have hlen : (payload h₃).length = n := by omega
    refine ⟨h₃, n, h₄, rfl, hn, hlen, ?_⟩
    obtain ⟨ibuf, hs, -⟩ := hf'.stream
    have hp : consumed h₄ ++ payload h₃ <+:
        received (h₁ ++ .mark .finish :: (h₃ ++ .mark (.binary n) :: h₄)) := by
      rw [← hcon]
      have hpre : consumed (h₃ ++ .mark (.binary n) :: h₄) <+:
          received (h₃ ++ .mark (.binary n) :: h₄) := by
        rw [hs]
        exact List.prefix_append _ _
      refine hpre.trans ?_
      have := received_append (h₁ ++ [.mark .finish]) (h₃ ++ .mark (.binary n) :: h₄)
      simpa using this
    obtain ⟨q, hq⟩ := prefix_drop_take hp hle
    have hl := congrArg List.length hq
    rw [List.length_append, List.length_take] at hl
    have hq' : q = [] := List.eq_nil_of_length_eq_zero (by omega)
    rw [← hq, hq', List.append_nil]
  next h₁ h₂ e hn := by
    subst e
    exact (hf.after hn).2.2

/-- **Upload framing is exact**, in every run of any number of connections.  The bytes that a
connection has received are those that it has consumed, and behind them its buffer, in which there is
room for more between two turns.  A line is what comes up to a newline, and the payload that it
announces is the next bytes, as many as it says, of which the upload gets all, and nothing else. -/
theorem framed {admin : Manage → Manage → Prop} {x y : Config MCmd Manage (List Note) ℕ Task}
    (hx : Started x) (hr : Reach (manage admin) Program.anyStep x y) (t : ℕ) :
    Framed (y.ghost t) ∧ ∀ c, y.thread t = .idle (.pump c) →
      received (y.ghost t) = consumed (y.ghost t) ++ c.ibuf ∧ c.ibuf.length < ibufSize := by
  obtain ⟨hf, hc⟩ := inFrame hx hr t
  exact ⟨hf.frames, fun c e => ⟨(hc c e).stream, (hc c e).room⟩⟩

/-- Five bytes of a payload, in two parts, on a router without a password. -/
theorem framed_putconf :
    let y := Program.play (manage samePassword)
      (List.replicate 6 (1, .fair) ++ [(1, { World.fair with recv := lit "putconf 5\n" })] ++
        List.replicate 7 (1, .fair) ++ [(1, { World.fair with recv := lit "hel" })] ++
        List.replicate 5 (1, .fair) ++ [(1, { World.fair with recv := lit "lo" })] ++
        List.replicate 3 (1, .fair)) (guarding [] [])
    Framed (y.ghost 1) ∧ Note.mark .finish ∈ y.ghost 1 := by
  refine ⟨(framed (guarding_started _ _) (Program.play_reach (fun _ _ _ _ _ => trivial) _) 1).1, ?_⟩
  exact List.Mem.head _

end LinuxRouter
