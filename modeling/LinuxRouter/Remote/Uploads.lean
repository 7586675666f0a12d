import LinuxRouter.Remote.Sessions

/-!
# Remote — configuration uploads

Whose bytes `router.conf` holds.  All uploads go through one temporary file, `router.conf.new`, which
each connection opens for itself: `fopen` empties it for whoever else is writing, every stream keeps
its own offset, and `rename` takes the name away while other streams are still open.

The result is about a run, and what a connection has uploaded is spread over many of its turns.  It is
read back from the connection's history: `current` is the upload it has under way, from its `fopen`
to its `rename` or `unlink`, and `completes` are those that came to their end with all their bytes.
The proof has two halves, which meet in `uploads_unmixed`.

* Of one connection, alone: `PutOk` is what its state says of its upload, and `connRound_puts` that a
  turn keeps it.  So a `rename` finds that all announced bytes were written and the stream is closed,
  whatever the file calls returned on the way.
* Of the disk, over a run: `Apart` says that one connection at most has an upload under way, and that
  what its stream took is in the file or still in the buffer (`Upload.Stored`).  A step of one
  connection keeps this of another because only one of them writes.  Two steps need `oneUpload`:
  `fopen`, which empties the file, and the `fclose` of a complete upload, which has to write the rest.

`uploads_unmixed` is the result for every run that meets `oneUpload`.  `uploads_mixed` is a run that
does not: two overlapping uploads, of which neither is what is installed.
-/

namespace LinuxRouter

open Text (lit)
open Files (Fs)
open Stdio (Stream Buffered)
open Program (Prog Along along_step along_last follow follow_cmd follow_nil Reach ReachIf Config)

/-! ### Uploads -/

/-- An upload under way: its stream, until it is closed, its announced size, what has been handed to
`bin_write`, what the stream has taken, and whether a write fell short or the stream was closed
before the end. -/
structure Upload where
  stream : Option Stream
  size : ℕ
  sent : List Byte
  written : List Byte
  failed : Bool
  deriving DecidableEq

/-- After an `fwrite`. -/
def Upload.wrote (p : List Byte) (n : ℕ) (f : Stream) (v : Upload) : Upload :=
  { v with stream := some f, written := v.written ++ p.take n, failed := v.failed || n != p.length }

/-- After `fclose`. -/
def Upload.close (v : Upload) : Upload :=
  { v with stream := none, failed := v.failed || v.sent.length != v.size }

/-- The upload under way. -/
def current : List Note → Option Upload
  | [] => none
  | .fopen (some f) :: _ =>
      some { stream := some f, size := 0, sent := [], written := [], failed := false }
  | .mark (.binary n) :: h => (current h).map fun v => { v with size := n }
  | .mark (.chunk p) :: h => (current h).map fun v => { v with sent := v.sent ++ p }
  | .fwrite p n f :: h => (current h).map (Upload.wrote p n f)
  | .fclose _ :: h => (current h).map Upload.close
  | .rename true :: _ => none
  | .unlink :: _ => none
  | _ :: h => current h

/-- The stream is that of the upload under way. -/
def OwnStream (f : Stream) (h : List Note) : Prop := ∃ v, current h = some v ∧ v.stream = some f

/-- The uploads that came to their end with all their bytes. -/
def completes : List Note → List (List Byte)
  | [] => []
  | .mark .finish :: h =>
      match current h with
      | some v => if v.sent.length = v.size then v.sent :: completes h else completes h
      | none => completes h
  | _ :: h => completes h

/-- Within the reply to an upload: whether it has been installed. -/
def installed : List Note → Option Bool
  | [] => none
  | .mark .finish :: h => if (current h).isSome then some false else none
  | .mark (.line _) :: _ => none
  | .rename true :: h => (installed h).map fun _ => true
  | _ :: h => installed h

/-- What a connection ensures before a command. -/
def putPre : ∀ ⦃β : Type⦄, MCmd β → List Note → Prop
  | _, .fopen, h => current h = none
  | _, .fwrite f _, h => OwnStream f h
  | _, .fclose f, h => OwnStream f h
  | _, .rename, h => ∃ v, current h = some v ∧ v.stream = none ∧ v.failed = false ∧
      v.written = v.sent ∧ v.sent.length = v.size ∧ v.sent ∈ completes h
  | _, .unlink, h => current h ≠ none
  | _, .send s, h => s = okReloaded → installed h ≠ some false
  | _, _, _ => True

/-- Whatever the answers are. -/
def putAns : ∀ ⦃β : Type⦄, MCmd β → β → Prop := fun _ _ _ => True

variable {h h' : List Note} {c : Conn} {α : Type}

/-- An upload that is complete stays so. -/
theorem completes_cons {s : List Byte} (hs : s ∈ completes h) (n : Note) : s ∈ completes (n :: h) := by
  cases n with
  | mark m =>
      cases m with
      | finish =>
          rw [completes]
          split
          · split
            · exact List.mem_cons_of_mem _ hs
            · exact hs
          · exact hs
      | _ => exact hs
  | _ => exact hs

/-- A command that neither changes nor installs an upload. -/
def MCmd.aside {β : Type} : MCmd β → Bool
  | .mark .authed => true
  | .mark _ => false
  | .send _ => false
  | .fopen => false
  | .fwrite _ _ => false
  | .fclose _ => false
  | .rename => false
  | .unlink => false
  | _ => true

/-- The upload under way and the reply to it are as they were. -/
structure Unmoved (h h' : List Note) : Prop where
  cur : current h' = current h
  inst : installed h' = installed h
  comp : ∀ s ∈ completes h, s ∈ completes h'

/-- Nothing has happened to the upload. -/
theorem Unmoved.refl (h : List Note) : Unmoved h h := ⟨rfl, rfl, fun _ hs => hs⟩

/-- Nothing has happened to it twice. -/
theorem Unmoved.trans {h h' h'' : List Note} (k₁ : Unmoved h h') (k₂ : Unmoved h' h'') : Unmoved h h'' :=
  ⟨k₂.cur.trans k₁.cur, k₂.inst.trans k₁.inst, fun s hs => k₂.comp s (k₁.comp s hs)⟩

theorem kept_note {β : Type} {c : MCmd β} (hc : c.aside = true) (a : β) (h : List Note) :
    Unmoved h (c.note a :: h) := by
  refine ⟨?_, ?_, fun s hs => completes_cons hs _⟩
  all_goals
    cases c with
    | mark m => cases m <;> first | rfl | cases hc
    | _ => first | rfl | cases hc

theorem unmoved_send (s : List Byte) (h : List Note) : Unmoved h (.send s :: h) :=
  ⟨rfl, rfl, fun _ hs => completes_cons hs _⟩

/-- A command that touches no upload may always come. -/
theorem putPre_of_aside {β : Type} {c : MCmd β} (hc : c.aside = true) : putPre c h := by
  cases c <;> trivial

/-- The judgment on a connection's program. -/
abbrev Puts (Q : α → List Note → Prop) (p : MAct α) (h : List Note) : Prop :=
  Along MCmd.note putPre putAns Q p h

/-- Such a command at the front of a program. -/
theorem aside_step {β : Type} {c : MCmd β} {f : β → MAct α} {Q : α → List Note → Prop}
    (hc : c.aside = true) (hf : ∀ a h', Unmoved h h' → Puts Q (f a) h') :
    Puts Q (Prog.perform c >>= f) h :=
  along_step (putPre_of_aside hc) fun a _ => hf a _ (kept_note hc a h)

/-- A reply that is not in answer to an upload, or does not say that it is installed. -/
theorem send_step {s : List Byte} {f : Unit → MAct α} {Q : α → List Note → Prop}
    (hs : s ≠ okReloaded ∨ installed h ≠ some false)
    (hf : ∀ h', Unmoved h h' → Puts Q (f ()) h') : Puts Q (sendStr s >>= f) h := by
  refine along_step (fun e => ?_) fun _ _ => hf _ (unmoved_send s h)
  rcases hs with hs | hs
  · exact absurd e hs
  · exact hs

theorem Puts.of_aside {p : MAct α} (hp : p.Every fun _ c => c.aside = true) (h : List Note) :
    Puts (fun _ h' => Unmoved h h') p h := by
  refine Along.of_every (R := Unmoved) Unmoved.refl ?_ ?_ hp h
  · exact fun β c h h' hc _ => putPre_of_aside hc
  · exact fun β c a h h' hc hr => hr.trans (kept_note hc a h')

/-! ### The functions -/

/-- What an open stream and the bytes still to come say of the upload. -/
structure Writes (f : Stream) (left : ℕ) (h : List Note) (v : Upload) : Prop where
  cur : current h = some v
  stream : v.stream = some f
  all : v.written = v.sent
  size : v.sent.length + left = v.size
  good : v.failed = false

/-- A connection that is receiving a `putconf` has its stream, and nobody else does. -/
structure PutOk (c : Conn) (h : List Note) : Prop where
  closed : c.pcfp = none → current h = none
  opened : ∀ f, c.pcfp = some f → c.binary = true ∧ c.mode = .putconf ∧ ∃ v, Writes f c.bleft h v
  reply : c.binary = true → installed h = none ∧ (c.mode = .putconf → c.pcfp ≠ none)

/-- Without an upload and without a payload. -/
theorem PutOk.idle (hp : c.pcfp = none) (hb : c.binary = false) (hc : current h = none) :
    PutOk c h :=
  ⟨fun _ => hc, fun f e => absurd (hp.symm.trans e) (by simp), fun e => absurd e (by simp [hb])⟩

/-- In line mode there is no stream. -/
theorem PutOk.no_file (hc : PutOk c h) (hb : c.binary = false) : c.pcfp = none ∧ current h = none := by
  cases hp : c.pcfp with
  | none => exact ⟨rfl, hc.closed hp⟩
  | some f =>
      have := (hc.opened f hp).1
      rw [hb] at this
      cases this

/-- Between two commands of a line. -/
def NoUpload (h : List Note) : Prop := current h = none ∧ installed h = none

/-- Where there is no upload something else begins none. -/
theorem NoUpload.kept (hn : NoUpload h) (hk : Unmoved h h') : NoUpload h' :=
  ⟨hk.cur.trans hn.1, hk.inst.trans hn.2⟩

/-- Lines that announce nothing begin none. -/
theorem plainOk_noUpload : PlainOk putPre NoUpload := by
  intro β c h hc hn
  cases c with
  | send s => exact ⟨fun _ => by simp [hn.2], fun _ => hn.kept (unmoved_send s h)⟩
  | mark m =>
      cases m with
      | authed => exact ⟨trivial, fun _ => hn⟩
      | _ => cases hc
  | _ => first | exact ⟨trivial, fun _ => hn⟩ | cases hc

/-- **`putconf`** begins one, with a stream of its own. -/
theorem handlePutconf_puts (hb : c.binary = false) (hn : NoUpload h) (hp : c.pcfp = none)
    (arg : List Byte) : Puts PutOk (handlePutconf c arg) h := by
  have hs : ∀ {h'} {s : List Byte}, NoUpload h' → s ≠ okReloaded ∨ installed h' ≠ some false :=
    fun hn => .inr (by simp [hn.2])
  unfold handlePutconf
  dsimp only
  split
  · exact send_step (hs hn) fun _ k => PutOk.idle hp hb (hn.kept k).1
  · refine along_step hn.1 fun f _ => ?_
    cases f with
    | none => exact send_step (hs (show NoUpload (.fopen none :: h) from hn)) fun _ k =>
        PutOk.idle rfl hb ((show NoUpload (.fopen none :: h) from hn).kept k).1
    | some f =>
        refine along_step trivial fun _ _ => ?_
        have hi : installed (.mark (.binary (Text.strtoul arg)) :: .fopen (some f) :: h) = none := hn.2
        refine send_step (.inr (by simp [MCmd.note, hi])) fun h₂ k => ?_
        refine ⟨fun e => (by cases e), fun f' e => ?_, fun _ => ⟨k.inst.trans hi, fun _ e => by cases e⟩⟩
        obtain rfl : f = f' := Option.some.inj e
        exact ⟨rfl, rfl, _, k.cur, rfl, rfl, by simp, rfl⟩

theorem handleUpgrade_puts (hb : c.binary = false) (hn : NoUpload h) (hp : c.pcfp = none)
    (arg sha : List Byte) : Puts PutOk (handleUpgrade c arg sha) h := by
  refine aside_step rfl fun err h₁ k₁ => ?_
  have hn₁ := hn.kept k₁
  cases err with
  | some err => exact send_step (.inr (by simp [hn₁.2])) fun _ k => PutOk.idle hp hb (hn₁.kept k).1
  | none =>
      refine along_step trivial fun _ _ => ?_
      have hn₂ : NoUpload (.mark (.binary (Text.strtoul arg)) :: h₁) :=
        ⟨by simp [current, hn₁.1], hn₁.2⟩
      refine send_step (.inr (by simp [MCmd.note, hn₂.2])) fun h₃ k => ?_
      exact ⟨fun _ => (hn₂.kept k).1, fun f e => absurd (hp.symm.trans e) (by simp),
        fun _ => ⟨(hn₂.kept k).2, fun e => by cases e⟩⟩

theorem processLinesFrom_puts (n : ℕ) (hc : PutOk c h) (hb : c.binary = false) :
    Puts PutOk (processLinesFrom n c) h := by
  refine processLinesFrom_along (fun c h raw rest hc hb _ _ => ⟨trivial, ?_⟩) n hc hb
  obtain ⟨hp, hcur⟩ := hc.no_file hb
  have hn : NoUpload (.mark (.line raw) :: h) := ⟨hcur, rfl⟩
  have hset : ∀ {d : Conn} {h'}, PutOk d h' → PutOk { d with ibuf := rest } h' :=
    fun hd => ⟨hd.closed, hd.opened, hd.reply⟩
  refine handleLine_along plainOk_noUpload hn ?_ (Text.nul_notMem_cstr _) ?_ ?_
  · exact fun d h' ha hn => PutOk.idle (ha.pcfp.trans hp) (ha.binary.trans hb) hn.1
  · exact fun arg _ _ => (handlePutconf_puts hb hn hp arg).mono fun _ _ => hset
  · exact fun arg sha _ _ => (handleUpgrade_puts hb hn hp arg sha).mono fun _ _ => hset

/-- The end of a connection removes the upload it has under way. -/
theorem connClose_puts (hc : ∀ f, c.pcfp = some f → OwnStream f h) :
    Puts (fun _ _ => True) (connClose c) h := by
  unfold connClose
  split
  · rename_i f _ hf
    obtain ⟨v, hv, hs⟩ := hc f hf
    refine along_step ⟨v, hv, hs⟩ fun ok _ => along_last ?_ fun _ _ => trivial
    show current (.fclose ok :: h) ≠ none
    simp [current, hv]
  · exact along_last trivial fun _ _ => trivial
  · trivial

/-- A connection that goes on is in order. -/
def PutsOn (r : Option Conn) (h : List Note) : Prop := ∀ c, r = some c → PutOk c h

/-- A connection that has ended has no upload. -/
theorem putsOn_none (h : List Note) : PutsOn none h := fun _ e => nomatch e

/-- The end of a connection closes its own stream. -/
theorem close_puts (hc : ∀ f, c.pcfp = some f → OwnStream f h) :
    Puts PutsOn (connClose c >>= fun _ => .ret none) h :=
  Along.bind ((connClose_puts hc).mono fun _ h' _ => putsOn_none h')

/-- The stream of a connection is its own. -/
theorem PutOk.file (hc : PutOk c h) (f : Stream) (hf : c.pcfp = some f) : OwnStream f h := by
  obtain ⟨-, -, v, hv⟩ := hc.opened f hf
  exact ⟨v, hv.cur, hv.stream⟩

theorem OwnStream.kept {f : Stream} (hf : OwnStream f h) (k : Unmoved h h') : OwnStream f h' := by
  obtain ⟨v, hv, hs⟩ := hf
  exact ⟨v, k.cur.trans hv, hs⟩

theorem processLines_puts (hc : PutOk c h) (hb : c.binary = false) :
    Puts PutsOn (some <$> processLines c) h := by
  refine Along.map ((processLinesFrom_puts _ hc hb).mono fun d h' hd e he => ?_)
  obtain rfl := Option.some.inj he
  exact hd

theorem pumpLines_puts (hc : PutOk c h) (hb : c.binary = false) :
    Puts PutsOn (pumpLines c) h := by
  unfold pumpLines
  split
  · exact send_step (.inl (by decide)) fun h₁ k => close_puts fun f hf => (hc.file f hf).kept k
  · exact processLines_puts hc hb

/-- What a part of a payload leaves: with all of it written, or a failure. -/
def wroteOk (c : Conn) (k : ℕ) (h : List Note) (r : Bool × Conn) (h' : List Note) : Prop :=
  r.2.bleft = c.bleft ∧ r.2.binary = c.binary ∧ r.2.mode = c.mode ∧
    (∀ f, r.2.pcfp = some f → OwnStream f h') ∧
    (r.1 = true → installed h' = installed h ∧ (r.2.pcfp = none ↔ c.pcfp = none) ∧
      (r.2.pcfp = none → current h' = none) ∧
      ∀ f, r.2.pcfp = some f → ∃ v, Writes f (c.bleft - k) h' v)

/-- **A part of a payload** is written behind what the upload has. -/
theorem binWrite_puts (hc : PutOk c h) (hb : c.binary = true) {p : List Byte}
    (hp : p.length ≤ c.bleft) : Puts (wroteOk c p.length h) (binWrite c p) h := by
  -- an upgrade, of which no file is open
  have hidle : ∀ {h' : List Note} {b : Bool}, c.pcfp = none →
      Unmoved (.mark (.chunk p) :: h) h' → wroteOk c p.length h (b, c) h' := by
    intro h' b hn k
    have hcur : current h' = none := k.cur.trans (by simp [current, hc.closed hn])
    have hno : ∀ f, c.pcfp = some f → False := fun f hf => absurd (hn.symm.trans hf) (by simp)
    exact ⟨rfl, rfl, rfl, fun f hf => (hno f hf).elim, fun _ =>
      ⟨k.inst, Iff.rfl, fun _ => hcur, fun f hf => (hno f hf).elim⟩⟩
  have hmode : c.mode ≠ .putconf → c.pcfp = none := fun hne => by
    cases hf : c.pcfp with
    | none => rfl
    | some f => exact absurd (hc.opened f hf).2.1 hne
  unfold binWrite
  refine along_step trivial fun _ _ => ?_
  split
  · rename_i f hm hf
    obtain ⟨-, -, v, hv⟩ := hc.opened f hf
    have hcur : current (.mark (.chunk p) :: h) = some { v with sent := v.sent ++ p } := by
      simp [current, hv.cur]
    refine along_step ⟨_, hcur, hv.stream⟩ fun r _ => ?_
    obtain ⟨n, f'⟩ := r
    have hcur' : current (.fwrite p n f' :: .mark (.chunk p) :: h) =
        some (({ v with sent := v.sent ++ p } : Upload).wrote p n f') := by
      rw [current, hcur, Option.map_some]
    have hfile : OwnStream f' (.fwrite p n f' :: .mark (.chunk p) :: h) := ⟨_, hcur', rfl⟩
    refine ⟨rfl, rfl, rfl, fun f'' e => ?_, fun hn =>
      ⟨rfl, by simp [hf], fun e => (by cases e), fun f'' e => ?_⟩⟩
    · obtain rfl := Option.some.inj e
      exact hfile
    · obtain rfl := Option.some.inj e
      obtain rfl : n = p.length := of_decide_eq_true hn
      have hsize := hv.size
      refine ⟨_, hcur', rfl, ?_, ?_, ?_⟩
      · simp [Upload.wrote, hv.all]
      · simp only [Upload.wrote, List.length_append]
        omega
      · simp [Upload.wrote, hv.good]
  · rename_i hm hf
    exact absurd hf ((hc.reply hb).2 hm)
  · rename_i hm
    have hn := hmode (by simp [hm])
    refine aside_step rfl fun err _ k => ?_
    cases err with
    | none => exact hidle hn k
    | some err =>
        refine send_step (.inr ?_) fun _ k' => hidle hn (k.trans k')
        rw [k.inst]
        simp [installed, MCmd.note, (hc.reply hb).1]
  · rename_i hm
    exact hidle (hmode (by simp [hm])) (Unmoved.refl _)

theorem aside_of_config {β : Type} {c : MCmd β} (hc : c.ofConfig = true) : c.aside = true := by
  cases c <;> first | rfl | cases hc

/-- What `bin_finish` leaves. -/
def finishedOk (r : Finish) (h' : List Note) : Prop :=
  (∀ d, r = .failed d → d.pcfp = none) ∧ ∀ d, r = .done d → PutOk d h' ∧ d.binary = false

/-- The end of a `putconf`: only what was installed is said to be. -/
theorem finishPutconf_puts {f : Stream} {v : Upload} (hb : c.binary = false) (hp : c.pcfp = none)
    (hv : Writes f 0 h v) (hdone : v.sent ∈ completes h) (ok : Bool) :
    Puts finishedOk (finishPutconf c) (.fclose ok :: h) := by
  have hcur : current (.fclose ok :: h) = some v.close := by rw [current, hv.cur, Option.map_some]
  have hsize : v.sent.length = v.size := hv.size
  have hgood : v.close.failed = false := by simp [Upload.close, hv.good, hsize]
  refine along_step ⟨v.close, hcur, rfl, hgood, hv.all, hsize, hdone⟩ fun ok' _ => ?_
  cases ok' with
  | false =>
      have hcur' : current (.rename false :: .fclose ok :: h) ≠ none := by simp [current, hv.cur]
      refine along_step hcur' fun _ _ => send_step (.inl (by decide)) fun h₂ k => ?_
      refine ⟨fun d e => ?_, fun d e => by cases e⟩
      cases e
      exact hp
  | true =>
      refine Along.bind ((Puts.of_aside (Prog.Every.mono configLoadSteps_every
        fun _ _ hc => aside_of_config hc) _).mono fun _ h₂ k₂ => ?_)
      refine aside_step rfl fun _ h₃ k₃ => send_step (.inr ?_) fun h₄ k₄ => ?_
      · rw [k₃.inst, k₂.inst]
        simp only [MCmd.note, installed]
        cases installed h <;> simp
      · refine ⟨fun d e => (by cases e), fun d e => ?_⟩
        cases e
        exact ⟨PutOk.idle hp hb ((k₄.cur.trans k₃.cur).trans k₂.cur), hb⟩

/-- **The end of a payload** closes the stream, and renames the file if nothing failed. -/
theorem binFinish_puts (hb : c.binary = false)
    (hnone : c.pcfp = none → current h = none ∧ c.mode ≠ .putconf)
    (hsome : ∀ f, c.pcfp = some f → c.mode = .putconf ∧ ∃ v, Writes f 0 h v) :
    Puts finishedOk (binFinish c) h := by
  cases hf : c.pcfp with
  | some f =>
      obtain ⟨hm, v, hv⟩ := hsome f hf
      have hsize : v.sent.length = v.size := hv.size
      have hv' : Writes f 0 (.mark .finish :: h) v := ⟨hv.cur, hv.stream, hv.all, hv.size, hv.good⟩
      rw [binFinish_putconf hm, hf]
      refine along_step trivial fun _ _ => along_step ⟨v, hv'.cur, hv'.stream⟩ fun ok _ => ?_
      refine finishPutconf_puts (c := { c with pcfp := none }) hb rfl hv' ?_ ok
      simp [completes, hv.cur, hsize]
  | none =>
      obtain ⟨hcur, hm⟩ := hnone hf
      have hn : NoUpload (.mark .finish :: h) := ⟨hcur, by simp [installed, hcur]⟩
      have hreply : ∀ {h'}, NoUpload h' → ∀ s, s ≠ okReloaded ∨ installed h' ≠ some false :=
        fun hn _ => .inr (by simp [hn.2])
      unfold binFinish
      refine along_step trivial fun _ _ => ?_
      split
      · rename_i hm'
        exact absurd hm' hm
      · refine aside_step rfl fun err h₁ k₁ => ?_
        have hn₁ := hn.kept k₁
        cases err with
        | some err =>
            refine send_step (hreply hn₁ _) fun _ _ => ⟨fun d e => ?_, fun d e => by cases e⟩
            cases e
            exact hf
        | none =>
            refine send_step (hreply hn₁ _) fun h₂ k₂ => aside_step rfl fun ok h₃ k₃ => ?_
            cases ok with
            | true => exact ⟨fun d e => (by cases e), fun d e => by cases e⟩
            | false =>
                refine ⟨fun d e => (by cases e), fun d e => ?_⟩
                cases e
                exact ⟨PutOk.idle hf hb ((hn₁.kept k₂).kept k₃).1, hb⟩
      · refine ⟨fun d e => (by cases e), fun d e => ?_⟩
        cases e
        exact ⟨PutOk.idle hf hb hn.1, hb⟩

/-- **A turn with a payload.** -/
theorem pumpBinary_puts (hc : PutOk c h) (hb : c.binary = true) :
    Puts PutsOn (pumpBinary c) h := by
  rw [pumpBinary_eq]
  have hle : min c.ibuf.length c.bleft ≤ c.bleft := Nat.min_le_right _ _
  have hlen : (c.ibuf.take (min c.ibuf.length c.bleft)).length = min c.ibuf.length c.bleft := by
    rw [List.length_take]
    omega
  generalize min c.ibuf.length c.bleft = take at hle hlen ⊢
  have hwrite : Puts (wroteOk c take h)
      (if take = 0 then .ret (true, c) else binWrite c (c.ibuf.take take)) h := by
    split
    · rename_i h0
      refine ⟨rfl, rfl, rfl, hc.file, fun _ => ⟨rfl, Iff.rfl, hc.closed, fun f hf => ?_⟩⟩
      rw [h0]
      exact (hc.opened f hf).2.2
    · have := binWrite_puts hc hb (p := c.ibuf.take take) (by omega)
      rwa [hlen] at this
  refine Along.bind (hwrite.mono ?_)
  rintro ⟨ok, d⟩ h₁ ⟨hbl, hbin, hmode, hfile, hok⟩
  simp only at hbl hbin hmode hfile
  cases ok with
  | false => exact close_puts hfile
  | true =>
      obtain ⟨hi, hiff, hclosed, hopen⟩ := hok rfl
      simp only at hi hiff hclosed hopen
      obtain ⟨hi₀, hput⟩ := hc.reply hb
      -- the write leaves the file as open as it was
      have hput' : d.mode = .putconf → d.pcfp ≠ none := fun hm => by
        rw [Ne, hiff]
        exact hput (hmode ▸ hm)
      have hmode' : ∀ f, d.pcfp = some f → d.mode = .putconf := fun f hf => by
        cases hcf : c.pcfp with
        | none => exact absurd ((hiff.mpr hcf).symm.trans hf) (by simp)
        | some f' => exact hmode.trans (hc.opened f' hcf).2.1
      simp only [pumpAfter, Bool.not_true, Bool.false_eq_true, if_false]
      split
      · intro e he
        obtain rfl := Option.some.inj he
        refine ⟨hclosed, fun f hf => ⟨hbin.trans hb, hmode' f hf, ?_⟩,
          fun _ => ⟨hi.trans hi₀, hput'⟩⟩
        rw [hbl]
        exact hopen f hf
      · rename_i hend
        -- the payload is complete
        have hzero : c.bleft - take = 0 := by
          rw [← hbl]
          exact not_not.mp hend
        rw [hzero] at hopen
        refine Along.bind ((binFinish_puts (c := { d with
          ibuf := d.ibuf.drop _, bleft := d.bleft - _, binary := false }) rfl
          (fun hn => ⟨hclosed hn, fun hm => hput' hm hn⟩)
          (fun f hf => ⟨hmode' f hf, hopen f hf⟩)).mono fun r h₂ hr => ?_)
        cases r with
        | failed e => exact close_puts fun f hf => absurd ((hr.1 e rfl).symm.trans hf) (by simp)
        | replaced => exact putsOn_none h₂
        | done e => exact processLines_puts (hr.2 e rfl).1 (hr.2 e rfl).2

/-- **A turn** of a connection. -/
theorem connRound_puts (hc : PutOk c h) : Puts PutsOn (connRound c) h := by
  have hkept : ∀ {h' : List Note}, Unmoved h h' → PutOk c h' := fun k =>
    ⟨fun e => k.cur.trans (hc.closed e),
      fun f e => (hc.opened f e).imp_right <| And.imp_right fun ⟨v, hv⟩ =>
        ⟨v, k.cur.trans hv.cur, hv.stream, hv.all, hv.size, hv.good⟩,
      fun e => ⟨k.inst.trans (hc.reply e).1, (hc.reply e).2⟩⟩
  unfold connRound
  split
  · exact close_puts hc.file
  · refine aside_step rfl fun stop _ k₁ => ?_
    split
    · exact close_puts (hkept k₁).file
    · refine aside_step rfl fun bytes _ k₂ => ?_
      have hc₂ := hkept (k₁.trans k₂)
      split
      · exact close_puts hc₂.file
      · dsimp only
        have hc₃ : PutOk { c with ibuf := c.ibuf ++ bytes } _ := ⟨hc₂.closed, hc₂.opened, hc₂.reply⟩
        split
        · rename_i hb
          exact pumpBinary_puts hc₃ hb
        · rename_i hb
          exact pumpLines_puts hc₃ (by simpa using hb)

/-- A new connection has no upload. -/
theorem connStart_puts : Puts PutOk connStart [] :=
  send_step (.inl (by decide)) fun _ k₁ => aside_step rfl fun _ _ k₂ =>
    PutOk.idle rfl rfl (k₂.cur.trans k₁.cur)

/-! ### Runs -/

variable {admin : Manage → Manage → Prop} {x y z : Config MCmd Manage (List Note) ℕ Task}

/-- A connection about to perform a command has what the command needs. -/
theorem putPre_run (hx : Started x) (hr : Reach (manage admin) Program.anyStep x y) {t : ℕ}
    {β : Type} {c : MCmd β} {k : β → MAct (Option Task)} (ht : y.thread t = .running (.cmd c k)) :
    putPre c (y.ghost t) := by
  have hreload : ∀ h, Puts (fun _ _ => True) reload h := fun h =>
    (Puts.of_aside (Prog.Every.mono reload_every fun _ _ hc => aside_of_config hc) h).mono
      fun _ _ _ => trivial
  have hm := (manage_along (I := fun _ => True) (fun _ _ _ _ _ _ => trivial) (fun _ _ _ _ _ _ _ => trivial) trivial
    connStart_puts (fun c h hc => connRound_puts hc) hreload hx hr t).2
  rw [ht] at hm
  exact hm.1

/-- A command other than those of a `putconf` that writes to the disk. -/
def MCmd.foreign {β : Type} : MCmd β → Bool
  | .upgradeBegin _ _ => true
  | .upgradeWrite _ => true
  | .upgradeFinish => true
  | .upgradeAbort => true
  | .configSave => true
  | _ => false

/-- The stream that a command closes. -/
def MCmd.closes {β : Type} : MCmd β → Option Stream
  | .fclose f => some f
  | _ => none

/-- The upload under way is all there. -/
def Complete (h : List Note) : Prop :=
  ∃ v, current h = some v ∧ v.failed = false ∧ v.sent.length = v.size

/-- No upload is started while another is under way; `fclose` writes all that is left of a complete
one; and nothing but uploads writes to the disk. -/
def oneUpload (g : ℕ → List Note) : ∀ ⦃β : Type⦄, ℕ → MCmd β → World → Manage → Prop :=
  fun _ t c e s => (∀ f, c.note (execM c e s).1 = .fopen (some f) → ∀ t', t' ≠ t → current (g t') = none) ∧
    (∀ f, c.closes = some f → Complete (g t) → ∀ j, e.flushed = some j → f.buf.length ≤ j) ∧
    (c.foreign = true → (execM c e s).2.disk = s.disk)

/-- A change from outside that leaves the disk alone. -/
def sameDisk (s s' : Manage) : Prop := s'.disk = s.disk

/-- What the disk has of an upload: while its stream is open, what that has taken is in the file or in
the buffer; after that it is in the file. -/
structure Upload.Stored (v : Upload) (fs : Disk) : Prop where
  opened : ∀ f, v.stream = some f → Buffered fs confTmp f v.written
  closed : v.stream = none → v.failed = false → ∃ f, fs.Writing confTmp f v.written

/-- The invariant of a run. -/
structure Apart (s : Manage) (g : ℕ → List Note) : Prop where
  one : ∀ t t', current (g t) ≠ none → current (g t') ≠ none → t = t'
  file : ∀ t v, current (g t) = some v → v.Stored s.disk
  conf : (∃ t, Note.rename true ∈ g t) → ∃ t, ∃ text ∈ completes (g t),
    s.disk.read configFile = some text

/-- The upload's file is not the configuration. -/
theorem configFile_ne : configFile ≠ confTmp := by decide

/-- While a connection has an upload no other has one. -/
theorem Apart.others {s : Manage} {g : ℕ → List Note} {t : ℕ} (h : Apart s g)
    (ht : current (g t) ≠ none) (t' : ℕ) (hne : t' ≠ t) : current (g t') = none := by
  by_contra hc
  exact hne (h.one t' t hc ht)

/-- What is to be shown of a step. -/
theorem Apart.update {s s' : Manage} {g : ℕ → List Note} {t : ℕ} {n : Note} (h : Apart s g)
    (hone : current (n :: g t) ≠ none → ∀ t', t' ≠ t → current (g t') = none)
    (hown : ∀ v, current (n :: g t) = some v → v.Stored s'.disk)
    (hother : ∀ t' v, t' ≠ t → current (g t') = some v → s'.disk = s.disk)
    (hren : n = .rename true → ∃ text ∈ completes (g t), s'.disk.read configFile = some text)
    (hconf : n ≠ .rename true → s'.disk.read configFile = s.disk.read configFile) :
    Apart s' (Function.update g t (n :: g t)) := by
  have hcomp : ∀ t', ∀ text ∈ completes (g t'),
      text ∈ completes (Function.update g t (n :: g t) t') := by
    intro t' text htext
    by_cases e : t' = t
    · rw [e, Function.update_self]
      exact completes_cons (e ▸ htext) n
    · rwa [Function.update_of_ne e]
  -- one upload at a time, what it has written, and what has been installed
  refine ⟨fun a b ha hb => ?_, fun a v hv => ?_, fun ⟨a, ha⟩ => ?_⟩
  · by_cases ea : a = t
    · by_cases eb : b = t
      · exact ea.trans eb.symm
      · rw [ea, Function.update_self] at ha
        rw [Function.update_of_ne eb] at hb
        exact absurd (hone ha b eb) hb
    · by_cases eb : b = t
      · rw [eb, Function.update_self] at hb
        rw [Function.update_of_ne ea] at ha
        exact absurd (hone hb a ea) ha
      · rw [Function.update_of_ne ea] at ha
        rw [Function.update_of_ne eb] at hb
        exact h.one a b ha hb
  · by_cases e : a = t
    · rw [e, Function.update_self] at hv
      exact hown v hv
    · rw [Function.update_of_ne e] at hv
      rw [hother a v e hv]
      exact h.file a v hv
  · by_cases hn : n = .rename true
    · obtain ⟨text, htext, hread⟩ := hren hn
      exact ⟨t, text, hcomp t text htext, hread⟩
    · have hold : ∃ b, Note.rename true ∈ g b := by
        refine ⟨a, ?_⟩
        by_cases e : a = t
        · rw [e, Function.update_self] at ha
          rcases List.mem_cons.mp ha with e' | ha
          · exact absurd e'.symm hn
          · exact e ▸ ha
        · rwa [Function.update_of_ne e] at ha
      obtain ⟨b, text, htext, hread⟩ := h.conf hold
      exact ⟨b, text, hcomp b text htext, (hconf hn).trans hread⟩

/-- A step that does not touch the disk, and of the upload under way neither stream nor content. -/
theorem Apart.quiet {s s' : Manage} {g : ℕ → List Note} {t : ℕ} {n : Note} (h : Apart s g)
    (hs : s'.disk = s.disk) (hn : n ≠ .rename true)
    (hcur : ∀ v', current (n :: g t) = some v' → ∃ v, current (g t) = some v ∧ v'.stream = v.stream ∧
      v'.written = v.written ∧ v'.failed = v.failed) :
    Apart s' (Function.update g t (n :: g t)) := by
  refine h.update (fun hc => ?_) (fun v' hv' => ?_) (fun _ _ _ _ => hs)
    (fun e => absurd e hn) (fun _ => by rw [hs])
  · obtain ⟨v', hv'⟩ := Option.ne_none_iff_exists'.mp hc
    obtain ⟨v, hv, -⟩ := hcur v' hv'
    exact h.others (by simp [hv])
  · obtain ⟨v, hv, hst, hw, hff⟩ := hcur v' hv'
    have hold := h.file t v hv
    rw [hs]
    exact ⟨fun f hf => hw ▸ hold.opened f (hst ▸ hf), fun hc hf => hw ▸ hold.closed (hst ▸ hc) (hff ▸ hf)⟩

/-- A step that neither changes nor installs an upload. -/
theorem Apart.kept {s s' : Manage} {g : ℕ → List Note} {t : ℕ} {n : Note} (h : Apart s g)
    (k : Unmoved (g t) (n :: g t)) (hs : s'.disk = s.disk) (hn : n ≠ .rename true) :
    Apart s' (Function.update g t (n :: g t)) :=
  h.quiet hs hn fun v' hv' => ⟨v', k.cur.symm.trans hv', rfl, rfl, rfl⟩

/-- A call on the upload's stream, which leaves `router.conf`. -/
theorem Apart.own {s s' : Manage} {g : ℕ → List Note} {t : ℕ} {n : Note} {v v' : Upload} (h : Apart s g)
    (hv : current (g t) = some v) (hv' : current (n :: g t) = some v') (hst : v'.Stored s'.disk)
    (hn : n ≠ .rename true) (hsame : Fs.Same configFile s.disk s'.disk) :
    Apart s' (Function.update g t (n :: g t)) := by
  have hothers := h.others (t := t) (by simp [hv])
  refine h.update (fun _ => hothers) (fun w hw => ?_)
    (fun t' w hne hw => absurd ((hothers t' hne).symm.trans hw) (by simp)) (fun e => absurd e hn)
    (fun _ => hsame.read)
  obtain rfl : v' = w := Option.some.inj (hv'.symm.trans hw)
  exact hst

/-- The end of an upload: no stream is open. -/
theorem Apart.over {s s' : Manage} {g : ℕ → List Note} {t : ℕ} {n : Note} (h : Apart s g)
    (hn : current (n :: g t) = none) (hc : current (g t) ≠ none)
    (hren : n = .rename true → ∃ text ∈ completes (g t), s'.disk.read configFile = some text)
    (hconf : n ≠ .rename true → s'.disk.read configFile = s.disk.read configFile) :
    Apart s' (Function.update g t (n :: g t)) :=
  h.update (fun hc' => absurd hn hc') (fun v hv => absurd (hn.symm.trans hv) (by simp))
    (fun t' v hne hv => absurd ((h.others hc t' hne).symm.trans hv) (by simp)) hren hconf

section Calls

variable {s : Manage} {g : ℕ → List Note} {t : ℕ} {e : World}

/-- `fopen`, where no other connection has an upload. -/
theorem Apart.fopen (h : Apart s g) (hok : oneUpload g t .fopen e s) :
    Apart (execM .fopen e s).2 (Function.update g t (.fopen (execM .fopen e s).1 :: g t)) := by
  by_cases ho : e.opened = true
  · have hfile : (execM .fopen e s).1 = some (Stdio.fopenW confTmp s.disk).1 := by simp [execM, ho]
    have hdisk : (execM .fopen e s).2.disk = (Stdio.fopenW confTmp s.disk).2 := by simp [execM, ho]
    have hnone := hok.1 _ (congrArg Note.fopen hfile)
    rw [hfile]
    refine h.update (fun _ => hnone) (fun v hv => ?_)
      (fun t' v hne hv => absurd ((hnone t' hne).symm.trans hv) (by simp)) (fun e => by cases e)
      (fun _ => ?_)
    · obtain rfl := Option.some.inj hv
      rw [hdisk]
      refine ⟨fun f hf => ?_, fun hc => by cases hc⟩
      obtain rfl := Option.some.inj hf
      exact Stdio.buffered_fopenW confTmp s.disk
    · rw [hdisk]
      exact (Fs.same_openW configFile_ne).read
  · have hfile : (execM .fopen e s).1 = none := by simp [execM, ho]
    rw [hfile]
    exact h.kept ⟨rfl, rfl, fun _ hs => hs⟩ (by simp [execM, ho]) (fun e => by cases e)

/-- What the stream takes is in the file or in its buffer. -/
theorem Apart.fwrite {f : Stream} (h : Apart s g) (hp : OwnStream f (g t)) (p : List Byte) :
    Apart (execM (.fwrite f p) e s).2 (Function.update g t
      (.fwrite p (execM (.fwrite f p) e s).1.1 (execM (.fwrite f p) e s).1.2 :: g t)) := by
  obtain ⟨v, hv, hs⟩ := hp
  have hb := (h.file t v hv).opened f hs
  refine h.own hv (by rw [current, hv, Option.map_some]) ⟨fun f' hf' => ?_, fun hc => by cases hc⟩
    (fun e => by cases e) (hb.same_fwrite configFile_ne _ p)
  obtain rfl := Option.some.inj hf'
  have htaken : p.take (execM (.fwrite f p) e s).1.1 = p.take (e.written f p.length).taken := by
    rw [List.take_eq_take_iff]
    simp [execM, Stdio.fwrite]
  rw [Upload.wrote, htaken]
  exact hb.fwrite _ p

/-- After `fclose` a complete upload is in the file. -/
theorem Apart.fclose {f : Stream} (h : Apart s g) (hp : OwnStream f (g t))
    (hok : oneUpload g t (.fclose f) e s) :
    Apart (execM (.fclose f) e s).2
      (Function.update g t (.fclose (execM (.fclose f) e s).1 :: g t)) := by
  obtain ⟨v, hv, hs⟩ := hp
  have hb := (h.file t v hv).opened f hs
  refine h.own hv (by rw [current, hv, Option.map_some]) ⟨fun f' hf' => (by cases hf'), fun _ hgood => ?_⟩
    (fun e => by cases e) (hb.same_fclose configFile_ne _)
  have hgood : v.failed = false ∧ v.sent.length = v.size := by simpa [Upload.close] using hgood
  obtain ⟨f', w, hw, hall⟩ := hb.fclose e.flushed
  obtain rfl : w = v.written := hall.mpr (hok.2.1 f rfl ⟨v, hv, hgood⟩)
  exact ⟨f', hw⟩

/-- `rename` installs the upload. -/
theorem Apart.rename (h : Apart s g) (hp : putPre .rename (g t)) :
    Apart (execM .rename e s).2 (Function.update g t (.rename (execM .rename e s).1 :: g t)) := by
  obtain ⟨v, hv, hstream, hgood, hall, -, hdone⟩ := hp
  obtain ⟨f, hw⟩ := (h.file t v hv).closed hstream hgood
  simp only [execM]
  split
  · refine h.over rfl (by simp [hv]) (fun _ => ⟨v.sent, hdone, ?_⟩) (fun e => absurd rfl e)
    rw [← hall]
    exact hw.rename configFile_ne
  · exact h.kept ⟨rfl, rfl, fun _ hs => hs⟩ rfl (fun e => by cases e)

/-- A mark is of no upload. -/
theorem Apart.mark (h : Apart s g) (m : Mark) :
    Apart s (Function.update g t (.mark m :: g t)) := by
  refine h.quiet rfl (fun e => by cases e) fun v' hv' => ?_
  cases m with
  | binary n =>
      obtain ⟨v, hv, rfl⟩ := Option.map_eq_some_iff.mp hv'
      exact ⟨v, hv, rfl, rfl, rfl⟩
  | chunk p =>
      obtain ⟨v, hv, rfl⟩ := Option.map_eq_some_iff.mp hv'
      exact ⟨v, hv, rfl, rfl, rfl⟩
  | _ => exact ⟨v', hv', rfl, rfl, rfl⟩

/-- **One command** keeps the uploads apart. -/
theorem Apart.exec {β : Type} {c : MCmd β} (h : Apart s g) (hp : putPre c (g t))
    (hok : oneUpload g t c e s) :
    Apart (execM c e s).2 (Function.update g t (c.note (execM c e s).1 :: g t)) := by
  cases c with
  | fopen => exact h.fopen hok
  | fwrite f p => exact h.fwrite hp p
  | fclose f => exact h.fclose hp hok
  | rename => exact h.rename hp
  | unlink =>
      exact h.over rfl hp (fun e => by cases e) fun _ => (Fs.same_unlink configFile_ne).read
  | mark m => exact h.mark m
  | send str => exact h.kept (unmoved_send str _) rfl (fun e => by cases e)
  | upgradeBegin _ _ => exact h.kept (kept_note rfl _ _) (hok.2.2 rfl) (fun e => by cases e)
  | upgradeWrite _ => exact h.kept (kept_note rfl _ _) (hok.2.2 rfl) (fun e => by cases e)
  | upgradeFinish => exact h.kept (kept_note rfl _ _) (hok.2.2 rfl) (fun e => by cases e)
  | upgradeAbort => exact h.kept (kept_note rfl _ _) (hok.2.2 rfl) (fun e => by cases e)
  | configSave => exact h.kept (kept_note rfl _ _) (hok.2.2 rfl) (fun e => by cases e)
  | _ => exact h.kept (kept_note rfl _ _) rfl (fun e => by cases e)

end Calls

/-- **One step** of a run keeps them apart. -/
theorem Apart.step (hx : Started x) (hr : Reach (manage sameDisk) Program.anyStep x y)
    (h : Apart y.shared y.ghost) (hs : Program.Step (manage sameDisk) (oneUpload y.ghost) y z) :
    Apart z.shared z.ghost := by
  cases hs with
  | start t ht => exact h
  | exec t e ht hok => exact h.exec (putPre_run hx hr ht) hok
  | finish t ht => exact h
  | admin ha =>
      have ha : _ = _ := ha
      refine ⟨h.one, fun t v hv => ?_, fun hc => ?_⟩
      · rw [ha]
        exact h.file t v hv
      · rw [ha]
        exact h.conf hc

/-- **Every run** keeps them apart. -/
theorem apart_run (hx : Started x) (hr : ReachIf (manage sameDisk) oneUpload x y) :
    Apart y.shared y.ghost := by
  have hg : ∀ t, x.ghost t = [] := fun t => (hx t).1
  have hinit : Apart x.shared x.ghost := by
    refine ⟨fun t _ hc => ?_, fun t v hv => ?_, fun ⟨t, ht⟩ => ?_⟩
    · rw [hg t] at hc
      exact absurd rfl hc
    · rw [hg t] at hv
      cases hv
    · rw [hg t] at ht
      cases ht
  induction hr with
  | refl => exact hinit
  | tail hr hs ih => exact ih.step hx (ReachIf.reach hr) hs

/-- What is asked of a step of the connection `t`. -/
structure Unmixed (t : ℕ) {β : Type} (c : MCmd β) (e : World) (s : Manage) (g : ℕ → List Note) :
    Prop where
  /-- when `config_load` runs after an upload, `router.conf` is a complete upload -/
  load : ∀ text, c.note (execM c e s).1 = .readConf text → (∃ t', Note.rename true ∈ g t') →
    ∃ t', ∃ upload ∈ completes (g t'), s.disk.read configFile = some upload
  /-- a connection installs its own upload, with all its bytes -/
  install : c.note (execM c e s).1 = .rename true → ∃ v, current (g t) = some v ∧
    v.sent.length = v.size ∧ (execM c e s).2.disk.read configFile = some v.sent
  /-- and says so only when it has -/
  told : c.note (execM c e s).1 = .send okReloaded → installed (g t) ≠ some false

/-- **Uploads do not mix** in any run of any number of connections in which no upload is started
while another is under way, and nothing else writes to the disk. -/
theorem uploads_unmixed (hx : Started x) (hr : ReachIf (manage sameDisk) oneUpload x y) (t : ℕ)
    {β : Type} (c : MCmd β) (k : β → MAct (Option Task)) (e : World)
    (ht : y.thread t = .running (.cmd c k)) : Unmixed t c e y.shared y.ghost := by
  have ha := apart_run hx hr
  have hp := putPre_run hx (ReachIf.reach hr) ht
  refine ⟨fun text _ hc => ha.conf hc, fun hn => ?_, fun hn => ?_⟩
  · cases c with
    | rename =>
        obtain ⟨v, hv, hstream, hgood, hall, hsize, -⟩ := hp
        obtain ⟨f, hw⟩ := (ha.file t v hv).closed hstream hgood
        refine ⟨v, hv, hsize, ?_⟩
        simp only [execM, MCmd.note] at hn ⊢
        split at hn
        · rename_i hre
          rw [if_pos hre, ← hall]
          exact hw.rename configFile_ne
        · cases hn
    | _ => cases hn
  · cases c with
    | send str =>
        obtain rfl : str = okReloaded := by simpa [MCmd.note] using hn
        exact hp rfl
    | _ => cases hn

/-- A schedule of one thread, in which nothing but an upload writes to the disk. -/
theorem playIf_alone {w : List (ℕ × World)} (hw : ∀ te ∈ w, te.1 = 0)
    (hflush : ∀ te ∈ w, te.2.flushed = none) (hg : ∀ t, t ≠ 0 → x.ghost t = [])
    (hf : Program.PlayOk (manage sameDisk)
      (fun _ _ c e s => c.foreign = true → (execM c e s).2.disk = s.disk) w x) :
    Program.PlayIf (manage sameDisk) oneUpload w x := by
  induction w generalizing x with
  | nil => trivial
  | cons te w ih =>
      obtain ⟨t, e⟩ := te
      obtain rfl : t = 0 := hw (t, e) List.mem_cons_self
      refine ⟨⟨?_, trivial⟩, ih (fun te hte => hw te (List.mem_cons_of_mem _ hte))
        (fun te hte => hflush te (List.mem_cons_of_mem _ hte)) ?_ hf.2⟩
      · have hf₁ := hf.1
        revert hf₁
        cases x.thread 0 with
        | running p =>
            cases p with
            | cmd c k =>
                have he : e.flushed = none := hflush (0, e) List.mem_cons_self
                refine fun hf₁ => ⟨fun _ _ t' ht' => ?_, fun _ _ _ j hj => ?_, hf₁⟩
                · rw [hg t' ht']
                  rfl
                · rw [show ((0, e) : ℕ × World).2.flushed = e.flushed from rfl, he] at hj
                  cases hj
            | ret r => exact fun _ => trivial
        | _ => exact fun _ => trivial
      · intro t ht
        unfold Program.advance
        split
        · exact hg t ht
        · exact (Function.update_of_ne ht ..).trans (hg t ht)
        · exact hg t ht
        · exact hg t ht

/-- The connection `t` receives the bytes and writes them. -/
def nextBytes (t : ℕ) (bytes : List Byte) : List (ℕ × World) :=
  List.replicate 2 (t, .serving []) ++ [(t, .serving bytes)] ++ List.replicate 2 (t, .serving [])

/-- One upload, about to be installed. -/
theorem uploads_unmixed_one :
    let y := Program.play (manage sameDisk) (firstLine 0 (lit "putconf 4\n") ++
      nextBytes 0 (lit "aaaa") ++ List.replicate 2 (0, .serving [])) twoClients
    ∃ v, current (y.ghost 0) = some v ∧ v.sent.length = v.size ∧
      (execM .rename (.serving []) y.shared).2.disk.read configFile = some v.sent := by
  intro y
  have hr : ReachIf (manage sameDisk) oneUpload twoClients y :=
    Program.PlayIf.reach (playIf_alone (by decide) (by simp [firstLine, nextBytes, World.serving, World.fair]) (fun _ _ => rfl)
      (by repeat' first | exact trivial | exact fun h => nomatch h | constructor))
  exact (uploads_unmixed twoClients_started hr 0 .rename _ (.serving []) rfl).install rfl

/-! ### Two uploads at a time -/

/-- A turn of the loop of `conn_pump` up to `fwrite`: the program is left after `bin_write`. -/
theorem follow_chunk {c : Conn} {f : Stream} {p : List Byte} (hc : c.closed = false)
    (hb : c.binary = true) (hm : c.mode = .putconf) (hf : c.pcfp = some f) (hi : c.ibuf = [])
    (hp : 0 < p.length) (hroom : p.length ≤ ibufSize) (hle : p.length ≤ c.bleft) (es : List World)
    (s : Manage) (g : List Note) :
    let r := Stdio.fwrite ((World.serving []).written f p.length) p f s.disk
    follow (manage admin) (.serving [] :: .serving p :: .serving [] :: .serving [] :: es)
        (taskBody (.pump c)) (s, g) =
      follow (manage admin) es (Option.map .pump <$>
          pumpAfter p.length (r.1 = p.length, { c with ibuf := p, pcfp := some r.2.1 }))
        ({ s with disk := r.2.2 }, .fwrite p r.1 r.2.1 :: .mark (.chunk p) ::
          .recv ibufSize p :: .quiet :: g) := by
  obtain ⟨authed, closed, ibuf, binary, bleft, mode, pcfp⟩ := c
  cases hc
  cases hb
  cases hm
  cases hf
  cases hi
  have hne : p ≠ [] := List.length_pos_iff.mp hp
  have htake : p.take ibufSize = p := List.take_of_length_le hroom
  have hmin : min p.length bleft = p.length := Nat.min_eq_left hle
  obtain ⟨c, hc⟩ : ∃ c : Conn, ⟨authed, false, p, true, bleft, .putconf, some f⟩ = c := ⟨_, rfl⟩
  have hpump : pumpBinary c = binWrite c p >>= pumpAfter p.length := by
    rw [pumpBinary_eq, ← hc, hmin, if_neg hp.ne', List.take_length]
  -- `stop` and `recv`
  intro r
  change follow (manage admin) (.serving p :: .serving [] :: .serving [] :: es) (.cmd (.recv ibufSize) fun bytes =>
      Option.map Task.pump <$> (if bytes = [] then _ else
        pumpBinary ⟨authed, false, bytes, true, bleft, .putconf, some f⟩)) (s, .quiet :: g) = _
  rw [follow_cmd]
  change follow (manage admin) (.serving [] :: .serving [] :: es) (Option.map Task.pump <$> (if p.take ibufSize = [] then _ else
    pumpBinary ⟨authed, false, p.take ibufSize, true, bleft, .putconf, some f⟩))
      (s, .recv ibufSize (p.take ibufSize) :: .quiet :: g) = _
  rw [htake, if_neg hne, hc, hpump, ← hc]
  rfl


/-- Whole blocks do not wait in the buffer. -/
theorem fwrite_blocks {f : Files.File} {p : List Byte} (fs : Disk)
    (hblock : (f.pos + p.length) / 4096 * 4096 = f.pos + p.length) :
    Stdio.fwrite ((World.serving []).written ⟨f, []⟩ p.length) p ⟨f, []⟩ fs =
      (p.length, ⟨(fs.write f p).1, []⟩, (fs.write f p).2) := by
  simp [World.written, World.serving, World.fair, Stdio.fwrite_settling, hblock, Stdio.drain]

/-- The thread `t` has taken steps, and no other. -/
def Others (t : ℕ) (x y : Config MCmd Manage (List Note) ℕ Task) : Prop :=
  ∀ t', t' ≠ t → y.thread t' = x.thread t' ∧ y.ghost t' = x.ghost t'

/-- The other threads are where they were. -/
theorem others_update {t : ℕ} {s : Manage} {th : Program.Thread MCmd Task} {g : List Note} :
    Others t x ⟨s, Function.update x.thread t th, Function.update x.ghost t g⟩ :=
  fun _ h => ⟨Function.update_of_ne h .., Function.update_of_ne h ..⟩

/-- A turn that takes a part of a payload, and writes it. -/
theorem turn_part (admin : Manage → Manage → Prop) {t : ℕ} {c : Conn} {f : Files.File} {p : List Byte}
    (hx : x.thread t = .idle (.pump c))
    (hc : c.closed = false) (hb : c.binary = true) (hm : c.mode = .putconf)
    (hf : c.pcfp = some ⟨f, []⟩) (hi : c.ibuf = []) (hp : 0 < p.length) (hroom : p.length ≤ ibufSize)
    (hlt : p.length < c.bleft) (hblock : (f.pos + p.length) / 4096 * 4096 = f.pos + p.length) :
    let r := x.shared.disk.write f p
    ∃ y, Reach (manage admin) Program.anyStep x y ∧ y.shared.disk = r.2 ∧
      y.thread t = .idle (.pump { c with bleft := c.bleft - p.length, pcfp := some ⟨r.1, []⟩ }) ∧
      y.ghost t = .fwrite p p.length ⟨r.1, []⟩ :: .mark (.chunk p) :: .recv ibufSize p :: .quiet ::
        x.ghost t ∧ Others t x y := by
  intro r
  have hpump : pumpAfter p.length
        (decide (p.length = p.length), { c with ibuf := p, pcfp := some ⟨r.1, []⟩ }) =
      .ret (some { c with bleft := c.bleft - p.length, pcfp := some ⟨r.1, []⟩ }) := by
    have hleft : c.bleft - p.length ≠ 0 := by omega
    simp [pumpAfter, hleft, hi]
  refine ⟨⟨{ x.shared with disk := r.2 }, _, _⟩,
    Program.round_reach (M := manage admin) (r := some (.pump _))
      (w := [.serving [], .serving p, .serving [], .serving []]) hx ?_, rfl, Function.update_self ..,
    Function.update_self .., others_update⟩
  refine (follow_chunk hc hb hm hf hi hp hroom hlt.le [] _ _).trans ?_
  rw [fwrite_blocks _ hblock, hpump]
  rfl

/-- The last part: the upload is installed. -/
theorem turn_last (admin : Manage → Manage → Prop) {t : ℕ} {c : Conn} {f : Files.File} {p : List Byte}
    (hx : x.thread t = .idle (.pump c))
    (hc : c.closed = false) (hb : c.binary = true) (hm : c.mode = .putconf)
    (hf : c.pcfp = some ⟨f, []⟩) (hi : c.ibuf = []) (hp : 0 < p.length) (hroom : p.length ≤ ibufSize)
    (hlast : p.length = c.bleft) (hblock : (f.pos + p.length) / 4096 * 4096 = f.pos + p.length)
    (hname : (x.shared.disk.entry confTmp).isSome) :
    let r := x.shared.disk.write f p
    ∃ y, Reach (manage admin) Program.anyStep x y ∧
      y.shared.disk = r.2.rename confTmp configFile ∧ (∃ k, y.thread t = .running (.cmd .readConf k)) ∧
      y.ghost t = .rename true :: .fclose true :: .mark .finish :: .fwrite p p.length ⟨r.1, []⟩ ::
        .mark (.chunk p) :: .recv ibufSize p :: .quiet :: x.ghost t ∧ Others t x y := by
  intro r
  obtain ⟨authed, closed, ibuf, binary, bleft, mode, pcfp⟩ := c
  cases hc
  cases hb
  cases hm
  cases hf
  cases hi
  cases hlast
  obtain ⟨k, k', hk', hk⟩ : ∃ (k : Bool → MAct (Option Task)) (k' : Option (List Byte) → _),
      k true = .cmd .readConf k' ∧ Option.map Task.pump <$>
      pumpAfter p.length (decide (p.length = p.length),
        ⟨authed, false, p, true, p.length, .putconf, some ⟨r.1, []⟩⟩) =
        .cmd (.mark .finish) fun _ => .cmd (.fclose ⟨r.1, []⟩) fun _ => .cmd .rename k := by
    simp only [pumpAfter, decide_true, Bool.not_true, Bool.false_eq_true, if_false, Nat.sub_self, ne_eq,
      not_true_eq_false]
    exact ⟨_, _, rfl, rfl⟩
  have hmark (s : Manage) : (manage admin).exec (.mark .finish) (.serving []) s = ((), s) := rfl
  have hclose : (manage admin).exec (.fclose ⟨r.1, []⟩) (.serving []) { x.shared with disk := r.2 } =
      (true, { x.shared with disk := r.2 }) := by
    simp [manage, execM, Stdio.fclose, Stdio.fflush, Stdio.drain, Fs.write, Files.splice, World.serving,
      World.fair]
  have hrename : (manage admin).exec .rename (.serving []) { x.shared with disk := r.2 } =
      (true, { x.shared with disk := r.2.rename confTmp configFile }) :=
    if_pos (by simp [World.serving, World.fair, r, Fs.write, hname])
  refine ⟨⟨{ x.shared with disk := r.2.rename confTmp configFile }, _, _⟩,
    Program.start_reach (M := manage admin) (p := .cmd .readConf k') (w := [.serving [], .serving p,
      .serving [], .serving [], .serving [], .serving [], .serving []]) hx ?_, rfl,
    ⟨k', Function.update_self ..⟩, Function.update_self .., others_update⟩
  refine (follow_chunk rfl rfl rfl rfl rfl hp hroom le_rfl _ _ _).trans ?_
  rw [fwrite_blocks _ hblock]
  dsimp only
  rw [hk, ← hk', follow_cmd, follow_cmd, follow_cmd, follow_nil, hmark, hclose, hrename]
  rfl

/-- Two connections that have announced an upload each. -/
def bothUploading : Config MCmd Manage (List Note) ℕ Task :=
  Program.play (manage sameDisk)
    (firstLine 0 (lit "putconf 16384\n") ++ firstLine 1 (lit "putconf 16384\n")) twoClients

/-- A connection that has announced an upload. -/
def uploading : Conn where
  authed := true
  closed := false
  ibuf := []
  binary := true
  bleft := 16384
  mode := .putconf
  pcfp := some ⟨⟨1, 0⟩, []⟩

/-- Both clients are at their payloads. -/
theorem bothUploading_thread :
    bothUploading.thread 0 = .idle (.pump uploading) ∧
      bothUploading.thread 1 = .idle (.pump uploading) := ⟨rfl, rfl⟩

/-- One file for both, and nothing in it. -/
theorem bothUploading_disk : bothUploading.shared.disk.entry confTmp = some 1 ∧
    bothUploading.shared.disk.data 1 = [] := ⟨rfl, rfl⟩

/-- Each of them has an upload under way. -/
theorem bothUploading_current (t : ℕ) (ht : t < 2) : completes (bothUploading.ghost t) = [] ∧
    current (bothUploading.ghost t) = some
      { stream := uploading.pcfp, size := 16384, sent := [], written := [], failed := false } := by
  obtain rfl | rfl : t = 0 ∨ t = 1 := by omega
  · exact ⟨rfl, rfl⟩
  · exact ⟨rfl, rfl⟩

/-- And no other thread has one. -/
theorem bothUploading_other {t : ℕ} (ht : 2 ≤ t) : bothUploading.ghost t = [] := by
  obtain _ | _ | t := t
  · omega
  · omega
  · rfl

/-- What the second has sent so far is written over the first, whose rest then follows it: both
streams write to the one file, each at its own offset. -/
theorem upload_overlap {a b : List Byte} (ha : a.length = 8192) (hb : b.length = 8192) :
    ∃ y, Reach (manage sameDisk) Program.anyStep bothUploading y ∧
      (∃ k, y.thread 0 = .running (.cmd .readConf k)) ∧ Note.rename true ∈ y.ghost 0 ∧
      y.shared.disk.read configFile = some (b ++ a) ∧
      completes (y.ghost 0) = [a ++ a] ∧ completes (y.ghost 1) = [] ∧ ∀ t, 2 ≤ t → y.ghost t = [] := by
  obtain ⟨hA, hB⟩ := bothUploading_thread
  obtain ⟨hentry, hdata⟩ := bothUploading_disk
  -- the first part of the first upload, then of the second
  obtain ⟨x₁, hr₁, hd₁, hA₁, hg₁, ho₁⟩ := turn_part sameDisk (p := a) hA rfl rfl rfl rfl rfl
    (by omega) (by rw [ha]; decide) (by rw [ha]; decide) (by simp [ha])
  obtain ⟨x₂, hr₂, hd₂, hB₂, hg₂, ho₂⟩ := turn_part sameDisk (p := b) (c := uploading)
    ((ho₁ 1 (by decide)).1.trans hB) rfl rfl rfl rfl rfl (by omega) (by rw [hb]; decide)
    (by rw [hb]; decide) (by simp [hb])
  -- the rest of the first
  obtain ⟨x₃, hr₃, hd₃, hA₃, hg₃, ho₃⟩ := turn_last sameDisk (p := a)
    ((ho₂ 0 (by decide)).1.trans hA₁) rfl rfl rfl rfl rfl (by omega) (by rw [ha]; decide)
    (by rw [ha]; rfl) (by simp [Fs.write, ha]) (by rw [hd₂, hd₁]; exact Option.isSome_of_mem hentry)
  refine ⟨x₃, (hr₁.trans hr₂).trans hr₃, hA₃, ?_, ?_, ?_, ?_, ?_⟩
  · rw [hg₃]
    exact List.mem_cons_self
  · have hover : Files.splice a 0 b = b := by
      have hb' : b ≠ [] := List.ne_nil_of_length_pos (by omega)
      simp [Files.splice, hb', List.drop_eq_nil_of_le, ha, hb]
    have hall : Files.splice b 8192 a = b ++ a := by rw [← hb, Files.splice_end]
    rw [hd₃, hd₂, hd₁]
    simp only [Fs.read, Fs.rename, Fs.write]
    rw [Function.update_of_ne configFile_ne, Function.update_self, hentry]
    simp only [Option.map_some, Function.update_self, hdata]
    rw [show Files.splice [] 0 a = a from Files.splice_end [] a, hover, Nat.zero_add, ha, hall]
  · obtain ⟨hdone, hcur⟩ := bothUploading_current 0 (by decide)
    rw [hg₃, (ho₂ 0 (by decide)).2, hg₁]
    simp [completes, current, hdone, hcur, Upload.wrote, ha]
  · obtain ⟨hdone, -⟩ := bothUploading_current 1 (by decide)
    rw [(ho₃ 1 (by decide)).2, hg₂, (ho₁ 1 (by decide)).2]
    simpa only [completes] using hdone
  · intro t ht
    rw [(ho₃ t (by omega)).2, (ho₂ t (by omega)).2, (ho₁ t (by omega)).2]
    exact bothUploading_other ht

/-- Two uploads of 16384 bytes each overlap: the first is told that it is installed, and
`router.conf` is half of the second and half of the first. -/
theorem uploads_mixed :
    ∃ y, Reach (manage sameDisk) Program.anyStep twoClients y ∧
      (∃ k, y.thread 0 = .running (.cmd .readConf k)) ∧ Note.rename true ∈ y.ghost 0 ∧
      y.shared.disk.read configFile = some (List.replicate 8192 98 ++ List.replicate 8192 97) ∧
      completes (y.ghost 0) = [List.replicate 16384 97] ∧ completes (y.ghost 1) = [] ∧
      ∀ t, 2 ≤ t → y.ghost t = [] := by
  have hr : Reach (manage sameDisk) Program.anyStep twoClients bothUploading :=
    Program.play_reach (fun _ _ _ _ _ => trivial) _
  obtain ⟨y, hy, hk, hren, hread, h₀, h₁, hrest⟩ := upload_overlap
    (a := List.replicate 8192 97) (b := List.replicate 8192 98) List.length_replicate
    List.length_replicate
  rw [List.replicate_append_replicate] at h₀
  exact ⟨y, hr.trans hy, hk, hren, hread, h₀, h₁, hrest⟩

end LinuxRouter
