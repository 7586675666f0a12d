import LinuxRouter.Remote.Framing
import LinuxRouter.Remote.Sessions
import LinuxRouter.Upgrade.Install

/-!
# Upgrade — every run

What the executable is, whatever any number of connections and reloads do, and whatever is read from
`/proc/self/exe`.

An image is spread over a connection's stream: a line, then as many bytes as the line announces, in
parts of any size.  It is spread over the router's state too: the session is one for all connections,
its file has a name, and other connections open, rename and remove files of their own.  The proof
takes these apart and puts them together again at `upgrade_finish`.

* The stream.  `sentImage` reads from a connection's history the line and the bytes of the image that
  it is sending, and `After` says where in the stream these are: right behind the line.  `Careful` is
  the judgment that carries both through the connection's program.
* The session.  `Receiving` of `Install` says that the session holds exactly those bytes; each call
  keeps it by its own lemma there.
* The names.  All that a connection opens, renames or removes for its `putconf` has a relative name,
  and the executable and the images beside it are absolute, so no stream of a connection is ever that
  of an absolute name (`Fs.Away`), however the names move.

`Vetted` puts the three together, and is the invariant of a run: one lemma for each of the four calls
of a session, and one for all other commands.  `images_vetted` is what it says of the executable.
-/

namespace LinuxRouter

open Text (lit nl)
open Files (Fs File)
open Stdio (Stream)
open Program (Prog Along along_step along_last Reach ReachIf Config)

/-! ### What a connection is sending -/

/-- The last line. -/
def lastLine : List Note → Option (List Byte)
  | [] => none
  | .mark (.line raw) :: _ => some raw
  | _ :: h => lastLine h

/-- The image that is being sent: the line with which it began, and what has been written. -/
def sentImage : List Note → Option (List Byte × List Byte)
  | [] => none
  | .upgradeBegin true :: h => (lastLine h).map (·, [])
  | .upgradeWrite p true :: h => (sentImage h).map fun x => (x.1, x.2 ++ p)
  | .upgradeWrite _ false :: _ => none
  | .upgradeFinish _ :: _ => none
  | .upgradeAbort :: _ => none
  | _ :: h => sentImage h

/-- The line asks for an upgrade of `size` bytes with this hash. -/
def AsksFor (raw sha : List Byte) (size : ℕ) : Prop :=
  ∃ arg ws, Text.words (lineText raw) = lit "upgrade" :: arg :: sha :: ws ∧ size = Text.strtoul arg

/-- The last that has been consumed is this line, and then these bytes. -/
def After (raw m : List Byte) (h : List Note) : Prop :=
  ∃ h₁ h₂, h = h₁ ++ .mark (.line raw) :: h₂ ∧ consumed h = consumed h₂ ++ (raw ++ [nl]) ++ m

/-- The connection is sending an image: these bytes, right after that line. -/
structure SendsImage (raw m : List Byte) (h : List Note) : Prop where
  image : sentImage h = some (raw, m)
  place : After raw m h

/-- A file that the connection has opened. -/
def HasOpened (i : ℕ) (h : List Note) : Prop := ∃ f, Note.fopen (some f) ∈ h ∧ f.file.ino = i

/-- What a connection ensures before a command. -/
def carefulPre : ∀ ⦃β : Type⦄, MCmd β → List Note → Prop
  | _, .upgradeBegin sha size, h => ∃ raw, lastLine h = some raw ∧ AsksFor raw sha size
  | _, .upgradeWrite p, h => ∃ raw m, sentImage h = some (raw, m) ∧ After raw (m ++ p) h
  | _, .upgradeFinish, h => ∃ raw m, SendsImage raw m h
  | _, .fwrite f _, h => HasOpened f.file.ino h
  | _, .fclose f, h => HasOpened f.file.ino h
  | _, _, _ => True

/-- A written file is the same file. -/
def carefulAns : ∀ ⦃β : Type⦄, MCmd β → β → Prop
  | _, .fwrite f _, r => r.2.file.ino = f.file.ino
  | _, _, _ => True

theorem carefulAns_exec {β : Type} (c : MCmd β) (e : World) (s : Manage) :
    carefulAns c (execM c e s).1 := by
  cases c with
  | fwrite f p => rfl
  | _ => trivial

/-- The commands that need nothing. -/
def MCmd.free {β : Type} (c : MCmd β) : Bool :=
  match c with
  | .fwrite _ _ => false
  | .fclose _ => false
  | c => !c.onSession

variable {h h' : List Note} {c : Conn} {α : Type} {raw m : List Byte} {i : ℕ}

/-- A command that touches no file may always come. -/
theorem carefulPre_of_free {β : Type} {c : MCmd β} (hc : c.free = true) : carefulPre c h := by
  cases c <;> trivial

/-- They are not part of an image. -/
theorem sentImage_note {β : Type} {c : MCmd β} (hc : c.onSession = false) (a : β) (h : List Note) :
    sentImage (c.note a :: h) = sentImage h := by
  cases c <;> first | rfl | cases hc

/-- And it is not about sessions. -/
theorem onSession_of_free {β : Type} {c : MCmd β} (hc : c.free = true) : c.onSession = false := by
  cases c <;> first | rfl | cases hc

/-- A stream once opened was opened. -/
theorem HasOpened.cons (hi : HasOpened i h) (n : Note) : HasOpened i (n :: h) := by
  obtain ⟨f, hf, e⟩ := hi
  exact ⟨f, List.mem_cons_of_mem n hf, e⟩

/-- A line has just been handed to `handle_line`. -/
theorem after_line (raw : List Byte) (h : List Note) : After raw [] (.mark (.line raw) :: h) :=
  ⟨[], h, rfl, by simp [consumed]⟩

/-- Nothing more is consumed. -/
theorem After.cons (ha : After raw m h) {n : Note} (hn : consumed (n :: h) = consumed h) :
    After raw m (n :: h) := by
  obtain ⟨h₁, h₂, rfl, hc⟩ := ha
  exact ⟨n :: h₁, h₂, rfl, hn.trans hc⟩

/-- A part of a payload is. -/
theorem After.chunk (ha : After raw m h) (p : List Byte) :
    After raw (m ++ p) (.mark (.chunk p) :: h) := by
  obtain ⟨h₁, h₂, rfl, hc⟩ := ha
  exact ⟨.mark (.chunk p) :: h₁, h₂, rfl, by rw [consumed, hc, List.append_assoc]⟩

theorem SendsImage.cons (hs : SendsImage raw m h) {n : Note} (hi : sentImage (n :: h) = sentImage h)
    (hc : consumed (n :: h) = consumed h) : SendsImage raw m (n :: h) :=
  ⟨hi.trans hs.image, hs.place.cons hc⟩

/-- An image that is being sent is the one of a session. -/
theorem owns_of_image (hi : (sentImage h).isSome) : owns h = true := by
  fun_induction sentImage h with
  | case1 => cases hi
  | case2 => rfl
  | case3 p h ih => exact ih (by simpa using hi)
  | case4 => cases hi
  | case5 => cases hi
  | case6 => cases hi
  | case7 n h =>
      rename_i ih
      cases n with
      | upgradeBegin ok =>
          cases ok with
          | true => rfl
          | false => exact ih hi
      | upgradeWrite p ok => exact ih hi
      | upgradeFinish ok => simp_all
      | upgradeAbort => simp_all
      | _ => exact ih hi

/-! ### The functions -/

/-- The connection's program finds what it needs. -/
abbrev Careful (Q : α → List Note → Prop) (p : MAct α) (h : List Note) : Prop :=
  Along MCmd.note carefulPre carefulAns Q p h

/-- What a connection carries: while it is receiving an upgrade, it is sending an image. -/
structure ImageOk (c : Conn) (h : List Note) : Prop where
  image : c.binary = true → c.mode = .upgrade → ∃ raw m, SendsImage raw m h
  file : ∀ f, c.pcfp = some f → HasOpened f.file.ino h

/-- Its stream is its own. -/
def OwnFile (c : Conn) (h : List Note) : Prop := ∀ f, c.pcfp = some f → HasOpened f.file.ino h

/-- Another note leaves the stream the connection's own. -/
theorem OwnFile.cons (hc : OwnFile c h) (n : Note) : OwnFile c (n :: h) :=
  fun f hf => (hc f hf).cons n

/-- In line mode nothing is asked of the image. -/
theorem OwnFile.idle (hc : OwnFile c h) (hb : c.binary = false) : ImageOk c h :=
  ⟨fun hb' => absurd (hb.symm.trans hb') (by decide), hc⟩

/-- A command that touches no file, at the front of a program. -/
theorem free_step {β : Type} {c : MCmd β} {f : β → MAct α} {Q : α → List Note → Prop}
    (hc : c.free = true) (hf : ∀ a, Careful Q (f a) (c.note a :: h)) :
    Careful Q (Prog.perform c >>= f) h :=
  along_step (carefulPre_of_free hc) fun a _ => hf a

/-- `putconf` opens a stream of the connection's own. -/
theorem handlePutconf_careful (hb : c.binary = false) (ho : OwnFile c h) (arg : List Byte) :
    Careful ImageOk (handlePutconf c arg) h := by
  unfold handlePutconf
  dsimp only
  split
  · exact free_step rfl fun _ => (ho.cons _).idle hb
  · refine free_step rfl fun f => ?_
    cases f with
    | none => exact free_step rfl fun _ => OwnFile.idle (fun f hf => by cases hf) hb
    | some f =>
        refine free_step rfl fun _ => free_step rfl fun _ => ⟨fun _ hm => (by cases hm), ?_⟩
        rintro g ⟨⟩
        exact ⟨f, by simp [MCmd.note], rfl⟩

/-- **`upgrade`** begins an image right behind its line. -/
theorem handleUpgrade_careful (hb : c.binary = false) (ho : OwnFile c h) {arg sha : List Byte}
    (hl : lastLine h = some raw) (hs : AsksFor raw sha (Text.strtoul arg)) (ha : After raw [] h) :
    Careful ImageOk (handleUpgrade c arg sha) h := by
  unfold handleUpgrade
  refine along_step ⟨raw, hl, hs⟩ fun err _ => ?_
  cases err with
  | some err => exact free_step rfl fun _ => ((ho.cons _).cons _).idle hb
  | none =>
      refine free_step rfl fun _ => free_step rfl fun _ =>
        ⟨fun _ _ => ⟨raw, [], ?_⟩, ((ho.cons _).cons _).cons _⟩
      have hbegun : SendsImage raw [] (.upgradeBegin true :: h) :=
        ⟨by simp [sentImage, hl], ha.cons rfl⟩
      exact (hbegun.cons rfl rfl).cons rfl rfl

theorem processLinesFrom_careful (n : ℕ) (hb : c.binary = false) (ho : OwnFile c h) :
    Careful ImageOk (processLinesFrom n c) h := by
  refine processLinesFrom_along (fun c h raw rest hc hb _ _ => ⟨trivial, ?_⟩) n (ho.idle hb) hb
  refine handleLine_announces (R := OwnFile c) ?_ (OwnFile.cons hc.file _) ?_
    (Text.nul_notMem_cstr _) (fun arg _ _ => ?_) fun arg sha ws hw => ?_
  · intro β a h' hp ho
    have hf : a.free = true := by
      cases a <;> first | rfl | cases hp
    exact ⟨carefulPre_of_free hf, fun _ => ho.cons _⟩
  · intro d h' ha ho
    exact OwnFile.idle (fun f hf => ho f (ha.pcfp.symm.trans hf)) (ha.binary.trans hb)
  · exact (handlePutconf_careful hb (OwnFile.cons hc.file _) arg).mono fun _ _ hd => ⟨hd.image, hd.file⟩
  · exact (handleUpgrade_careful hb (OwnFile.cons hc.file _) rfl ⟨arg, ws, hw, rfl⟩
      (after_line raw h)).mono fun _ _ hd => ⟨hd.image, hd.file⟩

theorem free_of_config {β : Type} {c : MCmd β} (hc : c.ofConfig = true) : c.free = true := by
  cases c <;> first | rfl | cases hc

/-- A program of commands that need nothing. -/
theorem Careful.of_every {p : MAct α} (hp : p.Every fun _ c => c.free = true) (h : List Note) :
    Careful (fun _ h' => h <:+ h' ∧ sentImage h' = sentImage h) p h := by
  refine Along.of_every (R := fun h h' => h <:+ h' ∧ sentImage h' = sentImage h)
    (fun h => ⟨List.suffix_rfl, rfl⟩) ?_ ?_ hp h
  · intro β c h h' hc _
    exact carefulPre_of_free hc
  · intro β c a h h' hc hr
    exact ⟨hr.1.trans (List.suffix_cons _ _), (sentImage_note (onSession_of_free hc) a h').trans hr.2⟩

/-- A stream once opened was opened, later on too. -/
theorem OwnFile.suffix (hc : OwnFile c h) (hs : h <:+ h') : OwnFile c h' := by
  intro f hf
  obtain ⟨g, hg, e⟩ := hc f hf
  exact ⟨g, hs.mem hg, e⟩

/-- The end of a connection closes its own stream. -/
theorem connClose_careful (ho : OwnFile c h) : Careful (fun _ _ => True) (connClose c) h := by
  unfold connClose
  split
  · rename_i f _ hf
    exact along_step (ho f hf) fun _ _ => along_last trivial fun _ _ => trivial
  · exact along_last trivial fun _ _ => trivial
  · trivial

/-- A connection that goes on. -/
def ImageOn (r : Option Conn) (h : List Note) : Prop := ∀ c, r = some c → ImageOk c h

/-- A connection that has ended sends no image. -/
theorem imageOn_none (h : List Note) : ImageOn none h := fun _ e => by cases e

/-- The end of a turn that ends the connection. -/
theorem close_careful (ho : OwnFile c h) : Careful ImageOn (connClose c >>= fun _ => .ret none) h :=
  Along.bind ((connClose_careful ho).mono fun _ h' _ => imageOn_none h')

theorem processLines_careful (hb : c.binary = false) (ho : OwnFile c h) :
    Careful ImageOn (some <$> processLines c) h := by
  refine Along.map ((processLinesFrom_careful _ hb ho).mono fun d h' hd e he => ?_)
  obtain rfl := Option.some.inj he
  exact hd

theorem pumpLines_careful (hb : c.binary = false) (ho : OwnFile c h) :
    Careful ImageOn (pumpLines c) h := by
  unfold pumpLines
  split
  · exact free_step rfl fun _ => close_careful (ho.cons _)
  · exact processLines_careful hb ho

/-- What `bin_write` leaves: the stream the connection's own, and an image that is being sent, if it
succeeds. -/
structure WroteImage (c : Conn) (r : Bool × Conn) (h : List Note) : Prop where
  binary : r.2.binary = c.binary
  mode : r.2.mode = c.mode
  own : OwnFile r.2 h
  image : r.1 = true → c.mode = .upgrade → ∃ raw m, SendsImage raw m h

/-- **A part of a payload** goes to the image, or to the connection's own stream. -/
theorem binWrite_careful (hm : c.mode = .upgrade → ∃ raw m, SendsImage raw m h) (ho : OwnFile c h)
    (p : List Byte) : Careful (WroteImage c) (binWrite c p) h := by
  unfold binWrite
  refine free_step rfl fun _ => ?_
  split
  · rename_i f hmode hf
    refine along_step ((ho f hf).cons _) fun r hr =>
      ⟨rfl, rfl, ?_, fun _ h => absurd (hmode.symm.trans h) (by decide)⟩
    rintro g ⟨⟩
    have hino : r.2.file.ino = f.file.ino := hr
    rw [hino]
    exact ((ho f hf).cons _).cons _
  · rename_i hmode _
    exact ⟨rfl, rfl, ho.cons _, fun _ h => absurd (hmode.symm.trans h) (by decide)⟩
  · rename_i hmode
    obtain ⟨raw, m, hs⟩ := hm hmode
    have hpart := hs.place.chunk p
    refine along_step ⟨raw, m, hs.image, hpart⟩ fun err _ => ?_
    cases err with
    | none =>
        refine ⟨rfl, rfl, (ho.cons _).cons _, fun _ _ => ⟨raw, m ++ p, ?_, hpart.cons rfl⟩⟩
        simp [MCmd.note, sentImage, hs.image]
    | some err =>
        exact free_step rfl fun _ => ⟨rfl, rfl, ((ho.cons _).cons _).cons _, fun h => by cases h⟩
  · rename_i hmode
    exact ⟨rfl, rfl, ho.cons _, fun _ h => absurd (hmode.symm.trans h) (by decide)⟩

/-- What `bin_finish` leaves: a connection between two lines, or one to be closed. -/
structure FinishedImage (r : Finish) (h : List Note) : Prop where
  failed : ∀ d, r = .failed d → OwnFile d h
  done : ∀ d, r = .done d → d.binary = false ∧ OwnFile d h

theorem finishPutconf_careful (hb : c.binary = false) :
    Careful FinishedImage (finishPutconf { c with pcfp := none }) h := by
  have hnone : ∀ h', OwnFile { c with pcfp := none } h' := fun _ _ hf => by cases hf
  refine free_step rfl fun ok => ?_
  cases ok with
  | false =>
      refine free_step rfl fun _ => free_step rfl fun _ => ⟨fun d e => ?_, fun d e => by cases e⟩
      cases e
      exact hnone _
  | true =>
      refine Along.bind ((Careful.of_every (Prog.Every.mono configLoadSteps_every
        fun _ _ hc => free_of_config hc) _).mono fun _ h₂ _ => ?_)
      refine free_step rfl fun _ => free_step rfl fun _ => ⟨fun d e => (by cases e), fun d e => ?_⟩
      cases e
      exact ⟨hb, hnone _⟩

/-- **The end of a payload.** -/
theorem binFinish_careful (hb : c.binary = false)
    (hm : c.mode = .upgrade → ∃ raw m, SendsImage raw m h) (ho : OwnFile c h) :
    Careful FinishedImage (binFinish c) h := by
  unfold binFinish
  refine free_step rfl fun _ => ?_
  split
  · split
    · rename_i f hf
      exact along_step ((ho f hf).cons _) fun _ _ => finishPutconf_careful hb
    · exact finishPutconf_careful hb
  · rename_i hmode
    obtain ⟨raw, m, hs⟩ := hm hmode
    refine along_step ⟨raw, m, hs.cons rfl rfl⟩ fun err _ => ?_
    cases err with
    | some err =>
        refine free_step rfl fun _ => ⟨fun d e => ?_, fun d e => by cases e⟩
        cases e
        exact ((ho.cons _).cons _).cons _
    | none =>
        refine free_step rfl fun _ => free_step rfl fun ok => ?_
        cases ok with
        | true => exact ⟨fun _ e => (by cases e), fun _ e => by cases e⟩
        | false =>
            refine ⟨fun d e => (by cases e), fun d e => ?_⟩
            cases e
            exact ⟨hb, (((ho.cons _).cons _).cons _).cons _⟩
  · refine ⟨fun d e => (by cases e), fun d e => ?_⟩
    cases e
    exact ⟨hb, ho.cons _⟩

/-- **A turn with a payload.** -/
theorem pumpBinary_careful (hc : ImageOk c h) (hb : c.binary = true) :
    Careful ImageOn (pumpBinary c) h := by
  rw [pumpBinary_eq]
  have hwrite : Careful (WroteImage c) (if min c.ibuf.length c.bleft = 0 then .ret (true, c)
      else binWrite c (c.ibuf.take (min c.ibuf.length c.bleft))) h := by
    split
    · exact ⟨rfl, rfl, hc.file, fun _ => hc.image hb⟩
    · exact binWrite_careful (hc.image hb) hc.file _
  refine Along.bind (hwrite.mono ?_)
  rintro ⟨ok, d⟩ h₁ hw
  have ho : OwnFile d h₁ := hw.own
  cases ok with
  | false => exact close_careful ho
  | true =>
      have hm₁ : d.mode = .upgrade → ∃ raw m, SendsImage raw m h₁ :=
        fun hd => hw.image rfl (hw.mode ▸ hd)
      simp only [pumpAfter, Bool.not_true, Bool.false_eq_true, if_false]
      split
      · intro e he
        obtain rfl := Option.some.inj he
        exact ⟨fun _ => hm₁, ho⟩
      · refine Along.bind ((binFinish_careful (c := { d with
          ibuf := d.ibuf.drop _, bleft := d.bleft - _, binary := false }) rfl hm₁ ho).mono
            fun r h₂ hr => ?_)
        cases r with
        | failed e => exact close_careful (hr.failed e rfl)
        | replaced => exact imageOn_none h₂
        | done e => exact processLines_careful (hr.done e rfl).1 (hr.done e rfl).2

/-- **A turn** of a connection. -/
theorem connRound_careful (hc : ImageOk c h) : Careful ImageOn (connRound c) h := by
  have ho : OwnFile c h := hc.file
  unfold connRound
  split
  · exact close_careful ho
  · refine free_step rfl fun stop => ?_
    split
    · exact close_careful (ho.cons _)
    · refine free_step rfl fun bytes => ?_
      have ho : OwnFile c (MCmd.note (.recv (ibufSize - c.ibuf.length)) bytes ::
          MCmd.note .stop stop :: h) := (ho.cons _).cons _
      split
      · exact close_careful ho
      · dsimp only
        split
        · rename_i hb
          refine pumpBinary_careful ⟨fun _ hm => ?_, ho⟩ hb
          obtain ⟨raw, m, hs⟩ := hc.image hb hm
          exact ⟨raw, m, (hs.cons rfl rfl).cons rfl rfl⟩
        · rename_i hb
          exact pumpLines_careful (by simpa using hb) ho

/-- A new connection sends no image. -/
theorem connStart_careful : Careful ImageOk connStart [] :=
  free_step rfl fun _ => free_step rfl fun _ => OwnFile.idle (fun _ hf => by cases hf) rfl

/-! ### The disk -/

/-- An absolute path. -/
def Absolute (n : Path) : Prop := n.head? = some 47#8

instance (n : Path) : Decidable (Absolute n) := inferInstanceAs (Decidable (_ = _))

/-- No absolute name has changed, nor has one come to a file that had none. -/
structure Beside (fs fs' : Disk) : Prop where
  same : ∀ n, Absolute n → Fs.Same n fs fs'
  grown : Fs.Grown Absolute fs fs'

variable {path q n : Path} {fs fs' : Disk} {s s' : Manage}

theorem Beside.refl (fs : Disk) : Beside fs fs :=
  ⟨fun _ _ => .refl _ _, .of_entry rfl rfl⟩

/-- The names that the router uses for its configuration are relative. -/
theorem Absolute.ne (hn : Absolute n) : n ≠ configFile ∧ n ≠ confTmp := by
  refine ⟨?_, ?_⟩ <;> rintro rfl <;> exact absurd hn (by decide)

/-- What is behind an absolute name is absolute. -/
theorem Absolute.append (hn : Absolute n) (q : Path) : Absolute (n ++ q) := by
  rw [Absolute, List.head?_append, show n.head? = some 47#8 from hn, Option.some_or]

/-- What is read of an absolute link is absolute. -/
theorem Absolute.exeOf (hn : Absolute n) : Absolute (exeOf n) := by
  cases n with
  | nil => cases hn
  | cons c n =>
      obtain rfl : c = 47#8 := Option.some.inj hn
      rfl

/-- A write to a file that has no absolute name. -/
theorem beside_write {f : File} (hf : Fs.Away Absolute f.ino fs) (p : List Byte) :
    Beside fs (fs.write f p).2 :=
  ⟨fun n hn => Fs.same_write_away (hf.2 n hn) _, .of_entry rfl rfl⟩

/-- **The commands that are not of a session** leave all absolute names. -/
theorem exec_beside {β : Type} {c : MCmd β} (hc : c.onSession = false)
    (hp : carefulPre c h) (hfile : ∀ i, HasOpened i h → Fs.Away Absolute i s.disk) (e : World) :
    Beside s.disk (execM c e s).2.disk := by
  have hsame : Beside s.disk s.disk := .refl _
  have hrel : ¬ Absolute configFile := fun hn => hn.ne.1 rfl
  cases c with
  | fopen =>
      simp only [execM]
      split
      · exact ⟨fun n hn => Fs.same_openW hn.ne.2, Fs.grown_openW _ _⟩
      · exact hsame
  | fwrite f p => exact beside_write (hfile _ hp) _
  | fclose f => exact beside_write (hfile _ hp) _
  | rename =>
      simp only [execM]
      split
      · exact ⟨fun n hn => Fs.same_rename hn.ne.2 hn.ne.1, Fs.grown_rename fun hn => absurd hn hrel⟩
      · exact hsame
  | unlink => exact ⟨fun n hn => Fs.same_unlink hn.ne.2, Fs.grown_unlink _ _⟩
  | configSave =>
      simp only [execM]
      split
      · exact ⟨fun n hn => Fs.same_link _ hn.ne.1, Fs.grown_link _ _ _⟩
      · exact hsame
  | upgradeBegin sha size => cases hc
  | upgradeWrite p => cases hc
  | upgradeFinish => cases hc
  | upgradeAbort => cases hc
  | _ => exact hsame

section Calls

variable {S : Path → Prop} {o : FileCalls} {sha : List Byte} {size : ℕ} {u : Upgrade}

/-- `upgrade_begin` gives its name to no file that was there. -/
theorem begin_grown : Fs.Grown S fs (upgradeBegin o sha size u fs).2.2 := by
  have hsame : Fs.Grown S fs fs := .of_entry rfl rfl
  unfold upgradeBegin
  split
  · exact hsame
  · split
    · exact hsame
    · split
      · exact hsame
      · exact hsame
      · dsimp only
        split
        · exact hsame
        · split
          · split
            · exact (Fs.grown_openW _ _).trans (Fs.grown_unlink _ _)
            · exact Fs.grown_openW _ _
          · exact Fs.grown_openW _ _

theorem write_grown (p : List Byte) : Fs.Grown S fs (upgradeWrite o p u fs).2.2 := by
  unfold upgradeWrite
  split
  · exact .of_entry rfl rfl
  · dsimp only
    split
    · exact .of_entry rfl rfl
    · split <;> exact .of_entry rfl rfl

/-- `upgrade_finish` moves one absolute name to another. -/
theorem finish_grown (hS : S u.exePath → S u.newPath) : Fs.Grown S fs (upgradeFinish o u fs).2.2 := by
  have hsame : Fs.Grown S fs fs := .of_entry rfl rfl
  unfold upgradeFinish
  split
  · exact hsame
  · split
    · exact Fs.grown_unlink _ _
    · split
      · exact Fs.grown_unlink _ _
      · dsimp only
        have hv : S (if u.haveSha = true then { u with hc := sha256Init } else u).exePath →
            S (if u.haveSha = true then { u with hc := sha256Init } else u).newPath := by
          split <;> exact hS
        generalize (if u.haveSha = true then { u with hc := sha256Init } else u) = v at hv
        split
        · exact Fs.grown_unlink _ _
        · split
          · exact Fs.grown_unlink _ _
          · split
            · exact Fs.grown_unlink _ _
            · split
              · exact (Fs.grown_rename hv).trans (Fs.grown_link _ _ _)
              · exact Fs.grown_rename hv

theorem abort_grown : Fs.Grown S fs (upgradeAbort u fs).2 := by
  unfold upgradeAbort
  split
  · exact Fs.grown_unlink _ _
  · exact .of_entry rfl rfl

end Calls

/-! ### Runs -/

/-- The executable is an image that the connection has sent: the bytes `m` that it received right
behind a line, which it was handed and which announces them with their size and hash. -/
def InPlace (path : Path) (h : List Note) (fs : Disk) : Prop :=
  ∃ h₁ h₂ raw sha size m, h = h₁ ++ .mark (.line raw) :: h₂ ∧ Note.upgradeFinish true ∈ h₁ ∧
    consumed h₂ ++ (raw ++ [nl]) ++ m <+: received h ∧ AsksFor raw sha size ∧ Passes sha size m ∧
    fs.read path = some m

theorem InPlace.of_read (hi : InPlace path h fs) (hr : fs'.read path = fs.read path) :
    InPlace path h fs' := by
  obtain ⟨h₁, h₂, raw, sha, size, m, hh, hf, hm, ha, hp, hread⟩ := hi
  exact ⟨h₁, h₂, raw, sha, size, m, hh, hf, hm, ha, hp, hr.trans hread⟩

/-- Another note of the connection that sent it. -/
theorem InPlace.cons (hi : InPlace path h fs) (n : Note) : InPlace path (n :: h) fs := by
  obtain ⟨h₁, h₂, raw, sha, size, m, rfl, hf, hm, ha, hp, hread⟩ := hi
  refine ⟨n :: h₁, h₂, raw, sha, size, m, rfl, List.mem_cons_of_mem _ hf, ?_, ha, hp, hread⟩
  exact hm.trans (received_append [n] _)

/-- `upgrade_finish` has installed the image that is being sent. -/
theorem SendsImage.inPlace {sha : List Byte} {size : ℕ} (hs : SendsImage raw m h)
    (hstream : consumed h <+: received h) (ha : AsksFor raw sha size) (hp : Passes sha size m)
    (hread : fs.read path = some m) : InPlace path (.upgradeFinish true :: h) fs := by
  obtain ⟨h₁, h₂, rfl, hc⟩ := hs.place
  rw [hc] at hstream
  exact ⟨.upgradeFinish true :: h₁, h₂, raw, sha, size, m, rfl, List.mem_cons_self, hstream, ha, hp,
    hread⟩

/-- The session has received what its connection has sent, for a name beside which the executable is
not. -/
def Receives (path : Path) (raw m : List Byte) (u : Upgrade) (fs : Disk) : Prop :=
  ∃ q sha size, Absolute q ∧ path ≠ q ++ lit ".new" ∧ AsksFor raw sha size ∧
    Receiving q sha size m u fs

/-- The invariant, from the disk `fs₀` on. -/
structure Vetted (path : Path) (fs₀ : Disk) (s : Manage) (g : ℕ → List Note) : Prop where
  aside : Aside path s.up
  file : ∀ t i, HasOpened i (g t) → Fs.Away Absolute i s.disk
  receiving : ∀ t raw m, sentImage (g t) = some (raw, m) → Receives path raw m s.up s.disk
  exe : s.disk.read path = fs₀.read path ∨ ∃ t, InPlace path (g t) s.disk

/-- `upgrade_abort` meets no session but one of its own connection; and what is read of
`/proc/self/exe` is absolute, and no name beside which the executable would be the image. -/
def keepsOwn (path : Path) (g : ℕ → List Note) ⦃β : Type⦄ (t : ℕ) (c : MCmd β) (e : World)
    (s : Manage) : Prop :=
  abortsOwn g t c e s ∧ ∀ link, e.exe = some link → Absolute link ∧ path ≠ newOf link

variable {fs₀ : Disk} {g : ℕ → List Note} {t : ℕ} {n : Note}

/-- A step of the thread `t`: what is to be shown of it. -/
theorem Vetted.step (hv : Vetted path fs₀ s g) (ha : Aside path s'.up)
    (hgrown : Fs.Grown Absolute s.disk s'.disk)
    (hopen : ∀ f, n = .fopen (some f) → Fs.Away Absolute f.file.ino s'.disk)
    (hself : ∀ raw m, sentImage (n :: g t) = some (raw, m) → Receives path raw m s'.up s'.disk)
    (hother : ∀ t', t' ≠ t → ∀ raw m, sentImage (g t') = some (raw, m) →
      Receives path raw m s'.up s'.disk)
    (hexe : s'.disk.read path = s.disk.read path ∨ InPlace path (n :: g t) s'.disk) :
    Vetted path fs₀ s' (Function.update g t (n :: g t)) := by
  refine ⟨ha, fun t' i hi => ?_, fun t' raw m hm => ?_, ?_⟩
  · by_cases e : t' = t
    · rw [e, Function.update_self] at hi
      obtain ⟨f, hf, rfl⟩ := hi
      rcases List.mem_cons.mp hf with hf | hf
      · exact hopen f hf.symm
      · exact hgrown.away (hv.file t _ ⟨f, hf, rfl⟩)
    · rw [Function.update_of_ne e] at hi
      exact hgrown.away (hv.file t' i hi)
  · by_cases e : t' = t
    · rw [e, Function.update_self] at hm
      exact hself raw m hm
    · rw [Function.update_of_ne e] at hm
      exact hother t' e raw m hm
  · rcases hexe with hr | hi
    · rcases hv.exe with h₀ | ⟨t', hi⟩
      · exact .inl (hr.trans h₀)
      · refine .inr ⟨t', ?_⟩
        by_cases e : t' = t
        · subst e
          rw [Function.update_self]
          exact (hi.of_read hr).cons n
        · rw [Function.update_of_ne e]
          exact hi.of_read hr
    · refine .inr ⟨t, ?_⟩
      rw [Function.update_self]
      exact hi

/-- Where nobody but the thread `t` can have a session, nobody else is sending an image. -/
theorem OneSession.other (ho : OneSession s g) (hown : s.up.inProgress = true → owns (g t) = true)
    {t' : ℕ} (hne : t' ≠ t) {raw m : List Byte} : sentImage (g t') ≠ some (raw, m) := by
  intro hm
  have ht' : owns (g t') = true := owns_of_image (by rw [hm]; rfl)
  exact hne (ho.one t' t ht' (hown (ho.iff.mpr ⟨t', ht'⟩)))

/-- A change that keeps the session and all absolute names keeps what it has received. -/
theorem Receives.beside {u : Upgrade} (hr : Receives path raw m u fs) (hb : Beside fs fs') :
    Receives path raw m u fs' := by
  obtain ⟨q, sha, size, hq, hne, ha, hrec⟩ := hr
  obtain ⟨f, hf, hw⟩ := hrec.file
  refine ⟨q, sha, size, hq, hne, ha, { hrec with file := ⟨f, hf, (hb.same _ ?_).writing hw⟩ }⟩
  rw [hrec.newPath]
  exact hq.append _

section Steps

variable {e : World} {sha p : List Byte} {size : ℕ}

/-- A command that is not of a session. -/
theorem Vetted.plain (habs : Absolute path) (hv : Vetted path fs₀ s g) {β : Type} {c : MCmd β}
    (hc : c.onSession = false) (hp : carefulPre c (g t)) :
    Vetted path fs₀ (execM c e s).2 (Function.update g t (c.note (execM c e s).1 :: g t)) := by
  have hb := exec_beside hc hp (hv.file t) e
  have hup := up_of_not hc e s
  have hkeep : ∀ t' raw m, sentImage (g t') = some (raw, m) →
      Receives path raw m (execM c e s).2.up (execM c e s).2.disk := by
    intro t' raw m hm
    rw [hup]
    exact (hv.receiving t' raw m hm).beside hb
  refine hv.step (by rw [hup]; exact hv.aside) hb.grown ?_ (fun raw m hm => ?_) (fun t' _ => hkeep t')
    (.inl (hb.same path habs).read)
  · -- a stream that has just been opened has a relative name
    intro f hf
    cases c with
    | fopen =>
        simp only [execM, MCmd.note] at hf ⊢
        split at hf <;> cases hf
        rename_i hopen
        rw [if_pos hopen]
        exact Fs.away_openW fun hn => hn.ne.2 rfl
    | _ => cases hf
  · rw [sentImage_note hc] at hm
    exact hkeep t raw m hm

/-- **`upgrade_begin`.** -/
theorem Vetted.begin (hv : Vetted path fs₀ s g) (ho : OneSession s g)
    (hp : carefulPre (.upgradeBegin sha size) (g t))
    (he : ∀ link, e.exe = some link → Absolute link ∧ path ≠ newOf link) :
    Vetted path fs₀ (execM (.upgradeBegin sha size) e s).2 (Function.update g t
      (.upgradeBegin (execM (.upgradeBegin sha size) e s).1.isNone :: g t)) := by
  cases hu : s.up.inProgress with
  | true =>
      obtain ⟨h₂, h₁⟩ := @begin_busy e.toFileCalls sha size s.up s.disk hu
      simp only [execM, h₁, h₂]
      exact hv.step hv.aside (.of_entry rfl rfl) (fun f hf => by cases hf) (hv.receiving t)
        (fun t' _ => hv.receiving t') (.inl rfl)
  | false =>
      obtain ⟨hs, hbad, hrec, -⟩ := @begin_spec sha size s.up s.disk e.toFileCalls hu _ rfl
      -- nobody is sending an image
      have hno : ∀ {t' raw m}, sentImage (g t') ≠ some (raw, m) := fun {t' raw m} hm => by
        have := ho.iff.mpr ⟨t', owns_of_image (by rw [hm]; rfl)⟩
        rw [hu] at this
        cases this
      have hgrown := @begin_grown s.disk Absolute e.toFileCalls sha size s.up
      have hread := (hs path fun link hl => (he link hl).2).read
      simp only [execM]
      generalize upgradeBegin e.toFileCalls sha size s.up s.disk = r at hs hbad hrec hgrown hread ⊢
      obtain ⟨err, u, fs⟩ := r
      cases err with
      | some err =>
          refine hv.step (fun hp => ?_) hgrown (fun f hf => by cases hf) (fun raw m hm => absurd hm hno)
            (fun t' _ raw m hm => absurd hm hno) (.inl hread)
          exact absurd ((hbad (by simp)).symm.trans hp) (by decide)
      | none =>
          obtain ⟨link, hl, hrec⟩ := hrec rfl
          refine hv.step (hrec.aside (he link hl).2) hgrown (fun f hf => by cases hf) ?_
            (fun t' _ raw m hm => absurd hm hno) (.inl hread)
          intro raw m hm
          obtain ⟨raw', hlast, hasks⟩ := hp
          simp only [Option.isNone_none, sentImage, hlast, Option.map_some, Option.some.injEq,
            Prod.mk.injEq] at hm
          obtain ⟨rfl, rfl⟩ := hm
          exact ⟨exeOf link, sha, size, (he link hl).1.exeOf, (he link hl).2, hasks, hrec⟩

/-- **`upgrade_write`.** -/
theorem Vetted.write (hv : Vetted path fs₀ s g) (ho : OneSession s g) (hown : owns (g t) = true)
    (hp : carefulPre (.upgradeWrite p) (g t)) :
    Vetted path fs₀ (execM (.upgradeWrite p) e s).2 (Function.update g t
      (.upgradeWrite p (execM (.upgradeWrite p) e s).1.isNone :: g t)) := by
  obtain ⟨raw, m, him, -⟩ := hp
  obtain ⟨q, sha, size, hq, hne, hasks, hrec⟩ := hv.receiving t raw m him
  obtain ⟨hs, hrec', -⟩ := write_spec (o := e.toFileCalls) hrec (p := p) rfl
  obtain ⟨hsame, haside⟩ := hs path hne
  have hgrown := @write_grown s.disk Absolute e.toFileCalls s.up p
  simp only [execM]
  generalize upgradeWrite e.toFileCalls p s.up s.disk = r at hsame haside hrec' hgrown ⊢
  obtain ⟨err, u, fs⟩ := r
  refine hv.step haside hgrown (fun f hf => by cases hf) ?_
    (fun t' hne raw m hm => absurd hm (ho.other (fun _ => hown) hne)) (.inl hsame.read)
  intro raw' m' hm
  cases err with
  | none =>
      simp only [Option.isNone_none, sentImage, him, Option.map_some, Option.some.injEq,
        Prod.mk.injEq] at hm
      obtain ⟨rfl, rfl⟩ := hm
      exact ⟨q, sha, size, hq, hne, hasks, hrec' rfl⟩
  | some err => cases hm

/-- The image is the session's, and the connection's; and if the session is for another name than the
executable's, that is left alone. -/
theorem Vetted.finish (habs : Absolute path) (hv : Vetted path fs₀ s g) (ho : OneSession s g)
    (hown : owns (g t) = true) (hstream : consumed (g t) <+: received (g t))
    (hp : carefulPre .upgradeFinish (g t)) :
    Vetted path fs₀ (execM .upgradeFinish e s).2 (Function.update g t
      (.upgradeFinish (execM .upgradeFinish e s).1.isNone :: g t)) := by
  obtain ⟨raw, m, hsend⟩ := hp
  obtain ⟨q, sha, size, hq, hne, hasks, hrec⟩ := hv.receiving t raw m hsend.image
  obtain ⟨hs, hin, hdone, -⟩ := finish_spec (o := e.toFileCalls) hrec rfl
  have hgrown : Fs.Grown Absolute s.disk (upgradeFinish e.toFileCalls s.up s.disk).2.2 :=
    finish_grown fun _ => by rw [hrec.newPath]; exact hq.append _
  simp only [execM]
  generalize upgradeFinish e.toFileCalls s.up s.disk = r at hs hin hdone hgrown ⊢
  obtain ⟨err, u, fs⟩ := r
  refine hv.step (fun hp => absurd (hin.symm.trans hp) (by decide)) hgrown
    (fun f hf => by cases hf) (fun raw m hm => by cases hm)
    (fun t' hne raw m hm => absurd hm (ho.other (fun _ => hown) hne)) ?_
  cases err with
  | none =>
      obtain ⟨hpass, hread, hothers⟩ := hdone rfl
      by_cases hx : path = q
      · subst hx
        exact .inr (hsend.inPlace hstream hasks hpass (hread habs.ne.1))
      · exact .inl (hothers path hx hne habs.ne.1).read
  | some err => exact .inl (hs (by simp) path hne).read

/-- **`upgrade_abort`.** -/
theorem Vetted.abort (hv : Vetted path fs₀ s g) (ho : OneSession s g)
    (hok : abortsOwn g t .upgradeAbort e s) :
    Vetted path fs₀ (execM .upgradeAbort e s).2 (Function.update g t (.upgradeAbort :: g t)) := by
  obtain ⟨hs, hin⟩ := @abort_spec path s.up s.disk hv.aside
  have hgrown := @abort_grown s.disk Absolute s.up
  exact hv.step (fun hp => absurd (hin.symm.trans hp) (by decide)) hgrown
    (fun f hf => by cases hf) (fun raw m hm => by cases hm)
    (fun t' hne raw m hm => absurd hm (ho.other hok hne)) (.inl hs.read)

/-- **A command keeps it.** -/
theorem Vetted.exec (habs : Absolute path) (hv : Vetted path fs₀ s g) (ho : OneSession s g) {β : Type}
    {c : MCmd β} (hown : ownPre c (g t)) (hp : carefulPre c (g t))
    (hstream : consumed (g t) <+: received (g t)) (hok : keepsOwn path g t c e s) :
    Vetted path fs₀ (execM c e s).2 (Function.update g t (c.note (execM c e s).1 :: g t)) := by
  by_cases hc : c.onSession = false
  · exact hv.plain habs hc hp
  · cases c with
    | upgradeBegin sha size => exact hv.begin ho hp hok.2
    | upgradeWrite p => exact hv.write ho hown hp
    | upgradeFinish => exact hv.finish habs ho hown hstream hp
    | upgradeAbort => exact hv.abort ho hok.1
    | _ => exact absurd rfl hc

end Steps

/-- What the rest of the router does meanwhile: anything but to the session and to the disk, on which
`save` puts another `router.conf`. -/
def meanwhile (s s' : Manage) : Prop :=
  s'.up = s.up ∧ (s'.disk = s.disk ∨ ∃ text, s'.disk = s.disk.link configFile text)

theorem Vetted.meanwhile (habs : Absolute path) (hv : Vetted path fs₀ s g) (ha : meanwhile s s') :
    Vetted path fs₀ s' g := by
  obtain ⟨hup, hd⟩ := ha
  have hb : Beside s.disk s'.disk := by
    rcases hd with hd | ⟨text, hd⟩ <;> rw [hd]
    · exact .refl _
    · exact ⟨fun n hn => Fs.same_link _ hn.ne.1, Fs.grown_link _ _ _⟩
  have hread := (hb.same path habs).read
  refine ⟨by rw [hup]; exact hv.aside, fun t i hi => hb.grown.away (hv.file t i hi),
    fun t raw m hm => by rw [hup]; exact (hv.receiving t raw m hm).beside hb, ?_⟩
  rcases hv.exe with h₀ | ⟨t, hi⟩
  · exact .inl (hread.trans h₀)
  · exact .inr ⟨t, hi.of_read hread⟩

variable {x y : Config MCmd Manage (List Note) ℕ Task}

/-- A connection about to run a command has what the command needs. -/
theorem careful_run (hx : Started x) (hr : Reach (manage meanwhile) Program.anyStep x y)
    {β : Type} {c : MCmd β} {k : β → MAct (Option Task)} (ht : y.thread t = .running (.cmd c k)) :
    carefulPre c (y.ghost t) := by
  have hreload : ∀ h, Careful (fun _ _ => True) reload h := fun h =>
    (Careful.of_every (Prog.Every.mono reload_every fun _ _ hc => free_of_config hc) h).mono
      fun _ _ _ => trivial
  have hm := (manage_along (I := fun _ => True) (fun _ _ c e s _ => carefulAns_exec c e s)
    (fun _ _ _ _ _ _ _ => trivial) trivial connStart_careful (fun c h hc => connRound_careful hc)
    hreload hx hr t).2
  rw [ht] at hm
  exact hm.1

/-- What a connection has consumed it has received. -/
theorem consumed_run (hx : Started x) (hr : Reach (manage meanwhile) Program.anyStep x y) (t : ℕ) :
    consumed (y.ghost t) <+: received (y.ghost t) := by
  obtain ⟨ibuf, hs, -⟩ := (framed hx hr t).1.stream
  rw [hs]
  exact List.prefix_append _ _

/-- **Every run** keeps the executable vetted. -/
theorem vetted_run (habs : Absolute path) (hx : Started x) (hu : x.shared.up.inProgress = false)
    (hr : ReachIf (manage meanwhile) (keepsOwn path) x y) :
    OneSession y.shared y.ghost ∧ Vetted path x.shared.disk y.shared y.ghost := by
  have hg : ∀ t, x.ghost t = [] := fun t => (hx t).1
  induction hr with
  | refl =>
      have hno : ∀ t, owns (x.ghost t) = false := fun t => by rw [hg t]; rfl
      refine ⟨⟨fun t _ ho => absurd (ho.symm.trans (hno t)) (by simp), ?_⟩,
        fun hp => absurd (hu.symm.trans hp) (by decide), fun t i hi => ?_, fun t raw m hm => ?_,
        .inl rfl⟩
      · rw [hu]
        exact ⟨fun e => (by cases e), fun ⟨t, ho⟩ => absurd (ho.symm.trans (hno t)) (by simp)⟩
      · obtain ⟨f, hf, -⟩ := hi
        rw [hg t] at hf
        cases hf
      · rw [hg t] at hm
        cases hm
  | @tail y z hr hs ih =>
      obtain ⟨ho, hv⟩ := ih
      cases hs with
      | start t ht => exact ⟨ho, hv⟩
      | exec t e ht hok =>
          have hreach := ReachIf.reach hr
          have hown := ownPre_run hx hreach ht
          exact ⟨ho.exec hown hok.1, hv.exec habs ho hown (careful_run hx hreach ht)
            (consumed_run hx hreach t) hok⟩
      | finish t ht => exact ⟨ho, hv⟩
      | admin ha =>
          exact ⟨ho.of_same (congrArg Upgrade.inProgress ha.1) fun _ => rfl, hv.meanwhile habs ha⟩

/-- **No image is installed that has not passed every check**, in every run of any number of
connections in which `upgrade_abort` meets no session but that of its own connection, and
`/proc/self/exe` does not make the executable an image beside something else: the executable is what
it was, or what one connection has received right behind its line `upgrade size sha`, of that size,
an ELF file, and with that hash. -/
theorem images_vetted (habs : Absolute path) (hx : Started x) (hu : x.shared.up.inProgress = false)
    (hr : ReachIf (manage meanwhile) (keepsOwn path) x y) :
    y.shared.disk.read path = x.shared.disk.read path ∨
      ∃ t, InPlace path (y.ghost t) y.shared.disk :=
  (vetted_run habs hx hu hr).2.exe

/-- The link of a router that runs is absolute. -/
theorem serving_absolute (bytes link : List Byte) (hl : (World.serving bytes).exe = some link) :
    Absolute link ∧ lit "/router" ≠ newOf link := by
  obtain rfl : lit "/router" = link := Option.some.inj hl
  decide

/-- A connection that sends an image of four bytes, while another one is told to wait. -/
def upload : List (ℕ × World) :=
  firstLine 0 (lit "upgrade 4 -\n") ++ firstLine 1 (lit "upgrade 4 -\n") ++
    List.replicate 2 (0, .serving []) ++ [(0, .serving elfMagic)] ++ List.replicate 6 (0, .serving [])

theorem images_vetted_two :
    let y := Program.play (manage meanwhile) upload twoClients
    (y.shared.disk.read (lit "/router") = twoClients.shared.disk.read (lit "/router") ∨
      ∃ t, InPlace (lit "/router") (y.ghost t) y.shared.disk) ∧
      y.shared.disk.read (lit "/router") = some elfMagic := by
  intro y
  have hr : ReachIf (manage meanwhile) (keepsOwn (lit "/router")) twoClients y :=
    Program.PlayIf.reach (by repeat' first | exact trivial | exact fun _ => serving_absolute _ _ | constructor)
  exact ⟨images_vetted (by decide) twoClients_started rfl hr, rfl⟩

end LinuxRouter
