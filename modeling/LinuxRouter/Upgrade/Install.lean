import LinuxRouter.Upgrade.Hash
import LinuxRouter.Model.Upgrade

/-!
# Upgrade — installing a binary

One client's upgrade, from `upgrade_begin` to its end.  What the checks are to ensure is easy to
state and easy to lose: length, magic number and hash are accumulated piece by piece, a failure at
any step undoes the session, and the executable itself is only known by what `/proc/self/exe` reads.

* `upgradeClient` is the sequence of calls a connection makes: it stops at the first that fails, or
  where the connection drops, and then calls `upgrade_abort`.
* `Passes` is what an upload must be: of the announced size, an ELF file, and of the announced hash.
* `Receiving` is the invariant of a session, with what has been received.  Each call has its lemma,
  which says what it leaves of the session, and which names it leaves alone: all but the session's own
  `.new`, until `finish_inv` says what `upgrade_finish` may do in the end.
* `installs_iff`: the executable is replaced exactly by what passes, in every run, if and only if the
  link that `upgrade_begin` reads, cut to the 511 bytes it reads, is the path of the executable.
* `installs_running`: so it is while the running binary is still the one at that path, and the path
  is not too long.  Once it has been replaced, the kernel reads it as deleted, and a second upgrade
  goes to a file of that name.
-/

namespace LinuxRouter

open Text (lit)
open Files (Fs File)

/-! ### A client -/

/-- One `upgrade_write` for each chunk, up to the first that fails. -/
def upgradeWrites : List (FileCalls × List Byte) → Upgrade → Disk → Bool × Upgrade × Disk
  | [], u, fs => (true, u, fs)
  | (o, p) :: ps, u, fs =>
      match upgradeWrite o p u fs with
      | (none, u, fs) => upgradeWrites ps u fs
      | (some _, u, fs) => (false, u, fs)

/-- An upgrade: `last` is `upgrade_finish`, or nothing if the connection drops before it.  The result
is whether `upgrade_finish` returned 0; if not, `upgrade_abort` has been called. -/
def upgradeClient (o : FileCalls) (sha : List Byte) (size : ℕ) (ps : List (FileCalls × List Byte))
    (last : Option FileCalls) (u : Upgrade) (fs : Disk) : Bool × Upgrade × Disk :=
  match upgradeBegin o sha size u fs with
  | (some _, u, fs) => (false, upgradeAbort u fs)
  | (none, u, fs) =>
      match upgradeWrites ps u fs, last with
      | (true, u, fs), some o =>
          match upgradeFinish o u fs with
          | (none, u, fs) => (true, u, fs)
          | (some _, u, fs) => (false, upgradeAbort u fs)
      | (_, u, fs), _ => (false, upgradeAbort u fs)

/-- The first bytes of an ELF file. -/
def elfMagic : List Byte := [0x7f#8, 69#8, 76#8, 70#8]

/-- The checks on an upload of the bytes `m`. -/
structure Passes (sha : List Byte) (size : ℕ) (m : List Byte) : Prop where
  pos : 0 < size
  bound : size ≤ maxUpload
  length : m.length = size
  elf : elfMagic <+: m
  hash : sha ≠ lit "-" → hexToBytes sha 32 = some (Sha2.digest m)

/-- Every file call succeeds, and `readlink` reads `link`. -/
structure Succeed (link : Path) (o : FileCalls) (ps : List (FileCalls × List Byte))
    (last : Option FileCalls) : Prop where
  exe : o.exe = some link
  opened : o.opened = true
  wrote : ∀ p ∈ ps, p.1.wrote = none
  finish : ∃ l, last = some l ∧ l.closed = true ∧ l.renamed = true

/-- What is asked of the upgrade of an executable at `path`, where `/proc/self/exe` reads `link` if it
can be read: the executable is replaced only by what passes the checks, replaced by that if the file
calls succeed, and otherwise left alone, with no session. -/
def Installs (path link : Path) : Prop :=
  ∀ (o : FileCalls) (sha : List Byte) (size : ℕ) (ps : List (FileCalls × List Byte))
    (last : Option FileCalls) (u : Upgrade) (fs : Disk),
    u.inProgress = false → (o.exe = none ∨ o.exe = some link) →
    let r := upgradeClient o sha size ps last u fs
    let m := (ps.map Prod.snd).flatten
    (r.1 = true → Passes sha size m) ∧
      (r.1 = false → Fs.Same path fs r.2.2) ∧ r.2.1.inProgress = false ∧
      (Passes sha size m → Succeed link o ps last → r.1 = true ∧ r.2.2.read path = some m)

/-! ### A session -/

/-- The session has received `m`. -/
structure Receiving (path : Path) (sha : List Byte) (size : ℕ) (m : List Byte) (u : Upgrade)
    (fs : Disk) : Prop where
  inProgress : u.inProgress = true
  exePath : u.exePath = path
  newPath : u.newPath = path ++ lit ".new"
  file : ∃ f, u.fp = some f ∧ fs.Writing u.newPath f m
  pos : 0 < size
  bound : size ≤ maxUpload
  expected : u.expected = size
  received : u.received = m.length
  length : m.length ≤ size
  first4 : u.first4 = m.take 4
  haveSha : u.haveSha = (sha != lit "-")
  hash : u.haveSha = true → hexToBytes sha 32 = some u.expect ∧ Hashing u.hc m

/-- A name that the session does not write to. -/
def Aside (n : Path) (u : Upgrade) : Prop := u.inProgress = true → n ≠ u.newPath

/-- What `upgrade_begin` takes for the path of the executable: the front of the link that it reads. -/
def exeOf (link : Path) : Path := Text.cstr (link.take 511)

/-- What the session writes to, for this link. -/
def newOf (link : Path) : Path := exeOf link ++ lit ".new"

variable {path link n : Path} {sha : List Byte} {size : ℕ} {m : List Byte} {u : Upgrade} {fs : Disk}
  {o : FileCalls}

/-- The new name is another one. -/
theorem ne_new (path : Path) : path ≠ path ++ lit ".new" := by
  intro h
  have hl := congrArg List.length h
  have h4 : (lit ".new").length = 4 := by decide
  rw [List.length_append] at hl
  omega

/-- A session leaves the other names alone. -/
theorem Receiving.aside (h : Receiving path sha size m u fs) (hn : n ≠ path ++ lit ".new") :
    Aside n u := fun _ => h.newPath ▸ hn

/-- `upgrade_abort` removes the file of the session, and no other. -/
theorem abort_spec (h : Aside n u) :
    Fs.Same n fs (upgradeAbort u fs).2 ∧ (upgradeAbort u fs).1.inProgress = false := by
  unfold upgradeAbort
  split
  · rename_i hp
    exact ⟨Fs.same_unlink (h hp), rfl⟩
  · rename_i hp
    exact ⟨.refl _ _, by simpa using hp⟩

/-- A link that fits is read as it is. -/
theorem exeOf_eq (hz : Text.nul ∉ link.take 511) : exeOf link = link.take 511 := Text.cstr_eq_self hz

/-- **`upgrade_begin`**: it writes to the file beside the one it takes for the executable, and begins a
session with nothing received, or none. -/
theorem begin_spec (hu : u.inProgress = false) {r : Option (List Byte) × Upgrade × Disk}
    (hr : upgradeBegin o sha size u fs = r) :
    (∀ n, (∀ link, o.exe = some link → n ≠ newOf link) → Fs.Same n fs r.2.2) ∧
      (r.1 ≠ none → r.2.1.inProgress = false) ∧
      (r.1 = none → ∃ link, o.exe = some link ∧ Receiving (exeOf link) sha size [] r.2.1 r.2.2) ∧
      (0 < size → size ≤ maxUpload → (∃ link, o.exe = some link ∧ link ≠ []) → o.opened = true →
        (sha ≠ lit "-" → ∃ d, hexToBytes sha 32 = some d) → r.1 = none) := by
  subst hr
  unfold upgradeBegin
  split
  · exact ⟨fun _ _ => .refl _ _, fun _ => hu, fun e => (nomatch e), fun _ _ => by omega⟩
  · rename_i hs
    simp only [hu, Bool.false_eq_true, if_false]
    split
    · rename_i he
      exact ⟨fun _ _ => .refl _ _, fun _ => hu, fun e => (nomatch e), fun _ _ ⟨_, h, _⟩ => by simp [he] at h⟩
    · rename_i he
      refine ⟨fun _ _ => .refl _ _, fun _ => hu, fun e => (nomatch e), fun _ _ ⟨link, h, hne⟩ => ?_⟩
      exact absurd (Option.some.inj (h.symm.trans he)) hne
    · rename_i link _ he
      -- the link has been read: what is written lies beside what it says
      have hsame : ∀ n, (∀ link, o.exe = some link → n ≠ newOf link) →
          Fs.Same n fs (fs.openW (newOf link)).2 := fun n hn => Fs.same_openW (hn link he)
      split
      · rename_i hop
        exact ⟨fun _ _ => .refl _ _, fun _ => rfl, fun e => (nomatch e),
          fun _ _ _ h => by simp [hop] at h⟩
      -- the state that `upgrade_begin` leaves, with a hash to check or without
      · have hrec : ∀ {ex : List Byte} {hc : Sha256},
            ((sha != lit "-") = true → hexToBytes sha 32 = some ex ∧ Hashing hc []) →
            Receiving (exeOf link) sha size []
              { inProgress := true, newPath := newOf link, exePath := exeOf link
                fp := some (fs.openW (newOf link)).1, hc := hc, haveSha := sha != lit "-"
                expect := ex, expected := size, received := 0, first4 := [] }
              (fs.openW (newOf link)).2 := fun hh =>
          ⟨rfl, rfl, rfl, ⟨_, rfl, Fs.writing_openW _ _⟩, by omega, by omega, rfl, rfl,
            Nat.zero_le _, rfl, rfl, hh⟩
        split
        · rename_i hsha
          split
          · rename_i hx
            refine ⟨fun n hn => (hsame n hn).trans (Fs.same_unlink (hn link he)), fun _ => rfl,
              fun e => (nomatch e), fun _ _ _ _ h => ?_⟩
            obtain ⟨d, hd⟩ := h (by simpa using hsha)
            cases hx.symm.trans hd
          · rename_i d hx
            exact ⟨hsame, fun e => absurd rfl e, fun _ => ⟨link, he, hrec fun _ => ⟨hx, hashing_init⟩⟩,
              fun _ _ _ _ _ => rfl⟩
        · rename_i hsha
          exact ⟨hsame, fun e => absurd rfl e, fun _ => ⟨link, he, hrec fun h => absurd h hsha⟩,
            fun _ _ _ _ _ => rfl⟩

/-- The first four bytes, over two pieces. -/
theorem take_four (m p : List Byte) :
    m.take 4 ++ p.take (4 - (m.take 4).length) = (m ++ p).take 4 := by
  rw [List.take_append, List.length_take]
  congr 2
  omega

/-- **`upgrade_write`**: the session has received the piece too, or the call fails; either way nothing
but its file is written to. -/
theorem write_spec (h : Receiving path sha size m u fs) {p : List Byte}
    {r : Option (List Byte) × Upgrade × Disk} (hr : upgradeWrite o p u fs = r) :
    (∀ n, n ≠ path ++ lit ".new" → Fs.Same n fs r.2.2 ∧ Aside n r.2.1) ∧
      (r.1 = none → Receiving path sha size (m ++ p) r.2.1 r.2.2) ∧
      (o.wrote = none → (m ++ p).length ≤ size → r.1 = none) := by
  subst hr
  obtain ⟨f, hf, hw⟩ := h.file
  have hsame : ∀ n, n ≠ path ++ lit ".new" → ∀ q, Fs.Same n fs (fs.write f q).2 := fun n hn q =>
    Fs.same_write hw.entry (h.newPath ▸ hn) q
  have hlen : (m ++ p).length = m.length + p.length := List.length_append
  unfold upgradeWrite
  split
  · rename_i hs
    rw [h.expected, h.received] at hs
    exact ⟨fun _ hn => ⟨.refl _ _, h.aside hn⟩, fun e => (nomatch e), fun _ _ => by omega⟩
  · rename_i hs
    rw [h.expected, h.received] at hs
    simp only [hf]
    cases ho : o.wrote with
    | some k =>
        exact ⟨fun n hn => ⟨hsame n hn _, h.aside hn⟩, fun e => (nomatch e), fun e => (nomatch e)⟩
    | none =>
        refine ⟨fun n hn => ⟨hsame n hn _, h.aside hn⟩, fun _ => ?_, fun _ _ => rfl⟩
        refine ⟨h.inProgress, h.exePath, h.newPath, ⟨_, rfl, hw.write p⟩, h.pos, h.bound, h.expected,
          ?_, by omega, ?_, h.haveSha, fun hs => ?_⟩
        · rw [hlen, h.received]
        · rw [h.first4, take_four]
        · obtain ⟨hx, hh⟩ := h.hash hs
          refine ⟨hx, ?_⟩
          rw [if_pos hs]
          exact hh.update p

/-- The writes of a client, up to the first that fails. -/
theorem writes_spec {ps : List (FileCalls × List Byte)} (h : Receiving path sha size m u fs)
    {r : Bool × Upgrade × Disk} (hr : upgradeWrites ps u fs = r) :
    (∀ n, n ≠ path ++ lit ".new" → Fs.Same n fs r.2.2 ∧ Aside n r.2.1) ∧
      (r.1 = true → Receiving path sha size (m ++ (ps.map Prod.snd).flatten) r.2.1 r.2.2) ∧
      ((∀ p ∈ ps, p.1.wrote = none) → (m ++ (ps.map Prod.snd).flatten).length ≤ size →
        r.1 = true) := by
  subst hr
  induction ps generalizing m u fs with
  | nil =>
      rw [List.map_nil, List.flatten_nil, List.append_nil]
      exact ⟨fun _ hn => ⟨.refl _ _, h.aside hn⟩, fun _ => h, fun _ _ => rfl⟩
  | cons p ps ih =>
      obtain ⟨o, p⟩ := p
      unfold upgradeWrites
      obtain ⟨hs, hrec, hok⟩ := write_spec (o := o) h (p := p) rfl
      rw [List.map_cons, List.flatten_cons, ← List.append_assoc]
      generalize upgradeWrite o p u fs = r at hs hrec hok
      obtain ⟨e, u', fs'⟩ := r
      cases e with
      | none =>
          obtain ⟨hs', hrec', hok'⟩ := ih (hrec rfl)
          exact ⟨fun n hn => ⟨(hs n hn).1.trans (hs' n hn).1, (hs' n hn).2⟩, hrec',
            fun hall => hok' fun q hq => hall q (by simp [hq])⟩
      | some e =>
          refine ⟨hs, fun e => (nomatch e), fun hall hlen => ?_⟩
          have hle : (m ++ p).length ≤ size := by
            rw [List.length_append] at hlen
            exact (Nat.le_add_right _ _).trans hlen
          cases hok (hall (o, p) List.mem_cons_self) hle

/-- The first four bytes of an image. -/
theorem elf_iff {m : List Byte} : m.take 4 = elfMagic ↔ elfMagic <+: m := by
  constructor
  · intro h
    rw [← h]
    exact List.take_prefix 4 m
  · rintro ⟨q, rfl⟩
    rfl

/-! ### The end of a session -/

/-- What `upgrade_finish` looks at before it closes the file. -/
structure Checked (u : Upgrade) : Prop where
  size : u.received = u.expected
  elf : u.first4 = elfMagic
  hash : u.haveSha = true → sha256Final u.hc = u.expect

/-- The session's own account of the upload is right: length, magic number and hash were kept up to
date piece by piece. -/
theorem checked_iff (h : Receiving path sha size m u fs) : Checked u ↔ Passes sha size m := by
  have hlt : m.length < 2 ^ 61 := by
    have hle := h.length.trans h.bound
    have : maxUpload < 2 ^ 61 := by decide
    omega
  have hsha : (u.haveSha = true) ↔ sha ≠ lit "-" := by rw [h.haveSha]; exact bne_iff_ne
  constructor
  · intro hc
    refine ⟨h.pos, h.bound, ?_, elf_iff.mp (h.first4 ▸ hc.elf), fun hs => ?_⟩
    · rw [← h.received, ← h.expected, hc.size]
    · obtain ⟨hx, hh⟩ := h.hash (hsha.mpr hs)
      rw [hx, ← hc.hash (hsha.mpr hs), hh.final hlt]
  · intro hp
    refine ⟨?_, h.first4.trans (elf_iff.mpr hp.elf), fun hs => ?_⟩
    · rw [h.received, h.expected, hp.length]
    · obtain ⟨hx, hh⟩ := h.hash hs
      rw [hh.final hlt]
      exact Option.some.inj ((hp.hash (hsha.mp hs)).symm.trans hx)

/-- The file of the name `new` becomes the executable, and `config_save` follows. -/
def putInPlace (o : FileCalls) (new exe : Path) (fs : Disk) : Disk :=
  match o.saved with
  | some text => (fs.rename new exe).link configFile text
  | none => fs.rename new exe

/-- **What `upgrade_finish` may do** with a session: undo it, if a check fails or the file cannot be
closed or renamed; or install the file. -/
theorem finish_inv (hu : u.inProgress = true) {r : Option (List Byte) × Upgrade × Disk}
    (hr : upgradeFinish o u fs = r) :
    (r.1 ≠ none ∧ r.2.2 = fs.unlink u.newPath ∧ r.2.1.inProgress = false ∧
        (Checked u → o.closed = true → o.renamed = false)) ∨
      (r.1 = none ∧ r.2.2 = putInPlace o u.newPath u.exePath fs ∧ r.2.1.inProgress = false ∧
        Checked u) := by
  subst hr
  have hfail : ∀ {e : List Byte} {v : Upgrade}, v.newPath = u.newPath →
      (Checked u → o.closed = true → o.renamed = false) →
      ∀ r, r = (some e, upgradeCleanup v fs) →
      (r.1 ≠ none ∧ r.2.2 = fs.unlink u.newPath ∧ r.2.1.inProgress = false ∧
          (Checked u → o.closed = true → o.renamed = false)) ∨
        (r.1 = none ∧ r.2.2 = putInPlace o u.newPath u.exePath fs ∧ r.2.1.inProgress = false ∧
          Checked u) := by
    rintro e v hv hc _ rfl
    exact .inl ⟨fun e => (nomatch e), congrArg fs.unlink hv, rfl, hc⟩
  unfold upgradeFinish
  rw [if_neg (by simp [hu])]
  split
  · rename_i hne
    exact hfail rfl (fun hc => absurd hc.size hne) _ rfl
  · rename_i hsize
    split
    · rename_i hne
      exact hfail rfl (fun hc => absurd hc.elf hne) _ rfl
    · rename_i helf
      dsimp only
      -- `sha256_final` touches the hash only
      have hhave : (if u.haveSha = true then { u with hc := sha256Init } else u).haveSha = u.haveSha := by
        split <;> rfl
      have hexp : (if u.haveSha = true then { u with hc := sha256Init } else u).expect = u.expect := by
        split <;> rfl
      have hnew : (if u.haveSha = true then { u with hc := sha256Init } else u).newPath = u.newPath := by
        split <;> rfl
      have hexe : (if u.haveSha = true then { u with hc := sha256Init } else u).exePath = u.exePath := by
        split <;> rfl
      generalize (if u.haveSha = true then { u with hc := sha256Init } else u) = v
        at hhave hexp hnew hexe ⊢
      split
      · rename_i hbad
        exact hfail hnew (fun hc => absurd ((hc.hash (hhave ▸ hbad.1)).trans hexp.symm) hbad.2) _ rfl
      · rename_i hgood
        split
        · rename_i hcl
          exact hfail (v := { v with fp := none }) hnew
            (fun _ hc => absurd (hcl.symm.trans hc) (by decide)) _ rfl
        · split
          · rename_i hrn
            exact hfail (v := { v with fp := none }) hnew (fun _ _ => hrn) _ rfl
          · refine .inr ⟨rfl, ?_, rfl, not_not.mp hsize, not_not.mp helf, fun hs => ?_⟩
            · rw [hnew, hexe]
              rfl
            · exact (not_not.mp fun hd => hgood ⟨hhave.trans hs, hd⟩).trans hexp

/-- What an installation leaves alone. -/
theorem same_putInPlace {new exe : Path} (h₁ : n ≠ new) (h₂ : n ≠ exe) (h₃ : n ≠ configFile) :
    Fs.Same n fs (putInPlace o new exe fs) := by
  have hren : Fs.Same n fs (fs.rename new exe) := Fs.same_rename h₁ h₂
  unfold putInPlace
  split
  · exact hren.trans (Fs.same_link _ h₃)
  · exact hren

/-- The executable is the file then. -/
theorem read_putInPlace {new exe : Path} {f : File} (hw : fs.Writing new f m) (h₁ : exe ≠ new)
    (h₂ : exe ≠ configFile) : (putInPlace o new exe fs).read exe = some m := by
  have hren : (fs.rename new exe).read exe = some m := hw.rename h₁
  unfold putInPlace
  split
  · exact (Fs.same_link _ h₂).read.trans hren
  · exact hren

/-- **`upgrade_finish`**: what passes the checks becomes the executable; if it fails, everything but the
session's file is left alone. -/
theorem finish_spec (h : Receiving path sha size m u fs) {r : Option (List Byte) × Upgrade × Disk}
    (hr : upgradeFinish o u fs = r) :
    (r.1 ≠ none → ∀ n, n ≠ path ++ lit ".new" → Fs.Same n fs r.2.2) ∧ r.2.1.inProgress = false ∧
      (r.1 = none → Passes sha size m ∧ (path ≠ configFile → r.2.2.read path = some m) ∧
        ∀ n, n ≠ path → n ≠ path ++ lit ".new" → n ≠ configFile → Fs.Same n fs r.2.2) ∧
      (Passes sha size m → o.closed = true → o.renamed = true → r.1 = none) := by
  obtain ⟨f, -, hw⟩ := h.file
  rcases finish_inv h.inProgress hr with ⟨hne, hfs, hin, hfail⟩ | ⟨he, hfs, hin, hc⟩
  · refine ⟨fun _ n hn => ?_, hin, fun e => absurd e hne, fun hp hcl hrn => ?_⟩
    · rw [hfs, h.newPath]
      exact Fs.same_unlink hn
    · exact absurd ((hfail ((checked_iff h).mpr hp) hcl).symm.trans hrn) (by decide)
  · rw [h.newPath] at hw
    rw [h.newPath, h.exePath] at hfs
    refine ⟨fun e => absurd he e, hin, fun _ => ⟨(checked_iff h).mp hc, fun hconf => ?_,
      fun n h₁ h₂ h₃ => ?_⟩, fun _ _ _ => he⟩
    · rw [hfs]
      exact read_putInPlace hw (ne_new path) hconf
    · rw [hfs]
      exact same_putInPlace h₂ h₁ h₃

/-! ### Every run -/

/-- A link that the executable's path is read from. -/
theorem client_spec (hx : exeOf link = path) (hc : path ≠ configFile) (hne : path ≠ []) :
    Installs path link := by
  intro o sha size ps last u fs hu ho r m
  have hpass : Passes sha size m → sha ≠ lit "-" → ∃ d, hexToBytes sha 32 = some d :=
    fun hp hs => ⟨_, hp.hash hs⟩
  have hlink : link ≠ [] := by
    rintro rfl
    exact hne hx.symm
  obtain ⟨hs, hbad, hrec, hok⟩ := @begin_spec sha size u fs o hu _ rfl
  -- the session is beside the executable
  have hbeside : ∀ l, o.exe = some l → exeOf l = path := fun l hl => by
    rcases ho with ho | ho
    · cases ho.symm.trans hl
    · rw [← Option.some.inj (ho.symm.trans hl), hx]
  replace hs := hs path fun l hl e => ne_new path (e.trans (by rw [newOf, hbeside l hl]))
  have hbegin : Passes sha size m → Succeed link o ps last → _ := fun hp hsu =>
    hok hp.pos hp.bound ⟨link, hsu.exe, hlink⟩ hsu.opened (hpass hp)
  -- a run that ends in `upgrade_abort`
  have habort : ∀ {u' : Upgrade} {fs' : Disk}, Fs.Same path fs fs' → Aside path u' →
      (Passes sha size m → Succeed link o ps last → False) →
      ∀ r : Bool × Upgrade × Disk, r = (false, upgradeAbort u' fs') →
      (r.1 = true → Passes sha size m) ∧ (r.1 = false → Fs.Same path fs r.2.2) ∧
        r.2.1.inProgress = false ∧
        (Passes sha size m → Succeed link o ps last → r.1 = true ∧ r.2.2.read path = some m) := by
    rintro u' fs' hs' ha hno _ rfl
    obtain ⟨h₁, h₂⟩ := @abort_spec path u' fs' ha
    exact ⟨fun e => (nomatch e), fun _ => hs'.trans h₁, h₂, fun hp hsu => (hno hp hsu).elim⟩
  simp only [r, upgradeClient]
  generalize upgradeBegin o sha size u fs = b at hs hbad hrec hbegin ⊢
  obtain ⟨e, u₁, fs₁⟩ := b
  cases e with
  | some e =>
      refine habort hs (fun hp => ?_) (fun hp hsu => nomatch hbegin hp hsu) _ rfl
      rw [hbad (fun e => nomatch e)] at hp
      cases hp
  | none =>
      obtain ⟨l, hl, hrec⟩ := hrec rfl
      rw [hbeside l hl] at hrec
      obtain ⟨hs₂, hrec₂, hok₂⟩ := @writes_spec path sha size [] u₁ fs₁ ps hrec _ rfl
      obtain ⟨hs₂, ha₂⟩ := hs₂ path (ne_new path)
      rw [List.nil_append] at hrec₂ hok₂
      dsimp only at hs₂ ha₂ hrec₂ hok₂ ⊢
      generalize upgradeWrites ps u₁ fs₁ = w at hs₂ ha₂ hrec₂ hok₂ ⊢
      obtain ⟨done, u₂, fs₂⟩ := w
      cases done with
      | false =>
          refine habort (hs.trans hs₂) ha₂ (fun hp hsu => ?_) _ rfl
          cases hok₂ hsu.wrote hp.length.le
      | true =>
          cases last with
          | none =>
              refine habort (hs.trans hs₂) ha₂ (fun _ hsu => ?_) _ rfl
              obtain ⟨l, hl, -⟩ := hsu.finish
              cases hl
          | some o' =>
              obtain ⟨hs₃, hin, hdone, hok₃⟩ := finish_spec (o := o') (hrec₂ rfl) rfl
              dsimp only at hs₃ hin hdone hok₃ ⊢
              generalize upgradeFinish o' u₂ fs₂ = f at hs₃ hin hdone hok₃ ⊢
              obtain ⟨e, u₃, fs₃⟩ := f
              have hfin : Passes sha size m → Succeed link o ps (some o') → e = none := by
                intro hp hsu
                obtain ⟨l, hl, hcl, hrn⟩ := hsu.finish
                obtain rfl := Option.some.inj hl
                exact hok₃ hp hcl hrn
              cases e with
              | none =>
                  exact ⟨fun _ => (hdone rfl).1, fun e => absurd e (by simp), hin,
                    fun _ _ => ⟨rfl, (hdone rfl).2.1 hc⟩⟩
              | some e =>
                  refine habort ((hs.trans hs₂).trans (hs₃ (fun e => nomatch e) path (ne_new path)))
                    (fun hp => ?_) (fun hp hsu => nomatch hfin hp hsu) _ rfl
                  rw [hin] at hp
                  cases hp

/-- Every file call succeeds; `config_save` writes nothing. -/
def FileCalls.fair (path : Path) : FileCalls where
  exe := some path
  opened := true
  wrote := none
  closed := true
  renamed := true
  saved := none

/-- No session yet. -/
def Upgrade.fresh : Upgrade where
  inProgress := false
  newPath := []
  exePath := []
  fp := none
  hc := sha256Init
  haveSha := false
  expect := []
  expected := 0
  received := 0
  first4 := []

/-- An upgrade of four bytes, with everything in order. -/
theorem fair_client {c : Byte} {cs : Path} (fs : Disk) :
    let new := newOf (c :: cs)
    let f := fs.openW new
    (upgradeClient (.fair (c :: cs)) (lit "-") 4 [(.fair (c :: cs), elfMagic)]
      (some (.fair (c :: cs))) .fresh fs).2.2 =
        (f.2.write f.1 elfMagic).2.rename new (exeOf (c :: cs)) :=
  rfl

/-- **Another path**: if the link is read as some other name, an upgrade with everything in order
installs the image there. -/
theorem not_installs_of_ne (hx : exeOf link ≠ path) : ¬ Installs path link := by
  intro h
  have hp : Passes (lit "-") 4 elfMagic :=
    ⟨by decide, by decide, rfl, List.prefix_refl _, fun h => absurd rfl h⟩
  obtain ⟨-, -, -, hdone⟩ := h (.fair link) (lit "-") 4 [(.fair link, elfMagic)]
    (some (.fair link)) .fresh (Fs.empty.link path []) rfl (.inr rfl)
  obtain ⟨htrue, hread⟩ := hdone hp ⟨rfl, rfl, by simp [FileCalls.fair], _, rfl, rfl, rfl⟩
  cases link with
  -- nothing is read: there is no session
  | nil => cases htrue
  | cons c cs =>
      rw [fair_client] at hread
      by_cases hnew : path = newOf (c :: cs)
      · rw [hnew, Fs.read_rename_self] at hread
        cases hread
      · have hopen := Fs.writing_openW (newOf (c :: cs)) (Fs.empty.link path [])
        have hsame := ((Fs.same_openW hnew).trans (Fs.same_write hopen.entry hnew elfMagic)).trans
          (Fs.same_rename hnew (Ne.symm hx))
        rw [hsame.read, Fs.read_link_self] at hread
        exact absurd (Option.some.inj hread) (by simp [elfMagic])

/-- An absolute path is not empty, and not the file that `config_save` replaces. -/
theorem absolute_ne (habs : path.head? = some 47#8) : path ≠ configFile ∧ path ≠ [] := by
  constructor <;>
  · rintro rfl
    exact absurd habs (by decide)

/-- **An upgrade installs what passed every check, and nothing else, exactly if what is read of the
link is the path of the executable.**  The kernel gives absolute paths, without a NUL. -/
theorem installs_iff (habs : path.head? = some 47#8) (hz : Text.nul ∉ link) :
    Installs path link ↔ link.take 511 = path := by
  have hcut : exeOf link = link.take 511 := exeOf_eq fun h => hz (List.mem_of_mem_take h)
  rw [← hcut]
  refine ⟨fun h => not_not.mp fun hx => not_installs_of_ne hx h, fun hx => ?_⟩
  exact client_spec hx (absolute_ne habs).1 (absolute_ne habs).2

theorem installs_iff_usr : Installs (lit "/usr/sbin/router") (lit "/usr/sbin/router") ∧
    ¬Installs (lit "/usr/sbin/router") (lit "/usr/sbin/router (deleted)") :=
  ⟨(installs_iff (by decide) (by decide)).mpr (by decide),
    fun h => absurd ((installs_iff (by decide) (by decide)).mp h) (by decide)⟩

/-- A directory name. -/
def longDir : Path := lit "/" ++ List.replicate 200 97#8

/-- A router three directories down. -/
def deepPath : Path := longDir ++ longDir ++ longDir ++ lit "/router"

/-- A router whose path is too long; and one whose binary has been replaced since it was started, as
by an upgrade after which `execv` failed. -/
theorem not_installs_cut :
    ¬ Installs deepPath deepPath ∧
      ¬ Installs (lit "/usr/sbin/router") (lit "/usr/sbin/router (deleted)") :=
  ⟨not_installs_of_ne (by decide +kernel), not_installs_of_ne (by decide +kernel)⟩

/-- What `/proc/self/exe` reads: the path of the running binary, and so marked if that has been
replaced or removed since it was started. -/
def procSelfExe (path : Path) (gone : Bool) : Path := if gone then path ++ lit " (deleted)" else path

/-- **A running router** can be upgraded while its binary is in its place and the path fits into
`exe_path`.  Where it is not, the mark is only lost to a path of exactly 511 bytes. -/
theorem installs_running (habs : path.head? = some 47#8) (hz : Text.nul ∉ path) (gone : Bool) :
    Installs path (procSelfExe path gone) ↔
      if gone then path.length = 511 else path.length < 512 := by
  have hmark : (lit " (deleted)").length = 10 := by decide
  have hlink : Text.nul ∉ procSelfExe path gone := by
    cases gone with
    | false => exact hz
    | true => exact fun h => (List.mem_append.mp h).elim hz (by decide)
  have hcut : exeOf (procSelfExe path gone) = (procSelfExe path gone).take 511 :=
    exeOf_eq fun h => hlink (List.mem_of_mem_take h)
  have hiff : Installs path (procSelfExe path gone) ↔ (procSelfExe path gone).take 511 = path := by
    rw [← hcut]
    refine ⟨fun h => not_not.mp fun hx => not_installs_of_ne hx h, fun hx => ?_⟩
    exact client_spec hx (absolute_ne habs).1 (absolute_ne habs).2
  rw [hiff]
  cases gone with
  | false =>
      simp only [procSelfExe, Bool.false_eq_true, if_false, List.take_eq_self_iff]
      omega
  | true =>
      simp only [procSelfExe, if_true]
      constructor
      · intro h
        have hl := congrArg List.length h
        rw [List.length_take, List.length_append, hmark] at hl
        omega
      · exact fun h => List.take_left' h

end LinuxRouter
