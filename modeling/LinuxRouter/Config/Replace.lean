import LinuxRouter.Model.Replace
import LinuxRouter.Model.Remote

/-!
# Config — all or nothing

What is in `router.conf` after a save and after an upload, whatever fails.

* `Replaces` is what is asked of both: the old content or the whole of the new one, and the latter
  if the call succeeds.
* `saveText_spec`: `config_save` leaves the old content unless every call succeeds.
* `pump_spec`: a payload that is all there has been taken, and `unwritten` bytes of it are not in
  the file yet.
* `replaced_iff`: `config_save` always replaces.  An upload does so if and only if, once it is
  installed, `fclose` has written the rest and `config_load` does not write defaults over it.

Both ways write a temporary file and rename it, and differ in what they look at.  `config_save`
compares every return value before it renames, `fclose`'s too; `bin_finish` renames whatever
`fclose` returned.  With buffered streams that is where the last bytes are written, so that the
proof follows two quantities through an upload: what the stream has taken, which is all of the
payload if no `fwrite` was short, and what is in the buffer at the end (`unwritten`).  After the
rename `config_load` opens the file, and if it cannot it writes its defaults over it.
-/

namespace LinuxRouter

open Text (lit)
open Files (Fs)
open Stdio (Stream Written Buffered)

/-! ### What is asked -/

/-- The file is the new content. -/
def Renewed (new : Option (List Byte)) (fs : Disk) : Prop :=
  ∃ m, new = some m ∧ fs.read configFile = some m

/-- Replacing `router.conf`, where `new` is the complete new content if there is one, and `ok` is
whether success is reported. -/
structure Replaces (new : Option (List Byte)) (fs : Disk) (ok : Prop) (fs' : Disk) : Prop where
  content : fs'.read configFile = fs.read configFile ∨ Renewed new fs'
  success : ok → Renewed new fs'

/-- The payload of an upload: the announced number of bytes, if that many are received. -/
def uploadText (size : ℕ) (chunks : List (Written × List Byte)) : Option (List Byte) :=
  let m := (chunks.map Prod.snd).flatten
  if size ≤ m.length then some (m.take size) else none

/-! ### When it holds -/

/-- The calls of `fwrite` for a payload of `bleft` bytes. -/
def fwrites : List (Written × List Byte) → ℕ → List (Written × List Byte)
  | [], _ => []
  | (o, p) :: ps, bleft =>
      let part := p.take bleft
      (if part = [] then [] else [(o, part)]) ++ fwrites ps (bleft - part.length)

/-- How much is in the buffer after them, of `b` bytes before. -/
def unwritten (ws : List (Written × List Byte)) (b : ℕ) : ℕ :=
  ws.foldl (fun b w => b + w.2.length - w.1.drained) b

/-- An upload is complete, and renamed to `router.conf`. -/
structure Installed (o : UploadCalls) (size : ℕ) : Prop where
  pos : 0 < size
  bound : size ≤ 256 * 1024
  opened : o.opened = true
  complete : size ≤ (o.chunks.map Prod.snd).flatten.length
  taken : ∀ w ∈ fwrites o.chunks size, w.2.length ≤ w.1.taken
  renamed : o.renamed = true

/-- Every call of a save succeeds. -/
structure SaveCalls.Succeed (o : SaveCalls) (text : List Byte) : Prop where
  opened : o.opened = true
  wrote : text.length ≤ o.wrote.taken
  flushed : o.flushed = none
  synced : o.synced = true
  renamed : o.renamed = true

instance (o : SaveCalls) (text : List Byte) : Decidable (o.Succeed text) :=
  decidable_of_iff (o.opened = true ∧ text.length ≤ o.wrote.taken ∧ o.flushed = none ∧
      o.synced = true ∧ o.renamed = true)
    ⟨fun ⟨a, b, c, d, e⟩ => ⟨a, b, c, d, e⟩, fun ⟨a, b, c, d, e⟩ => ⟨a, b, c, d, e⟩⟩

/-- What a save writes, if every call succeeds. -/
def SaveCalls.saves (o : SaveCalls) (text : Option (List Byte)) : Option (List Byte) :=
  if o.malloc then text.filter fun t => o.Succeed t else none

/-- What `config_load` writes over an upload: its defaults, if it cannot open the file. -/
def overwrites (o : UploadCalls) (buf : ℕ → Byte) (c : ConfSource) : Option (List Byte) :=
  if o.loaded then none else o.save.saves (configSave buf c.cleared)

/-- An upload that is installed is in the file: the last bytes too, or defaults that are the
same. -/
def Lands (o : UploadCalls) (size : ℕ) (buf : ℕ → Byte) (c : ConfSource) : Prop :=
  match overwrites o buf c with
  | none => ∀ j, o.closed = some j → unwritten (fwrites o.chunks size) 0 ≤ j
  | some text => uploadText size o.chunks = some text

/-! ### A save -/

variable {fs : Disk} {new : Option (List Byte)} {text : List Byte}

theorem configFile_ne_saveTmp : configFile ≠ saveTmp := by decide

theorem configFile_ne_confTmp : configFile ≠ confTmp := by decide

theorem same_tryUnlink {a n : Path} (ok : Bool) (ha : a ≠ n) : Fs.Same a fs (tryUnlink ok n fs) := by
  cases ok with
  | true => exact Fs.same_unlink ha
  | false => exact .refl _ _

/-- `config_save` leaves the old content unless every call succeeds. -/
theorem saveText_spec (o : SaveCalls) (text : List Byte) (fs : Disk) :
    (o.Succeed text ∧ (saveText o text fs).1 = true ∧
        (saveText o text fs).2.read configFile = some text) ∨
      (¬o.Succeed text ∧ (saveText o text fs).1 = false ∧
        Fs.Same configFile fs (saveText o text fs).2) := by
  unfold saveText
  split
  · rename_i ho
    exact .inr ⟨fun h => by simp [h.opened] at ho, rfl, .refl _ _⟩
  · rename_i ho
    have h₀ := Stdio.buffered_fopenW saveTmp fs
    have h₁ := h₀.fwrite o.wrote text
    have h₂ := h₁.fflush o.flushed
    have same₀ : Fs.Same configFile fs (Stdio.fopenW saveTmp fs).2 :=
      Fs.same_openW configFile_ne_saveTmp
    have same := ((same₀.trans
      (h₀.same_fwrite configFile_ne_saveTmp o.wrote text)).trans
      (h₁.same_fclose configFile_ne_saveTmp o.flushed)).trans
      (h₂.same_fclose configFile_ne_saveTmp o.closed)
    obtain ⟨f, w, hw, hiff⟩ := h₂.fclose o.closed
    simp only
    split
    · rename_i hrc
      simp only [Bool.and_eq_true, beq_iff_eq, Stdio.fwrite, Stdio.fflush,
        Option.isNone_iff_eq_none] at hrc
      obtain ⟨⟨⟨hn, hf⟩, hs⟩, hr⟩ := hrc
      refine .inl ⟨⟨by simpa using ho, by omega, hf, hs, hr⟩, rfl, ?_⟩
      have hm : w = text := by
        rw [hiff.mpr fun j _ => by simp [Stdio.fflush, Stdio.drain, hf]]
        exact List.take_of_length_le (by omega)
      exact (hw.rename configFile_ne_saveTmp).trans (congrArg some hm)
    · rename_i hrc
      refine .inr ⟨fun h => hrc ?_, rfl, same.trans (same_tryUnlink _ configFile_ne_saveTmp)⟩
      simp [Stdio.fwrite, Stdio.fflush, h.wrote, h.flushed, h.synced, h.renamed]

/-- `config_save` replaces the file. -/
theorem configSaveFile_spec (o : SaveCalls) (buf : ℕ → Byte) (c : ConfSource) (fs : Disk) :
    (∃ text, o.saves (configSave buf c) = some text ∧ configSave buf c = some text ∧
        (configSaveFile o buf c fs).1 = true ∧
        (configSaveFile o buf c fs).2.read configFile = some text) ∨
      (o.saves (configSave buf c) = none ∧ (configSaveFile o buf c fs).1 = false ∧
        Fs.Same configFile fs (configSaveFile o buf c fs).2) := by
  unfold configSaveFile SaveCalls.saves
  cases o.malloc with
  | false => exact .inr ⟨rfl, rfl, .refl _ _⟩
  | true =>
      simp only [Bool.true_eq_false, if_false, if_true]
      cases configSave buf c with
      | none => exact .inr ⟨rfl, rfl, .refl _ _⟩
      | some text =>
          rcases saveText_spec o text fs with ⟨h, hr, hread⟩ | ⟨h, hr, hsame⟩
          · exact .inl ⟨text, by simp [h], rfl, hr, hread⟩
          · exact .inr ⟨by simp [h], hr, hsame⟩

/-! ### An upload -/

theorem fwrites_zero (ps : List (Written × List Byte)) : fwrites ps 0 = [] := by
  induction ps with
  | nil => rfl
  | cons w ps ih => simpa [fwrites] using ih

/-- A payload that is all there has been taken; what is not in the file is in the buffer. -/
theorem pump_spec {chunks : List (Written × List Byte)} {bleft : ℕ} (hb : 0 < bleft) {fp : Stream}
    {m : List Byte} (h : Buffered fs confTmp fp m) {r : Bool × Stream × Disk}
    (hr : putconfPump chunks bleft fp fs = r) :
    ∃ m', Buffered r.2.2 confTmp r.2.1 m' ∧ Fs.Same configFile fs r.2.2 ∧
      (r.1 = true ↔ bleft ≤ (chunks.map Prod.snd).flatten.length ∧
        ∀ w ∈ fwrites chunks bleft, w.2.length ≤ w.1.taken) ∧
      (r.1 = true → m' = m ++ (chunks.map Prod.snd).flatten.take bleft ∧
        r.2.1.buf.length = unwritten (fwrites chunks bleft) fp.buf.length) := by
  subst hr
  induction chunks generalizing bleft fp fs m with
  | nil =>
      refine ⟨m, h, .refl _ _, ?_, fun e => nomatch e⟩
      simp [putconfPump]
      omega
  | cons c chunks ih =>
      obtain ⟨o, p⟩ := c
      have hpart : p.take (min p.length bleft) = p.take bleft := by
        rw [Nat.min_comm, ← List.take_eq_take_min]
      rw [putconfPump, hpart]
      -- an empty chunk is not written
      by_cases hp : p = []
      · subst hp
        have hb' : bleft ≠ 0 := by omega
        simpa [fwrites, hb'] using ih hb h
      · have hne : p.take bleft ≠ [] := by
          simp only [ne_eq, List.take_eq_nil_iff, not_or]
          exact ⟨by omega, hp⟩
        simp only [if_neg hne, fwrites, List.map_cons, List.flatten_cons, List.length_append,
          List.forall_mem_append, List.forall_mem_singleton]
        have h₁ := h.fwrite o (p.take bleft)
        have hs := h.same_fwrite configFile_ne_confTmp o (p.take bleft)
        split
        · rename_i hn
          -- a short write ends the upload
          refine ⟨_, h₁, hs, iff_of_false (fun e => nomatch e) fun ⟨_, hw, _⟩ => hn ?_,
            fun e => nomatch e⟩
          exact Nat.min_eq_right hw
        · rename_i hn
          have htaken : (p.take bleft).length ≤ o.taken := by
            have hmin : min o.taken (p.take bleft).length = (p.take bleft).length := not_not.mp hn
            omega
          rw [List.take_of_length_le htaken] at h₁
          have hlen := List.length_take (i := bleft) (l := p)
          split
          · rename_i hlast
            -- the last chunk: what it has behind the payload is not written
            have hle : bleft ≤ p.length := by omega
            refine ⟨_, h₁, hs, iff_of_true rfl ⟨by omega, htaken, ?_⟩, fun _ => ⟨?_, ?_⟩⟩
            · rw [hlast, fwrites_zero]
              exact List.forall_mem_nil _
            · rw [List.take_append_of_le_length hle]
            · rw [hlast, fwrites_zero, List.append_nil, Stdio.length_buf_fwrite,
                Nat.min_eq_right htaken]
              rfl
          · rename_i hmore
            have hall : (p.take bleft).length = p.length := by omega
            have hpb : p.length ≤ bleft := by omega
            have hpos : 0 < bleft - (p.take bleft).length := by omega
            -- more is due
            obtain ⟨m', h₂, hs₂, hiff, hdone⟩ := ih hpos h₁
            refine ⟨m', h₂, hs.trans hs₂, hiff.trans ?_, fun e => ?_⟩
            · exact ⟨fun ⟨a, b⟩ => ⟨by omega, htaken, b⟩, fun ⟨a, _, b⟩ => ⟨by omega, b⟩⟩
            · obtain ⟨rfl, hbuf⟩ := hdone e
              refine ⟨?_, hbuf.trans ?_⟩
              · rw [List.take_append, List.append_assoc, hall]
              · rw [Stdio.length_buf_fwrite, Nat.min_eq_right htaken]
                rfl

/-- `config_load` after the upload. -/
theorem configLoadFile_read {o : UploadCalls} {buf : ℕ → Byte} {c : ConfSource} {w : List Byte}
    (h : fs.read configFile = some w) :
    (configLoadFile o.loaded o.save buf c fs).read configFile =
      some ((overwrites o buf c).getD w) := by
  unfold configLoadFile overwrites
  cases o.loaded with
  | true => exact h
  | false =>
      simp only [Bool.false_eq_true, if_false]
      rcases configSaveFile_spec o.save buf c.cleared fs with ⟨t, ht, -, -, hread⟩ | ⟨ht, -, hsame⟩
      · rw [ht, hread, Option.getD_some]
      · rw [ht, hsame.read, h, Option.getD_none]

/-- An upload leaves the file alone unless it is installed.  If it is, the file is what `fclose`
left, or the defaults. -/
theorem putconf_spec (o : UploadCalls) (size : ℕ) (buf : ℕ → Byte) (c : ConfSource) (fs : Disk) :
    (¬Installed o size ∧ okReloaded ∉ (putconf o size buf c fs).1 ∧
        Fs.Same configFile fs (putconf o size buf c fs).2) ∨
      (Installed o size ∧ okReloaded ∈ (putconf o size buf c fs).1 ∧ ∃ m w,
        uploadText size o.chunks = some m ∧
        (w = m ↔ ∀ j, o.closed = some j → unwritten (fwrites o.chunks size) 0 ≤ j) ∧
        (putconf o size buf c fs).2.read configFile = some ((overwrites o buf c).getD w)) := by
  unfold putconf
  split
  · rename_i hsize
    refine .inl ⟨fun h => ?_,
      (by decide : okReloaded ∉ [lit "bad size\r\nCMD_ERR\r\n"]), .refl _ _⟩
    rcases hsize with h0 | hbig
    · exact h.pos.ne' h0
    · exact absurd h.bound (by omega)
  · rename_i hsize
    split
    · rename_i ho
      exact .inl ⟨fun h => by simp [h.opened] at ho,
        (by decide : okReloaded ∉ [lit "open failed\r\nCMD_ERR\r\n"]), .refl _ _⟩
    · rename_i ho
      have hs₀ : Fs.Same configFile fs (Stdio.fopenW confTmp fs).2 :=
        Fs.same_openW configFile_ne_confTmp
      -- what the loop has written lies in `confTmp`; the configuration is as it was
      obtain ⟨m, h₁, hs₁, hiff, hdone⟩ :=
        @pump_spec _ o.chunks size (by omega) _ _ (Stdio.buffered_fopenW confTmp fs) _ rfl
      have hs₂ := (hs₀.trans hs₁).trans (h₁.same_fclose configFile_ne_confTmp o.closed)
      obtain ⟨f, w, hw, hwm⟩ := h₁.fclose o.closed
      simp only
      split
      · rename_i hok
        obtain ⟨hcomplete, htaken⟩ := hiff.mp hok
        obtain ⟨rfl, hbuf⟩ := hdone hok
        unfold putconfFinish
        simp only
        split
        · rename_i hr
          refine .inl ⟨fun h => by simp [h.renamed] at hr,
            (by decide : okReloaded ∉ [lit "OK\r\n", lit "rename failed\r\nCMD_ERR\r\n"]), ?_⟩
          exact hs₂.trans (same_tryUnlink _ configFile_ne_confTmp)
        · rename_i hr
          refine .inr ⟨⟨by omega, by omega, by simpa using ho, hcomplete, htaken, by simpa using hr⟩,
            (by decide : okReloaded ∈ [lit "OK\r\n", okReloaded]), _, w, if_pos hcomplete, ?_, ?_⟩
          · rw [hbuf] at hwm
            exact hwm
          · exact configLoadFile_read (hw.rename configFile_ne_confTmp)
      · rename_i hok
        refine .inl ⟨fun h => hok (hiff.mpr ⟨h.complete, h.taken⟩),
          (by decide : okReloaded ∉ [lit "OK\r\n"]), ?_⟩
        exact hs₂.trans (same_tryUnlink _ configFile_ne_confTmp)

/-- **A new `router.conf` is all or nothing** in every save, and in an upload if and only if one that
is installed lands: `fclose` writes what `fwrite` left in the buffer, and a `config_load` that cannot
open the file does not save defaults over it. -/
theorem replaced_iff (o : SaveCalls) (u : UploadCalls) (size : ℕ) (buf : ℕ → Byte) (c : ConfSource)
    (fs : Disk) :
    Replaces (configSave buf c) fs ((configSaveFile o buf c fs).1 = true)
        (configSaveFile o buf c fs).2 ∧
      (Replaces (uploadText size u.chunks) fs (okReloaded ∈ (putconf u size buf c fs).1)
          (putconf u size buf c fs).2 ↔ (Installed u size → Lands u size buf c)) := by
  constructor
  · rcases configSaveFile_spec o buf c fs with ⟨text, -, ht, -, hread⟩ | ⟨-, hr, hsame⟩
    · exact ⟨.inr ⟨text, ht, hread⟩, fun _ => ⟨text, ht, hread⟩⟩
    · exact ⟨.inl hsame.read, fun e => by simp [hr] at e⟩
  · rcases putconf_spec u size buf c fs with ⟨hi, hsent, hsame⟩ | ⟨hi, hsent, m, w, hm, hw, hread⟩
    · exact iff_of_true ⟨.inl hsame.read, fun e => absurd e hsent⟩ fun e => absurd e hi
    · have hrenewed : Replaces (uploadText size u.chunks) fs
          (okReloaded ∈ (putconf u size buf c fs).1) (putconf u size buf c fs).2 ↔
          (overwrites u buf c).getD w = m := by
        refine ⟨fun h => ?_, fun e => ?_⟩
        · obtain ⟨m', hm', hread'⟩ := h.success hsent
          rw [hm] at hm'
          rw [hread] at hread'
          exact (Option.some.inj hread').trans (Option.some.inj hm').symm
        · have hnew : Renewed (uploadText size u.chunks) (putconf u size buf c fs).2 :=
            ⟨m, hm, hread.trans (congrArg some e)⟩
          exact ⟨.inr hnew, fun _ => hnew⟩
      rw [hrenewed, Lands, hm]
      cases overwrites u buf c with
      | none => exact ⟨fun e _ => hw.mp e, fun h => hw.mpr (h hi)⟩
      | some text => exact ⟨fun e _ => congrArg some e.symm, fun h => (Option.some.inj (h hi)).symm⟩

/-! ### A full disk -/

/-- The calls of an upload of one byte, with room for the name of the file but not for the byte. -/
def fullDisk : UploadCalls where
  opened := true
  chunks := [({ taken := 1, drained := 0 }, [35#8])]
  closed := some 0
  renamed := true
  unlinked := true
  loaded := true
  save :=
    { malloc := true, opened := true, wrote := { taken := 0, drained := 0 }, flushed := none,
      synced := true, closed := none, renamed := true, unlinked := true }

/-- The router of the upload, with a file of one rule. -/
def ruledDisk : Disk := Fs.empty.link configFile (lit "[firewall]\ndrop\n")

/-- A router with nothing to save but its settings. -/
def plainSource : ConfSource where
  cfg := cfgDefault
  rules := []
  routes := []
  ifaces := []
  clz0 := 0
  stack _ := 0
  rules_le := Nat.zero_le _
  routes_le := Nat.zero_le _

/-- **The failure of `fclose` is not noticed**: the upload is renamed to `router.conf` and reloaded,
and the file is empty. -/
theorem upload_truncates :
    uploadText 1 fullDisk.chunks = some [35#8] ∧
      okReloaded ∈ (putconf fullDisk 1 (fun _ => 0) plainSource ruledDisk).1 ∧
      ruledDisk.read configFile = some (lit "[firewall]\ndrop\n") ∧
      (putconf fullDisk 1 (fun _ => 0) plainSource ruledDisk).2.read configFile = some [] ∧
      ¬Replaces (uploadText 1 fullDisk.chunks) ruledDisk
        (okReloaded ∈ (putconf fullDisk 1 (fun _ => 0) plainSource ruledDisk).1)
        (putconf fullDisk 1 (fun _ => 0) plainSource ruledDisk).2 := by
  have hsent : okReloaded ∈ (putconf fullDisk 1 (fun _ => 0) plainSource ruledDisk).1 := by decide
  have hread : (putconf fullDisk 1 (fun _ => 0) plainSource ruledDisk).2.read configFile = some [] :=
    by decide
  refine ⟨rfl, hsent, by decide, hread, fun h => ?_⟩
  obtain ⟨m, hm, hm'⟩ := h.success hsent
  rw [hread] at hm'
  cases hm'
  cases hm

end LinuxRouter
