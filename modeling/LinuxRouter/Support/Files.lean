import Mathlib.Logic.Function.Basic
import LinuxRouter.Support.Text

/-!
# Support — Files

Files as POSIX has them: names that point to files, the contents of the files, and open files with
an offset each.  A name can come to point to another file while the first one is open.  There are
no hard links: a file has one name or none.

* `openW` is `open` with `O_WRONLY | O_CREAT | O_TRUNC`: the file of that name is emptied, for
  whoever else has it open too.
* `write` puts bytes at the offset of an open file; `rename` and `unlink` change names only.
* `Writing` says that an open file holds what was written through it, and its name points to it;
  `Writing.write` and `Writing.rename` are its two uses.
* `Same` says that a name keeps its file and the file its content; the calls on other names do that.
* `Away` says that a file has none of some names; it gets none as long as these names only pass files
  on to each other, or get new ones (`Grown`).
-/

namespace Files

open Text (Byte)

/-- The names, the contents, and the first number that no file has had. -/
structure Fs (N : Type) where
  entry : N → Option ℕ
  data : ℕ → List Byte
  fresh : ℕ
  inj : ∀ a b i, entry a = some i → entry b = some i → a = b
  old : ∀ a i, entry a = some i → i < fresh

/-- An open file. -/
structure File where
  ino : ℕ
  pos : ℕ
  deriving DecidableEq

/-- Bytes written at an offset; a gap is filled with zeros.  A write of no bytes does nothing. -/
def splice (old : List Byte) (pos : ℕ) (s : List Byte) : List Byte :=
  if s = [] then old
  else old.take pos ++ List.replicate (pos - old.length) 0 ++ s ++ old.drop (pos + s.length)

theorem splice_end (old s : List Byte) : splice old old.length s = old ++ s := by
  have h : old.drop (old.length + s.length) = [] := List.drop_eq_nil_of_le (by omega)
  unfold splice
  split
  · rename_i hs
    rw [hs, List.append_nil]
  · simp [h]

/-- Bytes written in two parts, the second after the first. -/
theorem splice_append (old : List Byte) (pos : ℕ) (s t : List Byte) :
    splice (splice old pos s) (pos + s.length) t = splice old pos (s ++ t) := by
  by_cases hs : s = []
  · have hnone : splice old pos [] = old := if_pos rfl
    rw [hs, hnone, List.length_nil, Nat.add_zero, List.nil_append]
  by_cases ht : t = []
  · rw [ht, List.append_nil]
    exact if_pos rfl
  have hfront : (old.take pos ++ List.replicate (pos - old.length) 0 ++ s).length = pos + s.length := by
    simp only [List.length_append, List.length_take, List.length_replicate]
    omega
  have hgap : pos + s.length - (old.take pos ++ List.replicate (pos - old.length) 0 ++ s ++
      old.drop (pos + s.length)).length = 0 := by
    rw [List.length_append, hfront]
    omega
  have hrest : (old.take pos ++ List.replicate (pos - old.length) 0 ++ s ++
      old.drop (pos + s.length)).drop (pos + s.length + t.length) =
      old.drop (pos + (s ++ t).length) := by
    rw [← List.drop_drop, ← hfront, List.drop_left, hfront, List.drop_drop, List.length_append,
      Nat.add_assoc]
  rw [splice, if_neg ht, splice, if_neg hs, hrest, hgap, ← hfront, List.take_left, splice,
    if_neg (by simp [hs])]
  simp only [List.replicate_zero, List.append_nil, List.append_assoc]

namespace Fs

variable {N : Type} [DecidableEq N]

omit [DecidableEq N] in
/-- No files. -/
def empty : Fs N where
  entry _ := none
  data _ := []
  fresh := 0
  inj _ _ _ h := nomatch h
  old _ _ h := nomatch h

/-- A name for the next file. -/
def link (n : N) (s : List Byte) (fs : Fs N) : Fs N where
  entry := Function.update fs.entry n (some fs.fresh)
  data := Function.update fs.data fs.fresh s
  fresh := fs.fresh + 1
  inj := by
    intro a b i ha hb
    simp only [Function.update_apply] at ha hb
    split at ha <;> split at hb
    · subst_vars
      rfl
    · cases ha
      exact absurd (fs.old b _ hb) (lt_irrefl _)
    · cases hb
      exact absurd (fs.old a _ ha) (lt_irrefl _)
    · exact fs.inj a b i ha hb
  old := by
    intro a i ha
    simp only [Function.update_apply] at ha
    split at ha
    · cases ha
      exact Nat.lt_succ_self _
    · exact (fs.old a i ha).trans (Nat.lt_succ_self _)

/-- Open for writing: the file is created or emptied. -/
def openW (n : N) (fs : Fs N) : File × Fs N :=
  match fs.entry n with
  | some i => ({ ino := i, pos := 0 }, { fs with data := Function.update fs.data i [] })
  | none => ({ ino := fs.fresh, pos := 0 }, fs.link n [])

/-- Write to an open file. -/
def write (f : File) (s : List Byte) (fs : Fs N) : File × Fs N :=
  ({ f with pos := f.pos + s.length },
    { fs with data := Function.update fs.data f.ino (splice (fs.data f.ino) f.pos s) })

omit [DecidableEq N] in
theorem write_append (f : File) (s t : List Byte) (fs : Fs N) :
    (fs.write f s).2.write (fs.write f s).1 t = fs.write f (s ++ t) := by
  have hdata : splice (Function.update fs.data f.ino (splice (fs.data f.ino) f.pos s) f.ino)
      (f.pos + s.length) t = splice (fs.data f.ino) f.pos (s ++ t) := by
    rw [Function.update_self, splice_append]
  simp only [write, hdata, Function.update_idem, List.length_append, Nat.add_assoc]

theorem entry_unlink {entry : N → Option ℕ} {a c : N} {i : ℕ}
    (h : Function.update entry a none c = some i) : c ≠ a ∧ entry c = some i := by
  by_cases e : c = a
  · rw [e, Function.update_self] at h
    cases h
  · rw [Function.update_of_ne e] at h
    exact ⟨e, h⟩

def unlink (a : N) (fs : Fs N) : Fs N where
  entry := Function.update fs.entry a none
  data := fs.data
  fresh := fs.fresh
  inj c d i hc hd := fs.inj c d i (entry_unlink hc).2 (entry_unlink hd).2
  old c i hc := fs.old c i (entry_unlink hc).2

/-- The name `b` for the file of the name `a`. -/
def rename (a b : N) (fs : Fs N) : Fs N where
  entry := Function.update (Function.update fs.entry b (fs.entry a)) a none
  data := fs.data
  fresh := fs.fresh
  inj := by
    intro c d i hc hd
    obtain ⟨hca, hc⟩ := entry_unlink hc
    obtain ⟨hda, hd⟩ := entry_unlink hd
    simp only [Function.update_apply] at hc hd
    split at hc <;> split at hd
    · subst_vars
      rfl
    · exact absurd (fs.inj _ _ _ hc hd).symm hda
    · exact absurd (fs.inj _ _ _ hd hc).symm hca
    · exact fs.inj c d i hc hd
  old := by
    intro c i hc
    obtain ⟨-, hc⟩ := entry_unlink hc
    simp only [Function.update_apply] at hc
    split at hc <;> exact fs.old _ _ hc

def read (a : N) (fs : Fs N) : Option (List Byte) := (fs.entry a).map fs.data

/-- The name points to the open file, which holds what was written through it. -/
structure Writing (fs : Fs N) (n : N) (f : File) (s : List Byte) : Prop where
  entry : fs.entry n = some f.ino
  data : fs.data f.ino = s
  pos : f.pos = s.length

variable {fs : Fs N} {a b n : N} {f : File} {s : List Byte}

theorem writing_openW (n : N) (fs : Fs N) : (fs.openW n).2.Writing n (fs.openW n).1 [] := by
  unfold openW
  cases hn : fs.entry n with
  | some i => exact ⟨hn, Function.update_self .., rfl⟩
  | none => exact ⟨Function.update_self .., Function.update_self .., rfl⟩

omit [DecidableEq N] in
theorem Writing.write (h : fs.Writing n f s) (t : List Byte) :
    (fs.write f t).2.Writing n (fs.write f t).1 (s ++ t) := by
  refine ⟨h.entry, ?_, ?_⟩
  · have : splice (fs.data f.ino) f.pos t = s ++ t := by
      rw [h.data, h.pos, splice_end]
    simp only [Fs.write, Function.update_self, this]
  · simp only [Fs.write, h.pos, List.length_append]

/-- Renamed, it is the content of the new name. -/
theorem Writing.rename (h : fs.Writing n f s) (hb : b ≠ n) : (fs.rename n b).read b = some s := by
  simp only [read, Fs.rename, Function.update_of_ne hb, Function.update_self, h.entry,
    Option.map_some, h.data]

theorem read_link_self (n : N) (s : List Byte) : (fs.link n s).read n = some s := by
  simp [read, link]

/-- A name that is not there any more. -/
theorem read_rename_self (a b : N) : (fs.rename a b).read a = none := by
  simp [read, rename]

/-! ### What stays -/

/-- The name points to the same file, with the same content. -/
structure Same (b : N) (fs fs' : Fs N) : Prop where
  entry : fs'.entry b = fs.entry b
  read : fs'.read b = fs.read b

omit [DecidableEq N] in
theorem Same.refl (b : N) (fs : Fs N) : Same b fs fs := ⟨rfl, rfl⟩

omit [DecidableEq N] in
theorem Same.trans {fs' fs'' : Fs N} (h : Same b fs fs') (h' : Same b fs' fs'') : Same b fs fs'' :=
  ⟨h'.entry.trans h.entry, h'.read.trans h.read⟩

omit [DecidableEq N] in
/-- A change of the contents of other files. -/
theorem Same.of_data {fs' : Fs N} (he : fs'.entry b = fs.entry b)
    (hd : ∀ j, fs.entry b = some j → fs'.data j = fs.data j) : Same b fs fs' := by
  refine ⟨he, ?_⟩
  cases hb : fs.entry b with
  | none => simp [Fs.read, he, hb]
  | some j => simp [Fs.read, he, hb, hd j hb]

theorem same_link (s : List Byte) (hb : b ≠ n) : Same b fs (fs.link n s) :=
  .of_data (Function.update_of_ne hb ..) fun j hj =>
    Function.update_of_ne (fs.old b j hj).ne ..

theorem same_openW (hb : b ≠ n) : Same b fs (fs.openW n).2 := by
  unfold openW
  cases hn : fs.entry n with
  | none => exact same_link [] hb
  | some i =>
      refine .of_data rfl fun j hj => Function.update_of_ne ?_ ..
      exact fun e => hb (fs.inj b n i (e ▸ hj) hn)

omit [DecidableEq N] in
theorem same_write (he : fs.entry n = some f.ino) (hb : b ≠ n) (t : List Byte) :
    Same b fs (fs.write f t).2 := by
  refine .of_data rfl fun j hj => Function.update_of_ne ?_ ..
  exact fun e => hb (fs.inj b n _ (e ▸ hj) he)

theorem same_unlink (hb : b ≠ n) : Same b fs (fs.unlink n) :=
  .of_data (Function.update_of_ne hb ..) fun _ _ => rfl

theorem same_rename (ha : b ≠ a) (hn : b ≠ n) : Same b fs (fs.rename a n) :=
  .of_data ((Function.update_of_ne ha ..).trans (Function.update_of_ne hn ..)) fun _ _ => rfl

omit [DecidableEq N] in
/-- A write to a file without that name. -/
theorem same_write_away (hb : fs.entry b ≠ some f.ino) (t : List Byte) :
    Same b fs (fs.write f t).2 := by
  refine .of_data rfl fun j hj => Function.update_of_ne ?_ ..
  rintro rfl
  exact hb hj

omit [DecidableEq N] in
/-- What is written through an open file stays. -/
theorem Same.writing {fs' : Fs N} (h : Same n fs fs') (hw : fs.Writing n f s) : fs'.Writing n f s := by
  have he : fs'.entry n = some f.ino := h.entry.trans hw.entry
  have hr := h.read
  simp only [Fs.read, he, hw.entry, Option.map_some, Option.some.injEq] at hr
  exact ⟨he, hr.trans hw.data, hw.pos⟩

/-! ### Whose file it is -/

/-- The files with a name of `S` had one before, or are new. -/
structure Grown (S : N → Prop) (fs fs' : Fs N) : Prop where
  fresh : fs.fresh ≤ fs'.fresh
  entry : ∀ a, S a → ∀ i, fs'.entry a = some i → fs.fresh ≤ i ∨ ∃ c, S c ∧ fs.entry c = some i

/-- A file without a name of `S`. -/
def Away (S : N → Prop) (i : ℕ) (fs : Fs N) : Prop := i < fs.fresh ∧ ∀ a, S a → fs.entry a ≠ some i

variable {S : N → Prop} {fs' fs'' : Fs N} {i : ℕ}

omit [DecidableEq N] in
theorem Grown.of_entry (he : fs'.entry = fs.entry) (hf : fs'.fresh = fs.fresh) : Grown S fs fs' :=
  ⟨hf.ge, fun a ha _ hi => .inr ⟨a, ha, he ▸ hi⟩⟩

omit [DecidableEq N] in
theorem Grown.trans (h : Grown S fs fs') (h' : Grown S fs' fs'') : Grown S fs fs'' := by
  refine ⟨h.fresh.trans h'.fresh, fun a ha i hi => ?_⟩
  rcases h'.entry a ha i hi with hle | ⟨c, hc, hi⟩
  · exact .inl (h.fresh.trans hle)
  · exact h.entry c hc i hi

omit [DecidableEq N] in
/-- It gets no such name. -/
theorem Grown.away (h : Grown S fs fs') (ha : Away S i fs) : Away S i fs' := by
  refine ⟨ha.1.trans_le h.fresh, fun a hS hi => ?_⟩
  rcases h.entry a hS i hi with hle | ⟨c, hc, hi⟩
  · exact absurd ha.1 (not_lt.mpr hle)
  · exact ha.2 c hc hi

theorem grown_link (n : N) (s : List Byte) (fs : Fs N) : Grown S fs (fs.link n s) := by
  refine ⟨Nat.le_succ _, fun a ha i hi => ?_⟩
  simp only [link, Function.update_apply] at hi
  split at hi
  · cases hi
    exact .inl le_rfl
  · exact .inr ⟨a, ha, hi⟩

theorem grown_openW (n : N) (fs : Fs N) : Grown S fs (fs.openW n).2 := by
  unfold openW
  cases fs.entry n with
  | some i => exact .of_entry rfl rfl
  | none => exact grown_link n [] fs

theorem grown_unlink (n : N) (fs : Fs N) : Grown S fs (fs.unlink n) :=
  ⟨le_rfl, fun a ha _ hi => .inr ⟨a, ha, (entry_unlink hi).2⟩⟩

theorem grown_rename (h : S b → S a) : Grown S fs (fs.rename a b) := by
  refine ⟨le_rfl, fun c hc i hi => .inr ?_⟩
  have hi := (entry_unlink hi).2
  simp only [Function.update_apply] at hi
  split at hi
  · rename_i e
    exact ⟨a, h (e ▸ hc), hi⟩
  · exact ⟨c, hc, hi⟩

/-- A file that is opened by another name. -/
theorem away_openW (hn : ¬ S n) : Away S (fs.openW n).1.ino (fs.openW n).2 := by
  have hw := writing_openW n fs
  refine ⟨(fs.openW n).2.old n _ hw.entry, fun a ha hi => hn ?_⟩
  exact (fs.openW n).2.inj a n _ hi hw.entry ▸ ha

end Fs

end Files
