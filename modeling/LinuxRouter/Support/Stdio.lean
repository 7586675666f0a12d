import LinuxRouter.Support.Files

/-!
# Support — Stdio

Buffered streams over `Files`, as the C library has them.

A stream holds bytes that it took and has not written yet.  Every call may write some of them; the
outside world says how many, and whether a call that has to write all of them does.

* `fwrite` returns how many bytes it took.  They are in the file or in the buffer.
* `fflush` and `fclose` write what is in the buffer; if they fail, a part of it.
* `Buffered` says what a stream took, and that its name points to its file.  `Buffered.fwrite`,
  `Buffered.fflush` and `Buffered.fclose` are its uses; all three leave the other names alone.
-/

namespace Stdio

open Text (Byte)
open Files (Fs File)

/-- An open stream. -/
structure Stream where
  file : File
  buf : List Byte
  deriving DecidableEq

/-- How many bytes an `fwrite` takes, and how many of the buffer then go to the file. -/
structure Written where
  taken : ℕ
  drained : ℕ

/-- An `fwrite` that takes so many bytes, if of all that a stream has taken `settled` are then in the
file. -/
def Stream.settling (settled : ℕ → ℕ) (s : Stream) (taken : ℕ) : Written where
  taken := taken
  drained := settled (s.file.pos + s.buf.length + taken) - s.file.pos

variable {N : Type}

/-- The first bytes of the buffer go to the file. -/
def drain (n : ℕ) (s : Stream) (fs : Fs N) : Stream × Fs N :=
  let r := fs.write s.file (s.buf.take n)
  ({ file := r.1, buf := s.buf.drop n }, r.2)

/-- `fwrite(p, 1, n, fp)`: how many bytes it took. -/
def fwrite (o : Written) (p : List Byte) (s : Stream) (fs : Fs N) : ℕ × Stream × Fs N :=
  (min o.taken p.length, drain o.drained { s with buf := s.buf ++ p.take o.taken } fs)

/-- `fflush`: whether it returned 0.  If it did not, `o` is how many bytes it wrote. -/
def fflush (o : Option ℕ) (s : Stream) (fs : Fs N) : Bool × Stream × Fs N :=
  (o.isNone, drain (o.getD s.buf.length) s fs)

/-- `fclose`, which flushes. -/
def fclose (o : Option ℕ) (s : Stream) (fs : Fs N) : Bool × Fs N :=
  let r := fflush o s fs
  (r.1, r.2.2)

/-- `fopen(name, "w")`, if it succeeds. -/
def fopenW [DecidableEq N] (n : N) (fs : Fs N) : Stream × Fs N :=
  let r := fs.openW n
  ({ file := r.1, buf := [] }, r.2)

/-- The name points to the file of the stream, which took the bytes `m`. -/
def Buffered (fs : Fs N) (n : N) (s : Stream) (m : List Byte) : Prop :=
  ∃ w, fs.Writing n s.file w ∧ w ++ s.buf = m

variable {fs : Fs N} {a n : N} {s : Stream} {m p : List Byte} {k : ℕ}

theorem buffered_fopenW [DecidableEq N] (n : N) (fs : Fs N) :
    Buffered (fopenW n fs).2 n (fopenW n fs).1 [] :=
  ⟨[], Fs.writing_openW n fs, rfl⟩

namespace Buffered

theorem drain (h : Buffered fs n s m) (k : ℕ) :
    Buffered (drain k s fs).2 n (drain k s fs).1 m := by
  obtain ⟨w, hw, rfl⟩ := h
  refine ⟨w ++ s.buf.take k, hw.write (s.buf.take k), ?_⟩
  rw [Stdio.drain, List.append_assoc, List.take_append_drop]

/-- What `fwrite` took is in the file or in the buffer. -/
theorem fwrite (h : Buffered fs n s m) (o : Written) (p : List Byte) :
    Buffered (fwrite o p s fs).2.2 n (fwrite o p s fs).2.1 (m ++ p.take o.taken) := by
  obtain ⟨w, hw, rfl⟩ := h
  have h' : Buffered fs n { s with buf := s.buf ++ p.take o.taken } (w ++ s.buf ++ p.take o.taken) :=
    ⟨w, hw, (List.append_assoc ..).symm⟩
  exact h'.drain o.drained

theorem fflush (h : Buffered fs n s m) (o : Option ℕ) :
    Buffered (fflush o s fs).2.2 n (fflush o s fs).2.1 m :=
  h.drain _

/-- The calls on the stream leave the other names. -/
theorem same_drain (h : Buffered fs n s m) (ha : a ≠ n) (k : ℕ) :
    Fs.Same a fs (Stdio.drain k s fs).2 := by
  obtain ⟨w, hw, -⟩ := h
  exact Fs.same_write hw.entry ha _

theorem same_fwrite (h : Buffered fs n s m) (ha : a ≠ n) (o : Written) (p : List Byte) :
    Fs.Same a fs (Stdio.fwrite o p s fs).2.2 := by
  obtain ⟨w, hw, -⟩ := h
  exact Fs.same_write hw.entry ha _

theorem same_fclose (h : Buffered fs n s m) (ha : a ≠ n) (o : Option ℕ) :
    Fs.Same a fs (Stdio.fclose o s fs).2 :=
  h.same_drain ha _

/-- What is in the file after `fclose`: everything but what is left in the buffer. -/
theorem fclose (h : Buffered fs n s m) (o : Option ℕ) :
    ∃ f w, (fclose o s fs).2.Writing n f w ∧
      (w = m ↔ ∀ j, o = some j → s.buf.length ≤ j) := by
  obtain ⟨w, hw, rfl⟩ := h
  refine ⟨_, _, hw.write (s.buf.take (o.getD s.buf.length)), ?_⟩
  rw [List.append_cancel_left_eq]
  cases o with
  | none => simp
  | some j =>
      refine ⟨fun e k hk => ?_, fun h => List.take_of_length_le (h j rfl)⟩
      cases hk
      have hl : (s.buf.take j).length = s.buf.length := congrArg List.length e
      rw [List.length_take] at hl
      omega

end Buffered

/-! ### Two writes and one -/

theorem drain_congr {j : ℕ} (h : min j s.buf.length = min k s.buf.length) :
    drain j s fs = drain k s fs := by
  have ht : s.buf.take j = s.buf.take k := List.take_eq_take_iff.mpr h
  have hsplit : s.buf.take k ++ s.buf.drop j = s.buf.take k ++ s.buf.drop k := by
    rw [List.take_append_drop, ← ht, List.take_append_drop]
  have hd : s.buf.drop j = s.buf.drop k := List.append_cancel_left hsplit
  rw [drain, drain, ht, hd]

/-- More bytes for the buffer, after a part of it went to the file. -/
theorem drain_append {j : ℕ} (hj : j ≤ s.buf.length) (p : List Byte) :
    drain k { (drain j s fs).1 with buf := (drain j s fs).1.buf ++ p } (drain j s fs).2 =
      drain (j + k) { s with buf := s.buf ++ p } fs := by
  have hdrop : s.buf.drop j ++ p = (s.buf ++ p).drop j := (List.drop_append_of_le_length hj).symm
  have htake : s.buf.take j = (s.buf ++ p).take j := (List.take_append_of_le_length hj).symm
  simp only [drain, Fs.write_append, hdrop, htake, List.drop_drop, List.take_add]

/-- An `fwrite` that takes all it is given. -/
theorem fwrite_settling (settled : ℕ → ℕ) (p : List Byte) (s : Stream) (fs : Fs N) :
    fwrite (s.settling settled p.length) p s fs =
      (p.length, drain (settled (s.file.pos + s.buf.length + p.length) - s.file.pos)
        { s with buf := s.buf ++ p } fs) := by
  simp [fwrite, Stream.settling]

/-- **A write may be cut in two**, if what is in the file depends only on how much the stream has
taken, and never shrinks: the first drain is then a part of the second. -/
theorem fwrite_append {settled : ℕ → ℕ} (hs : Monotone settled) (p q : List Byte) (s : Stream)
    (fs : Fs N) :
    let r := (fwrite (s.settling settled p.length) p s fs).2
    (fwrite (s.settling settled (p ++ q).length) (p ++ q) s fs).2 =
      (fwrite (r.1.settling settled q.length) q r.1 r.2).2 := by
  obtain ⟨t, ht⟩ : ∃ t : Stream, { s with buf := s.buf ++ p } = t := ⟨_, rfl⟩
  have hpos : t.file.pos = s.file.pos := by rw [← ht]
  have hlen : t.buf.length = s.buf.length + p.length := by simp [← ht]
  have happ : { s with buf := s.buf ++ (p ++ q) } = { t with buf := t.buf ++ q } := by simp [← ht]
  simp only [fwrite_settling, ht, happ]
  rw [List.length_append]
  obtain ⟨m, hm⟩ : ∃ m, settled (s.file.pos + s.buf.length + p.length) = m := ⟨_, rfl⟩
  have hle : m ≤ settled (s.file.pos + s.buf.length + (p.length + q.length)) := by
    rw [← hm]
    exact hs (by omega)
  obtain ⟨j, hj, hjm⟩ : ∃ j, j ≤ t.buf.length ∧ j = min (m - s.file.pos) t.buf.length :=
    ⟨_, Nat.min_le_right _ _, rfl⟩
  have hfirst : drain (m - s.file.pos) t fs = drain j t fs := drain_congr (by omega)
  have hfile : (drain j t fs).1.file.pos = s.file.pos + j := by
    simp [drain, Fs.write, hpos, Nat.min_eq_left hj]
  have hbuf : (drain j t fs).1.buf.length = t.buf.length - j := by simp [drain]
  rw [hm, hfirst, drain_append hj, hfile, hbuf]
  have hsum : s.file.pos + j + (t.buf.length - j) + q.length =
      s.file.pos + s.buf.length + (p.length + q.length) := by omega
  rw [hsum]
  refine drain_congr ?_
  congr 1
  omega

/-- How much an `fwrite` leaves in the buffer. -/
theorem length_buf_fwrite (o : Written) (p : List Byte) (s : Stream) (fs : Fs N) :
    (fwrite o p s fs).2.1.buf.length = s.buf.length + min o.taken p.length - o.drained := by
  simp [fwrite, drain]

end Stdio
