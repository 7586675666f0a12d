import LinuxRouter.Commands.Rows
import LinuxRouter.Support.Program

/-!
# Model — Buffers

`ipbuf` and `macbuf` of `utils.c`: eight static buffers in rotation, for whoever prints an address.

A thread takes a number, and writes the text into the buffer that the number picks; another `printf`
reads it later.  Writes and reads are byte by byte, and any number of threads are at it at once.  A
buffer is in use from the taking of its number to the end of the `printf`.

The counter is taken with an atomic increment, which is one step.  That at most eight numbers are in
use at a time is nothing the code sees to; it is a condition on the runs (`inTime`).
-/

namespace LinuxRouter

open Text (nul)
open Program (Prog)
open Program.Prog (perform)
open Printf (Brief)

/-- How an address is printed, and the longest text: `sizeof` a buffer is one more. -/
structure Format (α : Type) where
  text : α → List Byte
  longest : ℕ
  brief : ∀ x, Brief longest (text x)

/-- `sizeof` a buffer. -/
def Format.size {α : Type} (F : Format α) : ℕ := F.longest + 1

/-- `g_ipbufs`, with `ip_to_str`. -/
def ipBufs : Format Ip := ⟨ipToStr, 15, brief_ipToStr⟩

/-- `g_macbufs`, with `mac_to_str`. -/
def macBufs : Format Mac := ⟨macToStr, 17, brief_macToStr⟩

/-- The number of buffers. -/
def bufCount : ℕ := 8

/-- The buffers, one behind the other, and the counter; with how many numbers were taken and which of
them are in use, which nobody reads. -/
structure Bufs where
  mem : ℕ → Byte
  idx : CInt
  taken : ℕ
  used : List ℕ

inductive BufCmd (α : Type) : Type → Type where
  | next : BufCmd α (List α)
  | take : BufCmd α ℕ
  | put (a : ℕ) (b : Byte) : BufCmd α Unit
  | get (a : ℕ) : BufCmd α Byte
  | printed (is : List ℕ) (xs : List α) (texts : List (List Byte)) : BufCmd α Unit

/-- The answer and effect of a command.  What is to be printed next comes from outside. -/
def execBuf {α : Type} : ∀ ⦃β : Type⦄, BufCmd α β → List α → Bufs → β × Bufs
  | _, .next, e, s => (e, s)
  | _, .take, _, s =>
      ((s.idx &&& 7).toBitVec.toNat,
        { s with idx := s.idx + 1, taken := s.taken + 1, used := s.taken :: s.used })
  | _, .put a b, _, s => ((), { s with mem := Function.update s.mem a b })
  | _, .get a, _, s => (s.mem a, s)
  | _, .printed is _ _, _, s => ((), { s with used := s.used.filter fun k => k % bufCount ∉ is })

abbrev BufAct (α β : Type) := Prog (BufCmd α) β

variable {α : Type}

/-- The writes of `snprintf`. -/
def putAll : ℕ → List Byte → BufAct α Unit
  | _, [] => pure ()
  | a, b :: bs => do
    perform (.put a b)
    putAll (a + 1) bs

/-- `ipbuf`, or `macbuf`: which buffer it returns. -/
def Format.buf (F : Format α) (x : α) : BufAct α ℕ := do
  let i ← perform .take
  putAll (i * F.size) ((F.text x).take F.longest ++ [nul])
  pure i

/-- A string, as `%s` reads it; `n` bytes are left of the buffers. -/
def getStr : ℕ → ℕ → BufAct α (List Byte)
  | 0, _ => pure []
  | n + 1, a => do
    let b ← perform (.get a)
    if b = nul then pure []
    else
      let s ← getStr n (a + 1)
      pure (b :: s)

/-- The arguments of a `printf`. -/
def Format.args (F : Format α) : List α → BufAct α (List ℕ)
  | [] => pure []
  | x :: xs => do
    let i ← F.buf x
    let is ← F.args xs
    pure (i :: is)

/-- What it prints of them. -/
def Format.strings (F : Format α) : List ℕ → BufAct α (List (List Byte))
  | [] => pure []
  | i :: is => do
    let s ← getStr ((bufCount - i) * F.size) (i * F.size)
    let texts ← F.strings is
    pure (s :: texts)

/-- A `printf` of some addresses. -/
def Format.print (F : Format α) : BufAct α (Option Unit) := do
  let xs ← perform .next
  let is ← F.args xs
  let texts ← F.strings is
  perform (.printed is xs texts)
  pure (some ())

/-- The threads of the router.  A thread's ghost value is the numbers that it has in use. -/
def Format.bufs (F : Format α) : Program.System (BufCmd α) (List α) Bufs (List ℕ) ℕ Unit where
  exec := execBuf
  hold _ c s _ ks :=
    match c with
    | .take => ks ++ [s.taken]
    | .printed _ _ _ => []
    | _ => ks
  body _ _ := F.print
  admin _ _ := False

/-- A number is taken only when the eighth before it is not in use any more. -/
def inTime {α : Type} : ∀ ⦃β : Type⦄, ℕ → BufCmd α β → List α → Bufs → Prop
  | _, _, .take, _, s => ∀ k ∈ s.used, s.taken ≠ k + bufCount
  | _, _, _, _, _ => True

/-- Before anything is printed. -/
def Bufs.start (mem : ℕ → Byte) : Bufs where
  mem := mem
  idx := 0
  taken := 0
  used := []

end LinuxRouter
