import LinuxRouter.Model.Utils

/-!
# Model — Tokens

`tok_split`, in place: the buffer it rewrites and the pointers it hands out, which are indices.
`Utils` has the strings that they point to.

A read behind the buffer has no answer.  Every round of a loop moves the pointer forward, so that the
length of the buffer bounds their number.

The words overlap with the buffer that they are cut from, which is what makes the function hard:
ending a word writes a NUL into the very text that is still to be read, and the loop leaves where
the array is full, before it has ended the last word.  `StringAt` is what C takes for the string at
a pointer, up to the next NUL; by it the pointers can be compared with the words of the line
(`Commands.Tokens`).
-/

namespace LinuxRouter

open Text (isWhite nul)

/-- `while (p(*s)) s++`, at most `n - 1` times. -/
def skipWhile (p : Byte → Bool) (buf : List Byte) : ℕ → ℕ → Option ℕ
  | 0, _ => none
  | n + 1, i => do
    let c ← buf[i]?
    if p c then skipWhile p buf n (i + 1) else some i

/-- The loop over the white bytes before a word. -/
def skipWhite (buf : List Byte) (i : ℕ) : Option ℕ := skipWhile isWhite buf (buf.length + 1) i

/-- The loop over a word. -/
def skipWord (buf : List Byte) (i : ℕ) : Option ℕ :=
  skipWhile (fun c => c != nul && !isWhite c) buf (buf.length + 1) i

/-- The buffer, the array of pointers, whose `NULL` is `none`, and how many there are. -/
structure Tokens where
  buf : List Byte
  argv : ℕ → Option ℕ
  n : ℕ

/-- `argv[n++] = s`. -/
def Tokens.push (i : ℕ) (t : Tokens) : Tokens :=
  { t with argv := Function.update t.argv t.n (some i), n := t.n + 1 }

/-- The loop of `tok_split`. -/
def tokLoop (max : ℕ) : ℕ → ℕ → Tokens → Option Tokens
  | 0, _, _ => none
  | k + 1, i, t => do
    let c ← t.buf[i]?
    if c = nul then some t
    else do
      let i ← skipWhite t.buf i
      let c ← t.buf[i]?
      if c = nul then some t
      else
        let t := t.push i
        if max ≤ t.n then some t
        else do
          let i ← skipWord t.buf i
          let c ← t.buf[i]?
          if c ≠ nul then tokLoop max k (i + 1) { t with buf := t.buf.set i nul }
          else tokLoop max k i t

/-- `tok_split`, on the string that starts the buffer. -/
def tokSplitInPlace (buf : List Byte) (argv : ℕ → Option ℕ) (max : ℕ) : Option Tokens := do
  let t ← tokLoop max (buf.length + 1) 0 { buf, argv, n := 0 }
  if t.n < max then some { t with argv := Function.update t.argv t.n none } else some t

/-- A pointer to a NUL-terminated string. -/
def StringAt (buf : List Byte) (p : ℕ) (w : List Byte) : Prop :=
  nul ∉ w ∧ ∃ tail, buf.drop p = w ++ nul :: tail

end LinuxRouter
