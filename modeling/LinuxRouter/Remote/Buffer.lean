import LinuxRouter.Remote.Parts

/-!
# Remote — a connection and its buffer

What a connection does with a line, or with a part of a payload, has nothing to do with the rest of
its buffer, nor with the piece of the stream that it received last.

* `handleLine_rel`: what is to be shown of a line, for two connections with the same `authed`.
* `Deaf`: programs that receive nothing.  All of a turn is, after its `recv`.
* `Conn.hold`: another buffer; `handleLine_hold`, `binWrite_hold`, `binFinish_hold`.
* `pumpBinary_pay`: `conn_pump` with a part of a payload (`payStep`), and then with what follows it.

That a part of a program does not look at the buffer is stated as an equation: run with another
buffer, it is the same program, and the buffer is put back at the end.  Each function has such an
equation, proved along its branches.  A turn is then a `recv`, after which nothing more is received
(`Deaf`), and a program on the connection with the new bytes behind its buffer; what is left over is
carried to the next turn unseen.
-/

namespace LinuxRouter

open Text (lit nl)
open Program (Prog)

/-! ### A line -/

/-- **What a line does**, for two connections: it is to be shown of each of the things it may do. -/
theorem handleLine_rel {P : MAct Conn → MAct Conn → Prop} {c d : Conn} (ha : d.authed = c.authed)
    (hret : P (.ret c) (.ret d))
    (hsend : ∀ t, P (sendStr t >>= fun _ => .ret c) (sendStr t >>= fun _ => .ret d))
    (hauth : ∀ args, P (handleAuth c args) (handleAuth d args))
    (hget : P (handleGetconf c) (handleGetconf d))
    (hcmd : ∀ line, P (handleCommand c line) (handleCommand d line))
    (hput : ∀ arg, P (handlePutconf c arg) (handlePutconf d arg))
    (hup : ∀ arg sha, P (handleUpgrade c arg sha) (handleUpgrade d arg sha)) (line : List Byte) :
    P (handleLine c line) (handleLine d line) := by
  unfold handleLine
  split
  · exact hsend _
  · split
    · exact hret
    · rename_i tok args _
      dsimp only
      split
      · exact hauth args
      · rw [ha]
        split
        · exact hsend _
        · unfold handleAuthed
          split
          · exact hget
          · cases args with
            | nil => exact hcmd _
            | cons arg args =>
                dsimp only
                split
                · exact hput arg
                · cases args with
                  | nil => exact hcmd _
                  | cons sha args =>
                      dsimp only
                      split
                      · exact hup arg sha
                      · exact hcmd _

/-! ### Programs that do not receive -/

/-- The command asks the peer for bytes. -/
def MCmd.asks {β : Type} : MCmd β → Bool
  | .recv _ => true
  | _ => false

/-- A program that asks for none. -/
abbrev Deaf {α : Type} (p : MAct α) : Prop := p.Every fun _ c => c.asks = false

theorem handleAuth_deaf (c : Conn) (args : List (List Byte)) : Deaf (handleAuth c args) := by
  refine Prog.every_step rfl fun pw => ?_
  split
  · exact Prog.every_step rfl fun _ => Prog.every_step rfl fun _ => trivial
  · split
    · exact Prog.every_step rfl fun _ => trivial
    · refine Prog.every_step rfl fun pw => ?_
      split
      · exact Prog.every_step rfl fun _ => Prog.every_step rfl fun _ => trivial
      · exact Prog.every_step rfl fun _ => trivial

/-- `putconf` asks for none: its payload comes by the loop. -/
theorem handlePutconf_deaf (c : Conn) (arg : List Byte) : Deaf (handlePutconf c arg) := by
  unfold handlePutconf
  dsimp only
  split
  · exact Prog.every_step rfl fun _ => trivial
  · refine Prog.every_step rfl fun f => ?_
    cases f with
    | none => exact Prog.every_step rfl fun _ => trivial
    | some f => exact Prog.every_step rfl fun _ => Prog.every_step rfl fun _ => trivial

theorem handleUpgrade_deaf (c : Conn) (arg sha : List Byte) : Deaf (handleUpgrade c arg sha) := by
  refine Prog.every_step rfl fun err => ?_
  cases err with
  | some err => exact Prog.every_step rfl fun _ => trivial
  | none => exact Prog.every_step rfl fun _ => Prog.every_step rfl fun _ => trivial

theorem handleLine_deaf (c : Conn) (line : List Byte) : Deaf (handleLine c line) := by
  refine handleLine_rel (P := fun p _ => Deaf p) (d := c) rfl ?_ ?_ ?_ ?_ ?_ ?_ ?_ line
  · trivial
  · exact fun t => Prog.every_step rfl fun _ => trivial
  · exact handleAuth_deaf c
  · exact Prog.every_step rfl fun _ => Prog.every_step rfl fun _ =>
      Prog.every_step rfl fun _ => Prog.every_step rfl fun _ => trivial
  · exact fun _ => Prog.every_step rfl fun _ => Prog.every_step rfl fun _ =>
      Prog.every_step rfl fun _ => trivial
  · exact handlePutconf_deaf c
  · exact handleUpgrade_deaf c

theorem processLinesFrom_deaf (n : ℕ) (c : Conn) : Deaf (processLinesFrom n c) := by
  induction n generalizing c with
  | zero => trivial
  | succ n ih =>
      unfold processLinesFrom
      split
      · refine Prog.every_step rfl fun _ => (handleLine_deaf c _).bind fun d => ?_
        dsimp only
        split
        · trivial
        · exact ih _
      · trivial

/-- Nor does a part of a payload. -/
theorem binWrite_deaf (c : Conn) (p : List Byte) : Deaf (binWrite c p) := by
  refine Prog.every_step rfl fun _ => ?_
  split
  · exact Prog.every_step rfl fun _ => trivial
  · trivial
  · refine Prog.every_step rfl fun err => ?_
    cases err with
    | none => trivial
    | some err => exact Prog.every_step rfl fun _ => trivial
  · trivial

/-- Nor does a command of a reload. -/
theorem deaf_of_config {β : Type} {c : MCmd β} (hc : c.ofConfig = true) : c.asks = false := by
  cases c <;> first | rfl | cases hc

/-- Nor does the end of a `putconf`. -/
theorem finishPutconf_deaf (c : Conn) : Deaf (finishPutconf c) := by
  refine Prog.every_step rfl fun ok => ?_
  split
  · exact Prog.every_step rfl fun _ => Prog.every_step rfl fun _ => trivial
  · refine Prog.Every.bind (configLoadSteps_every.mono fun _ _ h => deaf_of_config h) fun _ => ?_
    exact Prog.every_step rfl fun _ => Prog.every_step rfl fun _ => trivial

/-- Nor does the end of any payload. -/
theorem binFinish_deaf (c : Conn) : Deaf (binFinish c) := by
  refine Prog.every_step rfl fun _ => ?_
  split
  · split
    · exact Prog.every_step rfl fun _ => finishPutconf_deaf _
    · exact finishPutconf_deaf _
  · refine Prog.every_step rfl fun err => ?_
    cases err with
    | some err => exact Prog.every_step rfl fun _ => trivial
    | none =>
        refine Prog.every_step rfl fun _ => Prog.every_step rfl fun ok => ?_
        split <;> trivial
  · trivial

/-- Nor does the end of a connection. -/
theorem connClose_deaf (c : Conn) : Deaf (connClose c) := by
  unfold connClose
  split
  · exact Prog.every_step rfl fun _ => Prog.every_last rfl
  · exact Prog.every_last rfl
  · trivial

/-- The same with a value behind it. -/
theorem closed_deaf (c : Conn) {α : Type} (a : α) : Deaf (connClose c >>= fun _ => .ret a) :=
  (connClose_deaf c).bind fun _ => trivial

/-- A turn with lines asks for bytes once, before. -/
theorem pumpLines_deaf (c : Conn) : Deaf (pumpLines c) := by
  unfold pumpLines
  split
  · exact Prog.every_step rfl fun _ => closed_deaf c none
  · exact (processLinesFrom_deaf _ c).bind fun _ => trivial

/-- And a turn with a payload. -/
theorem pumpBinary_deaf (c : Conn) : Deaf (pumpBinary c) := by
  rw [pumpBinary_eq]
  refine Prog.Every.bind ?_ fun r => ?_
  · split
    · trivial
    · exact binWrite_deaf c _
  · obtain ⟨ok, d⟩ := r
    cases ok with
    | false => exact closed_deaf d none
    | true =>
        unfold pumpAfter
        dsimp only
        rw [if_neg (by decide)]
        split
        · trivial
        · refine (binFinish_deaf _).bind fun r => ?_
          cases r with
          | failed e => exact closed_deaf e none
          | replaced => trivial
          | done e => exact (processLinesFrom_deaf _ e).bind fun _ => trivial

/-! ### Whatever is in the buffer -/

/-- The connection with another buffer. -/
def Conn.hold (x : List Byte) (c : Conn) : Conn := { c with ibuf := x }

section Hold

variable {c : Conn} {x : List Byte}

@[simp] theorem hold_ibuf : (c.hold x).ibuf = x := rfl

@[simp] theorem hold_binary : (c.hold x).binary = c.binary := rfl

@[simp] theorem hold_closed : (c.hold x).closed = c.closed := rfl

@[simp] theorem hold_hold (y : List Byte) : (c.hold x).hold y = c.hold y := rfl

@[simp] theorem hold_self : c.hold c.ibuf = c := rfl

theorem handleAuth_hold (args : List (List Byte)) :
    handleAuth (c.hold x) args = handleAuth c args >>= fun d => .ret (d.hold x) := by
  refine congrArg (Prog.cmd _) (funext fun pw => ?_)
  by_cases h : pw = []
  · simp only [Prog.bind, h, if_true]
    rfl
  · simp only [Prog.bind, h, if_false]
    cases args with
    | nil => rfl
    | cons arg args =>
        refine congrArg (Prog.cmd _) (funext fun pw => ?_)
        by_cases h : arg = pw
        · simp only [Prog.bind, h, if_true]
          rfl
        · simp only [Prog.bind, h, if_false]
          rfl

/-- A command of the table with another buffer. -/
theorem handleCommand_hold (line : List Byte) :
    handleCommand (c.hold x) line = handleCommand c line >>= fun d => .ret (d.hold x) := by
  refine congrArg (Prog.cmd _) (funext fun r => congrArg (Prog.cmd _) (funext fun _ =>
    congrArg (Prog.cmd _) (funext fun _ => ?_)))
  change Prog.ret _ = Prog.ret _
  congr 1
  split <;> rfl

theorem handlePutconf_hold (arg : List Byte) :
    handlePutconf (c.hold x) arg = handlePutconf c arg >>= fun d => .ret (d.hold x) := by
  unfold handlePutconf
  dsimp only
  split
  · rfl
  · refine congrArg (Prog.cmd _) (funext fun f => ?_)
    cases f <;> rfl

theorem handleUpgrade_hold (arg sha : List Byte) :
    handleUpgrade (c.hold x) arg sha = handleUpgrade c arg sha >>= fun d => .ret (d.hold x) := by
  refine congrArg (Prog.cmd _) (funext fun err => ?_)
  cases err <;> rfl

/-- **A line** with another buffer. -/
theorem handleLine_hold (line : List Byte) :
    handleLine (c.hold x) line = handleLine c line >>= fun d => .ret (d.hold x) :=
  handleLine_rel (c := c) (d := c.hold x) (P := fun p q => q = p >>= fun e => .ret (e.hold x)) rfl
    rfl (fun _ => rfl) handleAuth_hold rfl handleCommand_hold handlePutconf_hold handleUpgrade_hold
    line

/-- **`bin_write` reads the mode and the file**, and writes the file: what else a connection carries
may be changed after it as well as before. -/
theorem binWrite_over {u : Conn → Conn} (hm : (u c).mode = c.mode) (hf : (u c).pcfp = c.pcfp)
    (hu : ∀ f, { u c with pcfp := some f } = u { c with pcfp := some f }) (p : List Byte) :
    binWrite (u c) p = binWrite c p >>= fun r => .ret (r.1, u r.2) := by
  refine congrArg (Prog.cmd _) (funext fun _ => ?_)
  simp only [hm, hf] at hu ⊢
  cases hmode : c.mode with
  | line => cases c.pcfp <;> rfl
  | putconf =>
      rw [hmode] at hu
      cases c.pcfp with
      | none => rfl
      | some f =>
          refine congrArg (Prog.cmd _) (funext fun r => ?_)
          exact congrArg (fun d => Prog.ret (decide (r.1 = p.length), d)) (hu r.2)
  | upgrade =>
      cases c.pcfp <;>
      · refine congrArg (Prog.cmd _) (funext fun err => ?_)
        cases err <;> rfl

/-- **A part of a payload** with another buffer. -/
theorem binWrite_hold (p : List Byte) :
    binWrite (c.hold x) p = binWrite c p >>= fun r => .ret (r.1, r.2.hold x) :=
  binWrite_over (u := Conn.hold x) rfl rfl (fun _ => rfl) p

/-- As much of a payload may be left as it will. -/
theorem binWrite_left (n : ℕ) (p : List Byte) :
    binWrite { c with bleft := n } p =
      binWrite c p >>= fun r => .ret (r.1, { r.2 with bleft := n }) :=
  binWrite_over (u := fun d => { d with bleft := n }) rfl rfl (fun _ => rfl) p

/-- How `bin_finish` ends, with another buffer. -/
def Finish.hold (x : List Byte) : Finish → Finish
  | .failed c => .failed (c.hold x)
  | .done c => .done (c.hold x)
  | .replaced => .replaced

/-- The end of a `putconf` with another buffer. -/
theorem finishPutconf_hold :
    finishPutconf (c.hold x) = finishPutconf c >>= fun r => .ret (r.hold x) := by
  refine congrArg (Prog.cmd _) (funext fun ok => ?_)
  cases ok with
  | false => rfl
  | true =>
      change (configLoadSteps >>= fun _ => _) = (configLoadSteps >>= fun _ => _) >>= _
      rw [Prog.bind_assoc]
      rfl

/-- **The end of a payload** with another buffer. -/
theorem binFinish_hold : binFinish (c.hold x) = binFinish c >>= fun r => .ret (r.hold x) := by
  rcases c with ⟨authed, closed, ibuf, binary, bleft, mode, pcfp⟩
  cases mode with
  | putconf =>
      rw [binFinish_putconf rfl, binFinish_putconf rfl]
      refine congrArg (Prog.cmd _) (funext fun _ => ?_)
      have h := @finishPutconf_hold ⟨authed, closed, ibuf, binary, bleft, .putconf, none⟩ x
      cases pcfp with
      | none => exact h
      | some f => exact congrArg (Prog.cmd _) (funext fun _ => h)
  | upgrade =>
      refine congrArg (Prog.cmd _) (funext fun _ => congrArg (Prog.cmd _) (funext fun err => ?_))
      cases err with
      | some err => rfl
      | none =>
          refine congrArg (Prog.cmd _) (funext fun _ => congrArg (Prog.cmd _) (funext fun ok => ?_))
          cases ok <;> rfl
  | line => rfl

/-! ### A part of a payload -/

/-- `conn_pump` after `bin_write`, up to its call of `process_lines`: whether the payload is over. -/
def payAfter (n : ℕ) (r : Bool × Conn) : MAct (Option (Conn × Bool)) := do
  let (ok, c) := r
  if !ok then
    connClose c
    pure none
  else
    let c := { c with bleft := c.bleft - n }
    if c.bleft ≠ 0 then pure (some (c, false))
    else
      match ← binFinish { c with binary := false } with
      | .failed c =>
        connClose c
        pure none
      | .replaced => pure none
      | .done c => pure (some (c, true))

/-- `conn_pump` with the part `x` of a payload. -/
def payStep (c : Conn) (x : List Byte) : MAct (Option (Conn × Bool)) :=
  binWrite c x >>= payAfter x.length

/-- What follows it, with the rest of the buffer. -/
def payRest (rest : List Byte) : Option (Conn × Bool) → MAct (Option Conn)
  | none => .ret none
  | some (c, false) => .ret (some (c.hold rest))
  | some (c, true) => some <$> processLines (c.hold rest)

/-- **A turn in a payload** is a step of the payload, and what follows. -/
theorem pumpBinary_pay (rest : List Byte) (hx : x ≠ [])
    (hlen : x.length = min (x ++ rest).length c.bleft) :
    pumpBinary (c.hold (x ++ rest)) = payStep c x >>= payRest rest := by
  have hne : ¬ min (c.hold (x ++ rest)).ibuf.length (c.hold (x ++ rest)).bleft = 0 := by
    change ¬ min (x ++ rest).length c.bleft = 0
    rw [← hlen]
    exact (List.length_pos_of_ne_nil hx).ne'
  have hmin : min (c.hold (x ++ rest)).ibuf.length (c.hold (x ++ rest)).bleft = x.length := hlen.symm
  rw [pumpBinary_eq, if_neg hne, hmin, hold_ibuf, List.take_left' rfl, binWrite_hold, payStep,
    Prog.bind_assoc, Prog.bind_assoc]
  refine congrArg (binWrite c x >>= ·) (funext fun r => ?_)
  obtain ⟨ok, d⟩ := r
  have hclose (e : Conn) : (connClose e >>= fun _ => Prog.ret (none : Option Conn)) =
      (connClose e >>= fun _ => Prog.ret none) >>= payRest rest := by
    rw [Prog.bind_assoc]
    rfl
  cases ok with
  | false => exact hclose d
  | true =>
      have hrest : (x ++ rest).drop x.length = rest := List.drop_left' rfl
      simp only [Prog.ret_bind, pumpAfter, payAfter, Conn.hold, hrest, Bool.not_true,
        Bool.false_eq_true, if_false]
      split
      · rfl
      · have hf := @binFinish_hold { d with bleft := d.bleft - x.length, binary := false } rest
        rw [Conn.hold] at hf
        simp only at hf
        rw [hf, Prog.bind_assoc, Prog.bind_assoc]
        refine congrArg (binFinish _ >>= ·) (funext fun r => ?_)
        cases r with
        | failed e => exact hclose e
        | done e => rfl
        | replaced => rfl

end Hold

end LinuxRouter
