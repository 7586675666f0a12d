import LinuxRouter.Support.Watch

/-!
# Support — Handle

A program whose commands are programs themselves.

`Prog.handle` puts a program over finer commands in the place of every command.  `replay_handle`
carries a run over, if every command's program does what the command does; `Discipline.Ok.handle`
carries a judgment over, if every command's program finds what it needs and answers as it may.

The semantics of the coarse commands is needed for the run alone.  A judgment is carried over
without it: wherever the coarse program needs something before a command, the finer one has it
before the first command of what stands in its place, and at the end of that it has what the coarse
one may rely on afterwards.
-/

namespace Program

variable {C D : Type → Type} {α β : Type}

namespace Prog

/-- The program with `f` in the place of its commands. -/
def handle (f : ∀ ⦃β : Type⦄, C β → Prog D β) : Prog C α → Prog D α
  | .ret a => .ret a
  | .cmd c k => f c >>= fun b => (k b).handle f

variable {f : ∀ ⦃β : Type⦄, C β → Prog D β}

theorem tag_handle {T : Type} (t : T) (p : Prog C α) :
    (p.handle f).tag t = p.handle fun _ c => (f c).tag t := by
  induction p with
  | ret a => rfl
  | cmd c k ih =>
      rw [handle, tag_bind, handle]
      exact congrArg _ (funext ih)

end Prog

variable {f : ∀ ⦃β : Type⦄, C β → Prog D β}

section Alone

variable {E E' σ σ' : Type} {exec : ∀ ⦃β : Type⦄, C β → E → σ → β × σ}
  {exec' : ∀ ⦃β : Type⦄, D β → E' → σ' → β × σ'} {e : E} {e' : E'}

/-- A run of the handled program is one of the program, on the part of the state that it sees. -/
theorem replay_handle {put : σ → σ'}
    (hf : ∀ ⦃β : Type⦄ (c : C β) s,
      replay exec' e' (f c) (put s) = ((exec c e s).1, put (exec c e s).2))
    (p : Prog C α) (s : σ) :
    replay exec' e' (p.handle f) (put s) = ((replay exec e p s).1, put (replay exec e p s).2) := by
  induction p generalizing s with
  | ret a => rfl
  | cmd c k ih =>
      rw [Prog.handle, replay_bind, hf]
      exact ih _ _

end Alone

section Judgment

variable {E σ G T L N : Type} [DecidableEq T] {M : System D E σ G T L}
  {ok : ∀ ⦃β : Type⦄, T → D β → E → σ → Prop} {A : Discipline M ok} {t : T}
  {note : ∀ ⦃β : Type⦄, C β → β → N} {pre : ∀ ⦃β : Type⦄, C β → List N → Prop}
  {ans : ∀ ⦃β : Type⦄, C β → β → Prop} {R : G → σ → Prop} {Q : α → List N → Prop}

/-- **A judgment on the program is one on the handled program**, wherever `R` holds between its
commands. -/
theorem Discipline.Ok.handle
    (hR : ∀ g s s', R g s → A.rely g s s' → A.fact g s' → R g s')
    (hf : ∀ ⦃β : Type⦄ (c : C β) h g s, pre c h → R g s →
      A.Ok t (fun a g s => ans c a ∧ R g s) (f c) g s)
    {p : Prog C α} {h : List N} (hp : Along note pre ans Q p h) {g : G} {s : σ} (hs : R g s) :
    A.Ok t (fun a g s => (∃ h, Q a h) ∧ R g s) (p.handle f) g s := by
  induction p generalizing h g s with
  | ret a => exact fun s' hr hfact => ⟨⟨h, hp⟩, hR g s s' hs hr hfact⟩
  | cmd c k ih =>
      exact Ok.bind ((hf c h g s hp.1 hs).mono fun a g s ha => ih a (hp.2 a ha.1) ha.2)

end Judgment

end Program
