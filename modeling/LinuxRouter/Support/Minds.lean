import LinuxRouter.Support.Watch

/-!
# Support — Minds

What a thread remembers of its own commands and their answers.

`Heeds` is the judgment on a program: every command finds in its thread's memory what it needs,
whatever the answers are.  Nobody writes a memory but its own thread, so `heeds_sound` carries the
judgment to every interleaving.

It is the simplest of the arguments about interleavings, with no invariant of the shared state at
all, and enough wherever a program is right because of the order of its own commands.
-/

namespace Program

variable {C : Type → Type} {E σ G T L Λ γ α β : Type}

section Heeds

variable (mind : ∀ ⦃β : Type⦄, C β → β → Λ → Λ) (needs : ∀ ⦃β : Type⦄, C β → Λ → Prop)

/-- From the memory `l` on, every command of the program finds what it needs, and `Q` holds at its
end. -/
def Heeds (Q : α → Λ → Prop) : Prog C α → Λ → Prop
  | .ret a, l => Q a l
  | .cmd c k, l => needs c l ∧ ∀ a, Heeds Q (k a) (mind c a l)

variable {mind needs} {Q Q' : α → Λ → Prop} {p : Prog C α} {l : Λ}

theorem heeds_step {δ : Type} {c : C δ} {f : δ → Prog C α} (hc : needs c l)
    (hf : ∀ a, Heeds mind needs Q (f a) (mind c a l)) :
    Heeds mind needs Q (Prog.perform c >>= f) l :=
  ⟨hc, hf⟩

theorem Heeds.mono (h : Heeds mind needs Q p l) (hQ : ∀ a l, Q a l → Q' a l) :
    Heeds mind needs Q' p l := by
  induction p generalizing l with
  | ret a => exact hQ a l h
  | cmd c k ih => exact ⟨h.1, fun a => ih a (h.2 a)⟩

theorem Heeds.bind {Q : β → Λ → Prop} {f : α → Prog C β}
    (h : Heeds mind needs (fun a l => Heeds mind needs Q (f a) l) p l) :
    Heeds mind needs Q (p >>= f) l := by
  induction p generalizing l with
  | ret a => exact h
  | cmd c k ih => exact ⟨h.1, fun a => ih a (h.2 a)⟩

/-- A program of commands that find what they need wherever `P` holds, and keep `P`. -/
theorem Heeds.of_every {P : Λ → Prop}
    (hp : p.Every fun _ c => ∀ l, P l → needs c l ∧ ∀ a, P (mind c a l)) (hl : P l) :
    Heeds mind needs (fun _ => P) p l := by
  induction p generalizing l with
  | ret a => exact hl
  | cmd c k ih => exact ⟨(hp.1 l hl).1, fun a => ih a (hp.2 a) ((hp.1 l hl).2 a)⟩

end Heeds

section Sound

variable [DecidableEq T] {mind : ∀ ⦃β : Type⦄, C β → β → Λ → Λ}
  {needs : ∀ ⦃β : Type⦄, C β → Λ → Prop} {M : System C E σ G T L}
  {watch : ∀ ⦃β : Type⦄, T → C β → σ → β → γ → γ} {seen : γ → T → Λ}

/-- What a thread relies on is its own memory. -/
def minding (mind : ∀ ⦃β : Type⦄, C β → β → Λ → Λ) (needs : ∀ ⦃β : Type⦄, C β → Λ → Prop)
    (hseen : ∀ ⦃β : Type⦄ t (c : C β) s a v,
      seen (watch t c s a v) = Function.update (seen v) t (mind c a (seen v t)))
    (ok : ∀ ⦃β : Type⦄, T → By T C β → E → Watched σ G T γ → Prop) :
    Discipline (M.watched watch) ok where
  inv _ g := ∀ t, g t = t
  fact _ _ := True
  pre _ t c _ x := c.thread = t ∧ needs c.cmd (seen x.view t)
  rely t x x' := seen x'.view t = seen x.view t
  rely_refl _ _ := rfl
  rely_trans h h' := h'.trans h
  fact_of_inv _ _ := trivial
  exec_inv := by
    rintro x g t β ⟨u, c⟩ e hg ⟨rfl, -⟩ - t
    by_cases ht : t = u
    · subst ht
      rw [Function.update_self]
      exact hg _
    · rw [Function.update_of_ne ht]
      exact hg t
  exec_rely := by
    rintro x g t β ⟨u, c⟩ e hg ⟨rfl, -⟩ - t' ht
    have hs := congrFun (hseen u c x.shared (M.exec c e x.shared).1 x.view) t'
    rw [Function.update_of_ne ht] at hs
    rw [hg]
    exact hs
  admin_inv hg _ := hg
  admin_rely t _ ha := by rw [ha.2.2]

variable {hseen : ∀ ⦃β : Type⦄ t (c : C β) s a v,
    seen (watch t c s a v) = Function.update (seen v) t (mind c a (seen v t))}
  {ok : ∀ ⦃β : Type⦄, T → By T C β → E → Watched σ G T γ → Prop}

theorem Heeds.toOk {Q : α → Λ → Prop} {p : Prog C α} {t : T} {x : Watched σ G T γ}
    (h : Heeds mind needs Q p (seen x.view t)) :
    (minding (M := M) mind needs hseen ok).Ok t (fun a u x => u = t ∧ Q a (seen x.view t))
      (p.tag t) t x := by
  induction p generalizing x with
  | ret a =>
      intro x' hx _
      have hx : seen x'.view t = seen x.view t := hx
      exact ⟨rfl, hx ▸ h⟩
  | cmd c k ih =>
      intro x' hx _
      have hx : seen x'.view t = seen x.view t := hx
      refine ⟨⟨rfl, hx ▸ h.1⟩, fun e _ => ih _ ?_⟩
      have hs := congrFun (hseen t c x'.shared (M.exec c e x'.shared).1 x'.view) t
      rw [Function.update_self, hx] at hs
      exact hs ▸ h.2 _

variable {x : Config C σ G T L} {v : γ} {y : Config (By T C) (Watched σ G T γ) T T L}

/-- **Soundness.**  If every round that starts from `rest` heeds its thread's memory, and all threads
start there, then a thread about to run a command has what the command needs. -/
theorem heeds_sound
    (hseen : ∀ ⦃β : Type⦄ t (c : C β) s a v,
      seen (watch t c s a v) = Function.update (seen v) t (mind c a (seen v t)))
    {rest : T → L → Λ → Prop}
    (hbody : ∀ t l m, rest t l m →
      Heeds mind needs (fun r m => ∀ l, r = some l → rest t l m) (M.body t l) m)
    (hx : ∀ t, ∃ l, x.thread t = .idle l ∧ rest t l (seen v t))
    (h : Reach (M.watched watch) ok (x.shadow v) y) {t : T} {c : By T C β}
    {k : β → Prog (By T C) (Option L)} (ht : y.thread t = .running (.cmd c k)) :
    needs c.cmd (seen y.shared.view t) := by
  have hgood : (minding (M := M) mind needs hseen ok).Good
      (fun t l g x => g = t ∧ rest t l (seen x.view t)) y := by
    refine Discipline.sound ?_ ?_ ⟨fun t => rfl, fun t => ?_⟩ h
    · rintro t l g x x' ⟨rfl, hr⟩ hu -
      have hu : seen x'.view g = seen x.view g := hu
      exact ⟨rfl, hu ▸ hr⟩
    · rintro t l g x ⟨rfl, hr⟩
      exact (hbody _ l _ hr).toOk.mono fun r u x hq l hl => ⟨hq.1, hq.2 l hl⟩
    · obtain ⟨l, hl, hr⟩ := hx t
      simp only [Config.shadow, hl, Thread.tag]
      exact ⟨rfl, hr⟩
  have hrun := hgood.2 t
  rw [ht] at hrun
  exact (hrun _ (Discipline.rely_refl _ _ _) trivial).1.2

end Sound

end Program
