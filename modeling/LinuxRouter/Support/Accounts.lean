import LinuxRouter.Support.Watch

/-!
# Support — Accounts

Threads that keep books.  Each has an account of its own, and enters every command that it runs, with
the state before it and the answer.

* `Accounting` says what is entered at a command, what a thread's account must show before one, and
  which answers are to be expected of one.
* `Accounting.Keeps` is the judgment on a program: its commands find what they need in the account,
  and its end is right, whatever the expected answers are.
* `Accounting.kept`: in every interleaving in which only expected answers come, a thread that is about
  to run a command has what it needs, and a thread between two rounds has the account it should.
-/

namespace Program

/-- How a thread's account is kept. -/
structure Accounting (C : Type → Type) (σ Λ : Type) where
  /-- the account after a command, from the state before it and its answer -/
  note : ∀ ⦃β : Type⦄, C β → σ → β → Λ → Λ
  /-- what the account shows before a command -/
  needs : ∀ ⦃β : Type⦄, C β → Λ → Prop
  /-- the answers to expect -/
  expects : ∀ ⦃β : Type⦄, C β → β → Λ → Prop

namespace Accounting

variable {C : Type → Type} {E σ G T L Λ α β : Type} (A : Accounting C σ Λ)

/-- From the account `l`, the commands of the program find what they need, and it ends with `Q`. -/
def Keeps (Q : α → Λ → Prop) : Prog C α → Λ → Prop
  | .ret a, l => Q a l
  | .cmd c k, l => A.needs c l ∧ ∀ s a, A.expects c a l → Keeps Q (k a) (A.note c s a l)

variable {A}

theorem Keeps.mono {Q Q' : α → Λ → Prop} {p : Prog C α} {l : Λ} (h : A.Keeps Q p l)
    (hQ : ∀ a l, Q a l → Q' a l) : A.Keeps Q' p l := by
  induction p generalizing l with
  | ret a => exact hQ a l h
  | cmd c k ih => exact ⟨h.1, fun s a ha => ih a (h.2 s a ha)⟩

theorem Keeps.bind {Q : α → Λ → Prop} {Q' : β → Λ → Prop} {p : Prog C α} {f : α → Prog C β} {l : Λ}
    (h : A.Keeps Q p l) (hf : ∀ a l, Q a l → A.Keeps Q' (f a) l) : A.Keeps Q' (p >>= f) l := by
  induction p generalizing l with
  | ret a => exact hf a l h
  | cmd c k ih => exact ⟨h.1, fun s a ha => ih a (h.2 s a ha)⟩

variable (A) in
/-- A thread is in order: between rounds its account is right, and within one the rest of it keeps
the account. -/
def InOrder (rest : T → L → Λ → Prop) (t : T) : Thread (By T C) L → Λ → Prop
  | .idle l, a => rest t l a
  | .running p, a => ∃ q : Prog C (Option L), p = q.tag t ∧
      A.Keeps (fun r a => ∀ l, r = some l → rest t l a) q a
  | .stopped, _ => True

variable {rest : T → L → Λ → Prop}

/-- What a thread's account shows before its next command. -/
theorem InOrder.needs {th : Thread (By T C) L} {t : T} {a : Λ} {c : By T C β}
    {k : β → Prog (By T C) (Option L)} (h : A.InOrder rest t th a) (ht : th = .running (.cmd c k)) :
    c.thread = t ∧ A.needs c.cmd a := by
  subst ht
  obtain ⟨q, hq, hkeeps⟩ := h
  cases q with
  | ret r => cases hq
  | cmd c₀ k₀ =>
      cases hq
      exact ⟨rfl, hkeeps.1⟩

variable [DecidableEq T] {M : System C E σ G T L}

variable (A) in
/-- The observer: the threads' accounts. -/
def watch ⦃β : Type⦄ (t : T) (c : C β) (s : σ) (a : β) (v : T → Λ) : T → Λ :=
  Function.update v t (A.note c s a (v t))

variable {ok : ∀ ⦃β : Type⦄, T → By T C β → E → Watched σ G T (T → Λ) → Prop} {x : Config C σ G T L}
  {v : T → Λ} {y z : Config (By T C) (Watched σ G T (T → Λ)) T T L}

theorem InOrder.step (hbody : ∀ t l a, rest t l a →
      A.Keeps (fun r a => ∀ l, r = some l → rest t l a) (M.body t l) a)
    (hok : ∀ ⦃β : Type⦄ t (c : C β) e s, ok t ⟨t, c⟩ e s →
      A.expects c (M.exec c e s.shared).1 (s.view t))
    (h : ∀ t, A.InOrder rest t (y.thread t) (y.shared.view t))
    (hs : Step (M.watched A.watch) ok y z) (t : T) :
    A.InOrder rest t (z.thread t) (z.shared.view t) := by
  cases hs with
  | start u hl =>
      by_cases e : t = u
      · subst e
        have hrest := h t
        rw [hl] at hrest
        simp only [Function.update_self]
        exact ⟨_, rfl, hbody _ _ _ hrest⟩
      · simp only [Function.update_of_ne e]
        exact h t
  | @exec u β c k e hc hk =>
      have hrun := h u
      rw [hc] at hrun
      obtain ⟨q, hq, hkeeps⟩ := hrun
      cases q with
      | ret r => cases hq
      | cmd c₀ k₀ =>
          cases hq
          -- the command is noted for the thread that ran it, and for no other
          by_cases e' : t = u
          · subst e'
            simp only [Function.update_self]
            have hv : ((M.watched A.watch).exec ⟨t, c₀⟩ e y.shared).2.view t =
                A.note c₀ y.shared.shared (M.exec c₀ e y.shared.shared).1 (y.shared.view t) :=
              Function.update_self _ _ _
            rw [hv]
            exact ⟨_, rfl, hkeeps.2 _ _ (hok t c₀ e _ hk)⟩
          · simp only [Function.update_of_ne e']
            have hv : ((M.watched A.watch).exec ⟨u, c₀⟩ e y.shared).2.view t = y.shared.view t :=
              Function.update_of_ne e' _ _
            rw [hv]
            exact h t
  | @finish u r hr =>
      by_cases e : t = u
      · subst e
        have hrun := h t
        rw [hr] at hrun
        obtain ⟨q, hq, hkeeps⟩ := hrun
        simp only [Function.update_self]
        cases q with
        | ret r' =>
            cases hq
            cases r with
            | none => trivial
            | some l => exact hkeeps l rfl
        | cmd c k => cases hq
      · simp only [Function.update_of_ne e]
        exact h t
  | admin ha =>
      obtain ⟨-, -, hv⟩ := ha
      rw [hv]
      exact h t

/-- **Accounts are kept**, in every interleaving in which only expected answers come. -/
theorem kept (hbody : ∀ t l a, rest t l a →
      A.Keeps (fun r a => ∀ l, r = some l → rest t l a) (M.body t l) a)
    (hok : ∀ ⦃β : Type⦄ t (c : C β) e s, ok t ⟨t, c⟩ e s →
      A.expects c (M.exec c e s.shared).1 (s.view t))
    (hx : ∀ t, ∃ l, x.thread t = .idle l ∧ rest t l (v t))
    (h : Reach (M.watched A.watch) ok (x.shadow v) y) (t : T) :
    A.InOrder rest t (y.thread t) (y.shared.view t) := by
  induction h generalizing t with
  | refl =>
      obtain ⟨l, hl, hrest⟩ := hx t
      have hthread : (x.shadow v).thread t = .idle l := congrArg (Thread.tag t) hl
      rw [hthread]
      exact hrest
  | tail _ hs ih => exact InOrder.step hbody hok ih hs t

end Accounting

end Program
