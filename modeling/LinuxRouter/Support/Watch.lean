import LinuxRouter.Support.Program

/-!
# Support — Watch

A system with an observer.  The observer sees every command with its thread, the state before it and
its answer, keeps a view of the run, and takes no part in it.

`Program.System.watched` is the system with its observer: a state has the view and the threads' ghost
values, and a command carries the number of its thread.  `Config.shadow` is a configuration with a
view.

* `watched_total`: every run has a view.
* `watched_run`: what the watched system reaches is a shadow of what the system reaches.
* `watched_along`: an invariant of the state, the histories and the view.
* `watched_review`: an observer that sees less accompanies the same runs.

So a `Discipline` of the watched system is an argument about the runs of the system that may use the
view, and what is known of the system's own invariant.
-/

namespace Program

/-- A command of the thread `thread`. -/
structure By (T : Type) (C : Type → Type) (β : Type) where
  thread : T
  cmd : C β

variable {C : Type → Type} {E σ G T L γ α β : Type}

namespace Prog

/-- The program, as the thread `t` runs it. -/
def tag (t : T) : Prog C α → Prog (By T C) α
  | .ret a => .ret a
  | .cmd c k => .cmd ⟨t, c⟩ fun b => (k b).tag t

@[simp] theorem tag_ret (t : T) (a : α) : (Prog.ret a : Prog C α).tag t = .ret a := rfl

@[simp] theorem tag_bind (t : T) (p : Prog C α) (f : α → Prog C β) :
    (p >>= f).tag t = p.tag t >>= fun a => (f a).tag t := by
  induction p with
  | ret a => rfl
  | cmd c k ih => exact congrArg (Prog.cmd _) (funext ih)

end Prog

/-- A thread of the watched system. -/
def Thread.tag (t : T) : Thread C L → Thread (By T C) L
  | .idle l => .idle l
  | .running p => .running (p.tag t)
  | .stopped => .stopped

/-- A state, the threads' ghost values, and a view. -/
structure Watched (σ G T γ : Type) where
  shared : σ
  ghost : T → G
  view : γ

variable [DecidableEq T]

/-- What a command of the thread `t` makes of a state, the ghost values and a view. -/
def Watched.exec (M : System C E σ G T L) (watch : ∀ ⦃β : Type⦄, T → C β → σ → β → γ → γ) (t : T)
    (c : C β) (e : E) (x : Watched σ G T γ) : β × Watched σ G T γ :=
  let r := M.exec c e x.shared
  (r.1,
    { shared := r.2
      ghost := Function.update x.ghost t (M.hold c x.shared r.1 (x.ghost t))
      view := watch t c x.shared r.1 x.view })

/-- The system with an observer.  A thread's own ghost value is its number. -/
def System.watched (M : System C E σ G T L)
    (watch : ∀ ⦃β : Type⦄, T → C β → σ → β → γ → γ) :
    System (By T C) E (Watched σ G T γ) T T L where
  exec _ c e x := Watched.exec M watch c.thread c.cmd e x
  hold _ _ _ _ t := t
  body t l := (M.body t l).tag t
  admin x y := M.admin x.shared y.shared ∧ y.ghost = x.ghost ∧ y.view = x.view

/-- The configuration with a view. -/
def Config.shadow (x : Config C σ G T L) (v : γ) : Config (By T C) (Watched σ G T γ) T T L where
  shared := { shared := x.shared, ghost := x.ghost, view := v }
  thread t := (x.thread t).tag t
  ghost := id

/-- The steps that `ok` admits, as the watched system takes them. -/
def Admits (ok : ∀ ⦃β : Type⦄, T → C β → E → σ → Prop) :
    ∀ ⦃β : Type⦄, T → By T C β → E → Watched σ G T γ → Prop :=
  fun _ t c e x => ok t c.cmd e x.shared

variable {M : System C E σ G T L} {watch : ∀ ⦃β : Type⦄, T → C β → σ → β → γ → γ}
  {ok : ∀ ⦃β : Type⦄, T → C β → E → σ → Prop} {x y z : Config C σ G T L} {v : γ}

theorem shadow_update (t : T) (th : Thread C L) :
    (fun u => (Function.update x.thread t th u).tag u) =
      Function.update (fun u => (x.thread u).tag u) t (th.tag t) := by
  funext u
  by_cases e : u = t
  · subst e
    simp
  · simp [e]

omit [DecidableEq T] in
theorem tag_ofResult (t : T) (r : Option L) :
    (Thread.ofResult r : Thread C L).tag t = .ofResult r := by
  cases r <;> rfl

omit [DecidableEq T] in
theorem tag_eq_idle {t : T} {th : Thread C L} {l : L} (h : th.tag t = .idle l) : th = .idle l := by
  cases th with
  | idle l' => exact congrArg Thread.idle (Thread.idle.inj h)
  | running p => cases h
  | stopped => cases h

omit [DecidableEq T] in
theorem tag_eq_ret {t : T} {th : Thread C L} {r : Option L} (h : th.tag t = .running (.ret r)) :
    th = .running (.ret r) := by
  rcases th with l | ⟨r' | ⟨c, k⟩⟩ | _
  · cases h
  · cases h
    rfl
  · cases h
  · cases h

omit [DecidableEq T] in
theorem tag_eq_cmd {t : T} {th : Thread C L} {c : By T C β} {k : β → Prog (By T C) (Option L)}
    (h : th.tag t = .running (.cmd c k)) :
    ∃ c₀ k₀, th = .running (.cmd c₀ k₀) ∧ c = ⟨t, c₀⟩ ∧ k = fun b => (k₀ b).tag t := by
  rcases th with l | ⟨r | ⟨c₀, k₀⟩⟩ | _
  · cases h
  · cases h
  · cases h
    exact ⟨c₀, k₀, rfl, rfl, rfl⟩
  · cases h

/-- A shadow's step, as a command of the watched system. -/
theorem shadow_exec (t : T) (c : C β) (k : β → Prog C (Option L)) (e : E) :
    Config.shadow
      { shared := (M.exec c e x.shared).2
        thread := Function.update x.thread t (.running (k (M.exec c e x.shared).1))
        ghost := Function.update x.ghost t
          (M.hold c x.shared (M.exec c e x.shared).1 (x.ghost t)) }
      (watch t c x.shared (M.exec c e x.shared).1 v) =
    { shared := ((M.watched watch).exec ⟨t, c⟩ e (x.shadow v).shared).2
      thread := Function.update (x.shadow v).thread t
        (.running ((k ((M.watched watch).exec ⟨t, c⟩ e (x.shadow v).shared).1).tag t))
      ghost := Function.update id t t } := by
  have hid : Function.update (id : T → T) t t = id := Function.update_eq_self t id
  rw [hid]
  simp only [Config.shadow, shadow_update]
  rfl

/-- Every step has a view. -/
theorem watched_step (h : Step M ok y z) (v : γ) :
    ∃ w, Step (M.watched watch) (Admits ok) (y.shadow v) (z.shadow w) := by
  cases h with
  | @start t l ht =>
      refine ⟨v, ?_⟩
      have hs : Step (M.watched watch) (Admits ok) (y.shadow v) _ := .start t (l := l)
        (by simp only [Config.shadow, ht, Thread.tag])
      simp only [Config.shadow, shadow_update] at hs ⊢
      exact hs
  | @exec t δ c k e ht hok =>
      refine ⟨watch t c y.shared (M.exec c e y.shared).1 v, ?_⟩
      rw [shadow_exec]
      exact Step.exec (M := M.watched watch) (x := y.shadow v) t (c := ⟨t, c⟩)
        (k := fun b => (k b).tag t) e
        (by simp only [Config.shadow, ht, Thread.tag, Prog.tag]) hok
  | @finish t r ht =>
      refine ⟨v, ?_⟩
      have hs : Step (M.watched watch) (Admits ok) (y.shadow v) _ := .finish t (r := r)
        (by simp only [Config.shadow, ht, Thread.tag, Prog.tag])
      simp only [Config.shadow, shadow_update, tag_ofResult] at hs ⊢
      exact hs
  | @admin s ha =>
      exact ⟨v, .admin (M := M.watched watch) (x := y.shadow v)
        (s := { shared := s, ghost := y.ghost, view := v }) ⟨ha, rfl, rfl⟩⟩

/-- **Every run has a view.** -/
theorem watched_total (h : Reach M ok x y) (v : γ) :
    ∃ w, Reach (M.watched watch) (Admits ok) (x.shadow v) (y.shadow w) := by
  induction h with
  | refl => exact ⟨v, .refl⟩
  | tail _ hs ih =>
      obtain ⟨w, hw⟩ := ih
      obtain ⟨w', hs'⟩ := watched_step hs w
      exact ⟨w', hw.tail hs'⟩

/-- **What the watched system reaches** is a shadow of what the system reaches. -/
theorem watched_run {ok' : ∀ ⦃β : Type⦄, T → By T C β → E → Watched σ G T γ → Prop}
    (hok : ∀ ⦃β : Type⦄ t (c : C β) e (s : Watched σ G T γ), ok' t ⟨t, c⟩ e s → ok t c e s.shared)
    {y' : Config (By T C) (Watched σ G T γ) T T L}
    (h : Reach (M.watched watch) ok' (x.shadow v) y') :
    ∃ y w, y' = y.shadow w ∧ Reach M ok x y := by
  induction h with
  | refl => exact ⟨x, v, rfl, .refl⟩
  | tail _ hs ih =>
      obtain ⟨y, w, rfl, hy⟩ := ih
      cases hs with
      | @start t l ht =>
          refine ⟨_, w, ?_, hy.tail (.start t (tag_eq_idle ht))⟩
          simp only [Config.shadow, shadow_update]
          rfl
      | @exec t δ c k e ht hok' =>
          obtain ⟨c₀, k₀, h₀, rfl, rfl⟩ := tag_eq_cmd ht
          exact ⟨_, _, (shadow_exec t c₀ k₀ e).symm, hy.tail (.exec t e h₀ (hok t c₀ e _ hok'))⟩
      | @finish t r ht =>
          refine ⟨_, w, ?_, hy.tail (.finish t (tag_eq_ret ht))⟩
          simp only [Config.shadow, shadow_update, tag_ofResult]
      | @admin s ha =>
          obtain ⟨ha, hg, hv⟩ := ha
          refine ⟨{ y with shared := s.shared }, w, ?_, hy.tail (.admin ha)⟩
          obtain ⟨s, g, v⟩ := s
          obtain rfl : g = y.ghost := hg
          obtain rfl : v = w := hv
          rfl

/-! ### Histories -/

section History

variable {N : Type} {note : ∀ ⦃β : Type⦄, C β → β → N}
  {pre : ∀ ⦃β : Type⦄, C β → List N → Prop} {ans : ∀ ⦃β : Type⦄, C β → β → Prop}
  {M : System C E σ (List N) T L} {watch : ∀ ⦃β : Type⦄, T → C β → σ → β → γ → γ}
  {ok : ∀ ⦃β : Type⦄, T → By T C β → E → Watched σ (List N) T γ → Prop}
  {x : Config C σ (List N) T L} {v : γ}

/-- **An invariant of the state, the histories and the view**, if the rounds keep the preconditions
and every command that finds its precondition keeps the invariant. -/
theorem watched_along (hold : ∀ ⦃β : Type⦄ (c : C β) s a h, M.hold c s a h = note c a :: h)
    (hans : ∀ ⦃β : Type⦄ t (c : C β) e s, ok t ⟨t, c⟩ e s → ans c (M.exec c e s.shared).1)
    {rest : T → L → List N → Prop}
    (hbody : ∀ t l h, rest t l h →
      Along note pre ans (fun r h => ∀ l, r = some l → rest t l h) (M.body t l) h)
    {inv : Watched σ (List N) T γ → Prop}
    (hinv : ∀ ⦃β : Type⦄ t (c : C β) e s, inv s → pre c (s.ghost t) → ok t ⟨t, c⟩ e s →
      inv (Watched.exec M watch t c e s).2)
    (hadmin : ∀ s s', inv s → M.admin s.shared s'.shared → s'.ghost = s.ghost →
      s'.view = s.view → inv s')
    (hx : inv (x.shadow v).shared)
    (ht : ∀ t, AlongThread note pre ans rest t (x.thread t) (x.ghost t))
    {y' : Config (By T C) (Watched σ (List N) T γ) T T L}
    (hr : Reach (M.watched watch) ok (x.shadow v) y') :
    inv y'.shared ∧ ∃ (y : Config C σ (List N) T L) (w : γ), y' = y.shadow w ∧
      ∀ t, AlongThread note pre ans rest t (y.thread t) (y.ghost t) := by
  have hkeep : ∀ ⦃β : Type⦄ (c : C β) a (h : List N), True → pre c h → ans c a → True :=
    fun _ _ _ _ _ _ _ => trivial
  -- a step of what is watched is a step of the machine itself
  have hsound : ∀ {y z : Config C σ (List N) T L},
      (∀ t, AlongThread note pre ans rest t (y.thread t) (y.ghost t)) →
      Step M (fun _ _ c e s => ans c (M.exec c e s).1) y z →
      ∀ t, AlongThread note pre ans rest t (z.thread t) (z.ghost t) := fun hy hs t =>
    (along_sound hold (fun _ _ _ _ _ h => h) hkeep hbody (fun t => ⟨trivial, hy t⟩)
      (.single hs) t).2
  induction hr with
  | refl => exact ⟨hx, x, v, rfl, ht⟩
  | tail _ hs ih =>
      obtain ⟨hi, y, w, rfl, hy⟩ := ih
      cases hs with
      | @start t l hl =>
          refine ⟨hi, _, w, ?_, hsound hy (.start t (tag_eq_idle hl))⟩
          simp only [Config.shadow, shadow_update]
          rfl
      | @exec t δ c k e hc hok =>
          obtain ⟨c₀, k₀, h₀, rfl, rfl⟩ := tag_eq_cmd hc
          have hp := hy t
          rw [h₀] at hp
          exact ⟨hinv t c₀ e _ hi hp.1 hok, _, _, (shadow_exec t c₀ k₀ e).symm,
            hsound hy (.exec t e h₀ (hans t c₀ e _ hok))⟩
      | @finish t r hl =>
          refine ⟨hi, _, w, ?_, hsound hy (.finish t (tag_eq_ret hl))⟩
          simp only [Config.shadow, shadow_update, tag_ofResult]
      | @admin s ha =>
          obtain ⟨ha, hg, hv⟩ := ha
          refine ⟨hadmin _ s hi ha hg hv, { y with shared := s.shared }, w, ?_,
            hsound hy (.admin ha)⟩
          obtain ⟨s, g, v⟩ := s
          obtain rfl : g = y.ghost := hg
          obtain rfl : v = w := hv
          rfl

end History

/-! ### Observers that see less -/

section Review

variable {δ : Type} {watch' : ∀ ⦃β : Type⦄, T → C β → σ → β → δ → δ}

/-- The state, with another view. -/
def Watched.review (f : γ → δ) (s : Watched σ G T γ) : Watched σ G T δ where
  shared := s.shared
  ghost := s.ghost
  view := f s.view

/-- The configuration, with another view. -/
def Config.review (f : γ → δ) (y : Config (By T C) (Watched σ G T γ) T T L) :
    Config (By T C) (Watched σ G T δ) T T L where
  shared := y.shared.review f
  thread := y.thread
  ghost := y.ghost

/-- **An observer that sees less**: if it makes of every command what is left of the other's view,
it accompanies the other's runs. -/
theorem watched_review {f : γ → δ}
    (hf : ∀ ⦃β : Type⦄ t (c : C β) s a v, f (watch t c s a v) = watch' t c s a (f v))
    {ok : ∀ ⦃β : Type⦄, T → By T C β → E → Watched σ G T γ → Prop}
    {ok' : ∀ ⦃β : Type⦄, T → By T C β → E → Watched σ G T δ → Prop}
    (hok : ∀ ⦃β : Type⦄ t (c : By T C β) e s, ok t c e s → ok' t c e (s.review f))
    {x y : Config (By T C) (Watched σ G T γ) T T L} (h : Reach (M.watched watch) ok x y) :
    Reach (M.watched watch') ok' (x.review f) (y.review f) := by
  induction h with
  | refl => exact .refl
  | @tail y z _ hs ih =>
      refine ih.tail ?_
      cases hs with
      | start t ht => exact Step.start (M := M.watched watch') t ht
      | @exec t β c k e ht hk =>
          have hs := Step.exec (M := M.watched watch') (x := y.review f) t e ht (hok t c e _ hk)
          have hv : ((M.watched watch').exec c e (y.review f).shared).2 =
              ((M.watched watch).exec c e y.shared).2.review f := by
            simp only [System.watched, Watched.exec, Watched.review, Config.review, hf]
          rw [hv] at hs
          exact hs
      | finish t ht => exact Step.finish (M := M.watched watch') t ht
      | admin ha =>
          obtain ⟨ha, hg, hv⟩ := ha
          exact Step.admin (M := M.watched watch') ⟨ha, hg, congrArg f hv⟩

/-- The configuration, with a second view. -/
def Config.beside (y : Config (By T C) (Watched σ G T γ) T T L) (w : δ) :
    Config (By T C) (Watched σ G T (γ × δ)) T T L where
  shared := { shared := y.shared.shared, ghost := y.shared.ghost, view := (y.shared.view, w) }
  thread := y.thread
  ghost := y.ghost

/-- **A second observer** may accompany every run. -/
theorem watched_beside {x y : Config (By T C) (Watched σ G T γ) T T L} (w : δ)
    (h : Reach (M.watched watch) anyStep x y) :
    ∃ w', Reach (M.watched fun _ t c s a v => (watch t c s a v.1, watch' t c s a v.2)) anyStep
      (x.beside w) (y.beside w') := by
  induction h with
  | refl => exact ⟨w, .refl⟩
  | @tail y z _ hs ih =>
      obtain ⟨w', hr⟩ := ih
      cases hs with
      | start t ht => exact ⟨w', hr.tail (.start (x := y.beside w') t ht)⟩
      | @exec t β c k e ht _ => exact ⟨_, hr.tail (.exec (x := y.beside w') t e ht trivial)⟩
      | finish t ht => exact ⟨w', hr.tail (.finish (x := y.beside w') t ht)⟩
      | @admin s ha =>
          obtain ⟨ha, hg, hv⟩ := ha
          exact ⟨w', hr.tail (.admin (x := y.beside w') ⟨ha, hg, congrArg (·, w') hv⟩)⟩

end Review

/-! ### One thread alone -/

section Alone

/-- The thread `t` may run the program from here, with nobody else, and end in `Q`. -/
def May (M : System C E σ G T L) (watch : ∀ ⦃β : Type⦄, T → C β → σ → β → γ → γ)
    (ok : ∀ ⦃β : Type⦄, T → By T C β → E → Watched σ G T γ → Prop) (t : T)
    (Q : α → Watched σ G T γ → Prop) : Prog C α → Watched σ G T γ → Prop
  | .ret a, x => Q a x
  | .cmd c k, x => ∃ e, ok t ⟨t, c⟩ e x ∧
      May M watch ok t Q (k (Watched.exec M watch t c e x).1) (Watched.exec M watch t c e x).2

variable {ok : ∀ ⦃β : Type⦄, T → By T C β → E → Watched σ G T γ → Prop} {t : T}
  {Q : α → Watched σ G T γ → Prop} {p : Prog C α} {x : Watched σ G T γ}
  {y : Config (By T C) (Watched σ G T γ) T T L}

theorem May.mono {Q' : α → Watched σ G T γ → Prop} (h : May M watch ok t Q p x)
    (hQ : ∀ a x, Q a x → Q' a x) : May M watch ok t Q' p x := by
  induction p generalizing x with
  | ret a => exact hQ a x h
  | cmd c k ih =>
      obtain ⟨e, hok, h⟩ := h
      exact ⟨e, hok, ih _ h⟩

theorem May.bind {Q' : β → Watched σ G T γ → Prop} {f : α → Prog C β}
    (h : May M watch ok t (fun a x => May M watch ok t Q' (f a) x) p x) :
    May M watch ok t Q' (p >>= f) x := by
  induction p generalizing x with
  | ret a => exact h
  | cmd c k ih =>
      obtain ⟨e, hok, h⟩ := h
      exact ⟨e, hok, ih _ h⟩

/-- **What a thread may do alone, it may do in a run**, up to a point of its round. -/
theorem May.run {f : α → Prog C (Option L)} (h : May M watch ok t Q p y.shared)
    (ht : y.thread t = .running ((p >>= f).tag t)) :
    ∃ a z, Reach (M.watched watch) ok y z ∧
      z.thread = Function.update y.thread t (.running ((f a).tag t)) ∧ Q a z.shared := by
  induction p generalizing y with
  | ret a =>
      refine ⟨a, y, .refl, ?_, h⟩
      rw [← Prog.ret_bind a f, ← ht, Function.update_eq_self]
  | cmd c k ih =>
      obtain ⟨e, hok, h⟩ := h
      have hs : Step (M.watched watch) ok y _ := .exec t e ht hok
      obtain ⟨a, z, hz, hthread, hq⟩ := ih (Watched.exec M watch t c e y.shared).1 (y :=
        { shared := (Watched.exec M watch t c e y.shared).2
          thread := Function.update y.thread t
            (.running (((k (Watched.exec M watch t c e y.shared).1) >>= f).tag t))
          ghost := Function.update y.ghost t (y.ghost t) }) h (Function.update_self _ _ _)
      refine ⟨a, z, hz.head hs, ?_, hq⟩
      rw [hthread, Function.update_idem]

/-- A thread may start a round. -/
theorem May.start {l : L} {f : α → Prog C (Option L)} (h : May M watch ok t Q p y.shared)
    (ht : y.thread t = .idle l) (hp : M.body t l = p >>= f) :
    ∃ a z, Reach (M.watched watch) ok y z ∧
      z.thread = Function.update y.thread t (.running ((f a).tag t)) ∧ Q a z.shared := by
  have hs : Step (M.watched watch) ok y _ := .start t ht
  have h' : May M watch ok t Q p
      { y with thread := Function.update y.thread t (.running ((M.body t l).tag t)) }.shared := h
  obtain ⟨a, z, hz, hthread, hq⟩ := h'.run (f := f) (by
    rw [← hp]
    exact Function.update_self _ _ _)
  refine ⟨a, z, hz.head hs, ?_, hq⟩
  rw [hthread, Function.update_idem]

/-- A thread may run a whole round. -/
theorem May.round {l : L} {Q : Option L → Watched σ G T γ → Prop}
    (h : May M watch ok t Q (M.body t l) y.shared) (ht : y.thread t = .idle l) :
    ∃ r z, Reach (M.watched watch) ok y z ∧
      z.thread = Function.update y.thread t (.ofResult r) ∧ Q r z.shared := by
  obtain ⟨r, z, hz, hthread, hq⟩ := h.start (f := .ret) ht (Prog.bind_ret _).symm
  have hs : Step (M.watched watch) ok z _ := .finish t (r := r) (by
    rw [hthread]
    exact Function.update_self _ _ _)
  refine ⟨r, _, hz.tail hs, ?_, hq⟩
  rw [hthread, Function.update_idem]

end Alone

end Program
