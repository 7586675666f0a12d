import Mathlib.Logic.Function.Basic
import Mathlib.Logic.Relation

/-!
# Support — Program

Programs over atomic commands, run alone or interleaved.

A program is a tree of commands `C β`, each with a continuation on its answer.  A semantics
`exec` gives a command's answer and next state, from the state and from an answer `E` of the
outside world (a clock, a peer, a system call), which is not determined.

* `Runs` is a run of one program alone; `wp` is its weakest precondition (`wp_iff`).  `logged` adds a
  log of what an observer sees.
* A `System` runs one program on each thread, over one shared state, one command at a time in any
  order.  A thread that finishes a round starts the next one.  Every thread carries a ghost value,
  which `hold` updates at its commands.
* `Along` is the judgment on a program whose thread writes down each of its commands with the answer:
  every command finds its precondition in the history so far, whatever the answers are.
  `along_sound` carries it to every interleaving.
* A `Discipline` is a rely–guarantee argument about such a system: a global invariant, what a
  thread must ensure before a command, and what it may rely on between its commands.  `Discipline.Ok`
  is the judgment on one program, and `Discipline.sound` carries it to every interleaving.
-/

namespace Program

/-- A program: finished with a value, or a command and what follows its answer. -/
inductive Prog (C : Type → Type) (α : Type) : Type 1 where
  | ret (a : α) : Prog C α
  | cmd {β : Type} (c : C β) (k : β → Prog C α) : Prog C α

namespace Prog

variable {C : Type → Type} {α β γ : Type}

def bind : Prog C α → (α → Prog C β) → Prog C β
  | .ret a, f => f a
  | .cmd c k, f => .cmd c fun b => (k b).bind f

instance : Monad (Prog C) where
  pure := ret
  bind := bind

/-- The program that performs one command and returns its answer. -/
def perform (c : C β) : Prog C β := .cmd c .ret

@[simp] theorem ret_bind (a : α) (f : α → Prog C β) : (Prog.ret a >>= f) = f a := rfl

@[simp] theorem pure_eq (a : α) : (pure a : Prog C α) = .ret a := rfl

@[simp] theorem cmd_bind (c : C γ) (k : γ → Prog C α) (f : α → Prog C β) :
    (Prog.cmd c k >>= f) = .cmd c fun b => k b >>= f := rfl

@[simp] theorem perform_bind (c : C γ) (f : γ → Prog C β) : (perform c >>= f) = .cmd c f := rfl

@[simp] theorem bind_ret (p : Prog C α) : (p >>= Prog.ret) = p := by
  induction p with
  | ret a => rfl
  | cmd c k ih => exact congrArg (Prog.cmd c) (funext ih)

theorem map_eq (f : α → β) (p : Prog C α) : f <$> p = p >>= fun a => .ret (f a) := rfl

/-- Every command of the program satisfies `P`, whatever the answers are. -/
def Every (P : ∀ ⦃β : Type⦄, C β → Prop) : Prog C α → Prop
  | .ret _ => True
  | .cmd c k => P c ∧ ∀ b, (k b).Every P

theorem Every.bind {P : ∀ ⦃β : Type⦄, C β → Prop} {p : Prog C α} {f : α → Prog C β}
    (hp : p.Every P) (hf : ∀ a, (f a).Every P) : (p >>= f).Every P := by
  induction p with
  | ret a => exact hf a
  | cmd c k ih => exact ⟨hp.1, fun b => ih b (hp.2 b)⟩

theorem Every.mono {P P' : ∀ ⦃β : Type⦄, C β → Prop} {p : Prog C α} (hp : p.Every P)
    (h : ∀ ⦃β : Type⦄ (c : C β), P c → P' c) : p.Every P' := by
  induction p with
  | ret a => trivial
  | cmd c k ih => exact ⟨h c hp.1, fun b => ih b (hp.2 b)⟩

theorem every_step {P : ∀ ⦃β : Type⦄, C β → Prop} {c : C γ} {f : γ → Prog C α} (hc : P c)
    (hf : ∀ b, (f b).Every P) : (perform c >>= f).Every P :=
  ⟨hc, hf⟩

theorem every_last {P : ∀ ⦃β : Type⦄, C β → Prop} {c : C γ} (hc : P c) : (perform c).Every P :=
  ⟨hc, fun _ => trivial⟩

theorem bind_assoc (p : Prog C α) (f : α → Prog C β) (g : β → Prog C γ) :
    (p >>= f) >>= g = p >>= fun a => f a >>= g := by
  induction p with
  | ret a => rfl
  | cmd c k ih => exact congrArg (Prog.cmd c) (funext ih)

end Prog

/-! ### One program alone -/

section Alone

variable {C : Type → Type} {E σ α β : Type} (exec : ∀ ⦃β : Type⦄, C β → E → σ → β × σ)

/-- A run of a program alone, each command with some answer of the outside world. -/
inductive Runs : Prog C α → σ → α → σ → Prop where
  | ret (a : α) (s : σ) : Runs (.ret a) s a s
  | cmd {γ : Type} {c : C γ} {k : γ → Prog C α} {s s' : σ} {a : α} (e : E)
      (t : Runs (k (exec c e s).1) (exec c e s).2 a s') : Runs (.cmd c k) s a s'

/-- `Q` holds of the result of every run. -/
def wp (Q : α → σ → Prop) : Prog C α → σ → Prop
  | .ret a, s => Q a s
  | .cmd c k, s => ∀ e, wp Q (k (exec c e s).1) (exec c e s).2

variable {exec}

theorem wp_iff {Q : α → σ → Prop} {p : Prog C α} {s : σ} :
    wp exec Q p s ↔ ∀ a s', Runs exec p s a s' → Q a s' := by
  induction p generalizing s with
  | ret a =>
      constructor
      · rintro h _ _ ⟨⟩
        exact h
      · exact fun h => h _ _ (.ret a s)
  | cmd c k ih =>
      constructor
      · rintro h _ _ (_ | ⟨e, t⟩)
        exact (ih _).mp (h e) _ _ t
      · exact fun h e => (ih _).mpr fun a s' t => h a s' (.cmd e t)

@[simp] theorem wp_ret {Q : α → σ → Prop} {a : α} {s : σ} : wp exec Q (.ret a) s ↔ Q a s := Iff.rfl

@[simp] theorem wp_cmd {γ : Type} {Q : α → σ → Prop} {c : C γ} {k : γ → Prog C α} {s : σ} :
    wp exec Q (.cmd c k) s ↔ ∀ e, wp exec Q (k (exec c e s).1) (exec c e s).2 := Iff.rfl

/-- A command, with its answer and its effect. -/
theorem wp_step {γ : Type} {Q : α → σ → Prop} {c : C γ} {k : γ → Prog C α} {s : σ}
    (h : ∀ e a t, exec c e s = (a, t) → wp exec Q (k a) t) : wp exec Q (Prog.perform c >>= k) s :=
  fun e => h e _ _ rfl

theorem wp_bind {Q : β → σ → Prop} {p : Prog C α} {f : α → Prog C β} {s : σ} :
    wp exec Q (p >>= f) s ↔ wp exec (fun a s' => wp exec Q (f a) s') p s := by
  induction p generalizing s with
  | ret a => exact Iff.rfl
  | cmd c k ih => exact forall_congr' fun e => ih _

theorem wp_mono {Q Q' : α → σ → Prop} {p : Prog C α} {s : σ} (h : wp exec Q p s)
    (hQ : ∀ a s', Q a s' → Q' a s') : wp exec Q' p s :=
  wp_iff.mpr fun a s' t => hQ a s' (wp_iff.mp h a s' t)

/-- A command whose answer and effect the outside world has no part in. -/
theorem runs_const [Nonempty E] {γ : Type} {c : C γ} {k : γ → Prog C α} {s t s' : σ} {a : γ} {r : α}
    (h : ∀ e, exec c e s = (a, t)) :
    Runs exec (Prog.perform c >>= k) s r s' ↔ Runs exec (k a) t r s' := by
  constructor
  · rintro (_ | ⟨e, t⟩)
    rwa [h e] at t
  · intro t
    obtain ⟨e⟩ := ‹Nonempty E›
    refine .cmd e ?_
    rwa [h e]

variable (exec) in
/-- The run in which the outside world always answers `e`. -/
def replay (e : E) : Prog C α → σ → α × σ
  | .ret a, s => (a, s)
  | .cmd c k, s => replay e (k (exec c e s).1) (exec c e s).2

theorem replay_runs (e : E) (p : Prog C α) (s : σ) :
    Runs exec p s (replay exec e p s).1 (replay exec e p s).2 := by
  induction p generalizing s with
  | ret a => exact .ret a s
  | cmd c k ih => exact .cmd e (ih _ _)

theorem replay_bind (e : E) (p : Prog C α) (f : α → Prog C β) (s : σ) :
    replay exec e (p >>= f) s = replay exec e (f (replay exec e p s).1) (replay exec e p s).2 := by
  induction p generalizing s with
  | ret a => rfl
  | cmd c k ih => exact ih _ _

/-! A program alone, with a log. -/

variable {O : Type} {see : ∀ ⦃β : Type⦄, C β → List O} {os : List O}

variable (exec see) in
/-- The semantics with a log, to which every command adds what an observer sees of it. -/
def logged ⦃β : Type⦄ (c : C β) (e : E) (x : σ × List O) : β × σ × List O :=
  let r := exec c e x.1
  (r.1, r.2, x.2 ++ see c)

/-- A command that the observer does not see leaves the log. -/
theorem wp_logged_cmd {γ : Type} {Q : α → σ × List O → Prop} {c : C γ} {k : γ → Prog C α} {s : σ}
    (hc : see c = [])
    (h : ∀ e, wp (logged exec see) Q (k (exec c e s).1) ((exec c e s).2, os)) :
    wp (logged exec see) Q (.cmd c k) (s, os) := by
  intro e
  have hlog : logged exec see c e (s, os) = ((exec c e s).1, (exec c e s).2, os) := by
    simp only [logged, hc, List.append_nil]
  rw [hlog]
  exact h e

theorem wp_logged_silent {Q : α → σ → Prop} {p : Prog C α} {s : σ}
    (hp : p.Every fun _ c => see c = []) (h : wp exec Q p s) :
    wp (logged exec see) (fun a x => x.2 = os ∧ Q a x.1) p (s, os) := by
  induction p generalizing s with
  | ret a => exact ⟨rfl, h⟩
  | cmd c k ih => exact wp_logged_cmd hp.1 fun e => ih _ (hp.2 _) (h e)

/-- What is in the log stays there. -/
theorem wp_logged_prefix (p : Prog C α) (s : σ) (os : List O) :
    wp (logged exec see) (fun _ x => os <+: x.2) p (s, os) := by
  induction p generalizing s os with
  | ret a => exact List.prefix_rfl
  | cmd c k ih =>
      intro e
      refine wp_mono (ih _ _ (os ++ see c)) fun _ x h => ?_
      exact (List.prefix_append os (see c)).trans h

end Alone

/-! ### Interleaving -/

/-- A thread: between two rounds with the value it carries over, within a round, or ended. -/
inductive Thread (C : Type → Type) (L : Type) : Type 1 where
  | idle (l : L)
  | running (p : Prog C (Option L))
  | stopped

def Thread.isIdle {C : Type → Type} {L : Type} : Thread C L → Bool
  | .idle _ => true
  | .running _ => false
  | .stopped => false

theorem Thread.isIdle_iff {C : Type → Type} {L : Type} {th : Thread C L} :
    th.isIdle = true ↔ ∃ l, th = .idle l := by
  cases th <;> simp [isIdle]

/-- What a finished round leaves: the next round's value, or the end. -/
def Thread.ofResult {C : Type → Type} {L : Type} : Option L → Thread C L
  | some l => .idle l
  | none => .stopped

/-- Threads over one shared state. -/
structure System (C : Type → Type) (E σ G T L : Type) where
  /-- the answer and effect of a command -/
  exec : ∀ ⦃β : Type⦄, C β → E → σ → β × σ
  /-- the thread's ghost value after a command, from the state before it and its answer -/
  hold : ∀ ⦃β : Type⦄, C β → σ → β → G → G
  /-- a round of a thread -/
  body : T → L → Prog C (Option L)
  /-- what else may change the shared state -/
  admin : σ → σ → Prop

/-- The system, with other rounds. -/
def System.withBody {C : Type → Type} {E σ G T L L' : Type} (M : System C E σ G T L)
    (body : T → L' → Prog C (Option L')) : System C E σ G T L' where
  exec := M.exec
  hold := M.hold
  body := body
  admin := M.admin

/-- A configuration: the shared state, the threads and their ghost values. -/
structure Config (C : Type → Type) (σ G T L : Type) where
  shared : σ
  thread : T → Thread C L
  ghost : T → G

section Interleaved

variable {C : Type → Type} {E σ G T L : Type} [DecidableEq T]

/-- One step of some thread, or of the surroundings.  `ok` restricts the commands taken. -/
inductive Step (M : System C E σ G T L) (ok : ∀ ⦃β : Type⦄, T → C β → E → σ → Prop) :
    Config C σ G T L → Config C σ G T L → Prop where
  | start {x : Config C σ G T L} (t : T) {l : L} (h : x.thread t = .idle l) :
      Step M ok x { x with thread := Function.update x.thread t (.running (M.body t l)) }
  | exec {x : Config C σ G T L} (t : T) {β : Type} {c : C β} {k : β → Prog C (Option L)} (e : E)
      (h : x.thread t = .running (.cmd c k)) (hok : ok t c e x.shared) :
      Step M ok x
        { shared := (M.exec c e x.shared).2
          thread := Function.update x.thread t (.running (k (M.exec c e x.shared).1))
          ghost := Function.update x.ghost t
            (M.hold c x.shared (M.exec c e x.shared).1 (x.ghost t)) }
  | finish {x : Config C σ G T L} (t : T) {r : Option L} (h : x.thread t = .running (.ret r)) :
      Step M ok x { x with thread := Function.update x.thread t (.ofResult r) }
  | admin {x : Config C σ G T L} {s : σ} (h : M.admin x.shared s) :
      Step M ok x { x with shared := s }

/-- Every command may be taken. -/
def anyStep : ∀ ⦃β : Type⦄, T → C β → E → σ → Prop := fun _ _ _ _ _ => True

/-- The configurations a run reaches. -/
def Reach (M : System C E σ G T L) (ok : ∀ ⦃β : Type⦄, T → C β → E → σ → Prop) :
    Config C σ G T L → Config C σ G T L → Prop :=
  Relation.ReflTransGen (Step M ok)

theorem Step.mono {M : System C E σ G T L} {ok ok' : ∀ ⦃β : Type⦄, T → C β → E → σ → Prop}
    (h : ∀ ⦃β : Type⦄ t (c : C β) e s, ok t c e s → ok' t c e s) {x y : Config C σ G T L}
    (hs : Step M ok x y) : Step M ok' x y := by
  cases hs with
  | start t ht => exact .start t ht
  | exec t e ht hok => exact .exec t e ht (h t _ e _ hok)
  | finish t ht => exact .finish t ht
  | admin ha => exact .admin ha

theorem Reach.mono {M : System C E σ G T L} {ok ok' : ∀ ⦃β : Type⦄, T → C β → E → σ → Prop}
    (h : ∀ ⦃β : Type⦄ t (c : C β) e s, ok t c e s → ok' t c e s) {x y : Config C σ G T L}
    (hr : Reach M ok x y) : Reach M ok' x y := by
  induction hr with
  | refl => exact .refl
  | tail _ hs ih => exact ih.tail (hs.mono h)

/-- A run whose commands all turn out to be of a kind. -/
theorem Reach.refine {M : System C E σ G T L} {ok ok' : ∀ ⦃β : Type⦄, T → C β → E → σ → Prop}
    {x y : Config C σ G T L}
    (h : ∀ y, Reach M ok x y → ∀ ⦃β : Type⦄ t (c : C β) k e, y.thread t = .running (.cmd c k) →
      ok t c e y.shared → ok' t c e y.shared)
    (hr : Reach M ok x y) : Reach M ok' x y := by
  induction hr with
  | refl => exact .refl
  | @tail y z hy hs ih =>
      refine ih.tail ?_
      cases hs with
      | start t ht => exact .start t ht
      | exec t e ht hok => exact .exec t e ht (h y hy t _ _ e ht hok)
      | finish t ht => exact .finish t ht
      | admin ha => exact .admin ha

/-- What is reached with less help from the surroundings is reached. -/
theorem Reach.of_admin {M : System C E σ G T L} {ok : ∀ ⦃β : Type⦄, T → C β → E → σ → Prop}
    {A : σ → σ → Prop} (hA : ∀ s s', A s s' → M.admin s s') {x y : Config C σ G T L}
    (hr : Reach { M with admin := A } ok x y) : Reach M ok x y := by
  induction hr with
  | refl => exact .refl
  | tail _ hs ih =>
      refine ih.tail ?_
      cases hs with
      | start t ht => exact .start t ht
      | exec t e ht hok => exact .exec t e ht hok
      | finish t ht => exact .finish t ht
      | admin ha => exact .admin (hA _ _ ha)

/-- One step of the thread `t`, with the answer `e` if it is at a command. -/
def advance (M : System C E σ G T L) (t : T) (e : E) (x : Config C σ G T L) : Config C σ G T L :=
  match x.thread t with
  | .idle l => { x with thread := Function.update x.thread t (.running (M.body t l)) }
  | .running (.cmd c k) =>
      { shared := (M.exec c e x.shared).2
        thread := Function.update x.thread t (.running (k (M.exec c e x.shared).1))
        ghost := Function.update x.ghost t
          (M.hold c x.shared (M.exec c e x.shared).1 (x.ghost t)) }
  | .running (.ret r) => { x with thread := Function.update x.thread t (.ofResult r) }
  | .stopped => x

/-- The run that a schedule determines. -/
def play (M : System C E σ G T L) (w : List (T × E)) (x : Config C σ G T L) : Config C σ G T L :=
  w.foldl (fun y te => advance M te.1 te.2 y) x

theorem advance_other {M : System C E σ G T L} {t u : T} {e : E} (h : u ≠ t) (x : Config C σ G T L) :
    (advance M t e x).thread u = x.thread u := by
  unfold advance
  split
  · exact Function.update_of_ne h ..
  · exact Function.update_of_ne h ..
  · exact Function.update_of_ne h ..
  · rfl

/-- A thread that the schedule leaves out stays where it is. -/
theorem play_other {M : System C E σ G T L} {u : T} (w : List (T × E)) (h : ∀ te ∈ w, u ≠ te.1)
    (x : Config C σ G T L) : (play M w x).thread u = x.thread u := by
  induction w generalizing x with
  | nil => rfl
  | cons te w ih =>
      rw [List.forall_mem_cons] at h
      exact (ih h.2 _).trans (advance_other h.1 x)

theorem advance_reach {M : System C E σ G T L} {ok : ∀ ⦃β : Type⦄, T → C β → E → σ → Prop} {t : T}
    {e : E} (h : ∀ ⦃β : Type⦄ (c : C β) s, ok t c e s) (x : Config C σ G T L) :
    Reach M ok x (advance M t e x) := by
  unfold advance
  split
  · exact .single (.start t (by assumption))
  · exact .single (.exec t e (by assumption) (h _ _))
  · exact .single (.finish t (by assumption))
  · exact .refl

/-- A schedule is a run, if its answers are admitted at every command. -/
theorem play_reach {M : System C E σ G T L} {ok : ∀ ⦃β : Type⦄, T → C β → E → σ → Prop}
    {w : List (T × E)} (h : ∀ te ∈ w, ∀ ⦃β : Type⦄ (c : C β) s, ok te.1 c te.2 s)
    (x : Config C σ G T L) : Reach M ok x (play M w x) := by
  induction w generalizing x with
  | nil => exact .refl
  | cons te w ih =>
      exact (advance_reach (h te (by simp)) x).trans (ih (fun te hte => h te (by simp [hte])) _)

/-- What is left of a thread's program after its first commands, with the shared state and the ghost
value they leave, if no other thread takes a step. -/
def follow (M : System C E σ G T L) : List E → Prog C (Option L) → σ × G → Prog C (Option L) × σ × G
  | e :: es, .cmd c k, (s, g) =>
      follow M es (k (M.exec c e s).1) ((M.exec c e s).2, M.hold c s (M.exec c e s).1 g)
  | _, p, x => (p, x)

omit [DecidableEq T] in
theorem follow_cmd (M : System C E σ G T L) (e : E) (es : List E) {β : Type} (c : C β)
    (k : β → Prog C (Option L)) (s : σ) (g : G) :
    follow M (e :: es) (.cmd c k) (s, g) =
      follow M es (k (M.exec c e s).1) ((M.exec c e s).2, M.hold c s (M.exec c e s).1 g) := rfl

omit [DecidableEq T] in
theorem follow_nil (M : System C E σ G T L) (p : Prog C (Option L)) (x : σ × G) :
    follow M [] p x = (p, x) := by cases p <;> rfl

theorem follow_reach {M : System C E σ G T L} {x : Config C σ G T L} {t : T} {p : Prog C (Option L)}
    (hx : x.thread t = .running p) (es : List E) :
    let r := follow M es p (x.shared, x.ghost t)
    Reach M anyStep x
      { shared := r.2.1
        thread := Function.update x.thread t (.running r.1)
        ghost := Function.update x.ghost t r.2.2 } := by
  induction es generalizing x p with
  | nil =>
      simp only [follow_nil]
      rw [← hx, Function.update_eq_self, Function.update_eq_self]
      exact .refl
  | cons e es ih =>
      cases p with
      | ret r =>
          dsimp only [follow]
          rw [← hx, Function.update_eq_self, Function.update_eq_self]
          exact .refl
      | cmd c k =>
          refine Relation.ReflTransGen.head (.exec t e hx trivial) ?_
          have h := ih (x := ⟨(M.exec c e x.shared).2,
            Function.update x.thread t (.running (k (M.exec c e x.shared).1)),
            Function.update x.ghost t (M.hold c x.shared (M.exec c e x.shared).1 (x.ghost t))⟩)
            (Function.update_self ..)
          simp only [Function.update_self, Function.update_idem] at h
          exact h

/-- A thread starts a round, and takes the first commands of it. -/
theorem start_reach {M : System C E σ G T L} {x : Config C σ G T L} {t : T} {l : L} {w : List E}
    {p : Prog C (Option L)} {s : σ} {g : G} (hx : x.thread t = .idle l)
    (h : follow M w (M.body t l) (x.shared, x.ghost t) = (p, s, g)) :
    Reach M anyStep x ⟨s, Function.update x.thread t (.running p), Function.update x.ghost t g⟩ := by
  have hr := follow_reach (M := M) (x := { x with
    thread := Function.update x.thread t (.running (M.body t l)) }) (Function.update_self ..) w
  simp only [Function.update_idem, h] at hr
  exact .head (.start t hx) hr

/-- A thread takes a whole round. -/
theorem round_reach {M : System C E σ G T L} {x : Config C σ G T L} {t : T} {l : L} {w : List E}
    {r : Option L} {s : σ} {g : G} (hx : x.thread t = .idle l)
    (h : follow M w (M.body t l) (x.shared, x.ghost t) = (.ret r, s, g)) :
    Reach M anyStep x ⟨s, Function.update x.thread t (.ofResult r), Function.update x.ghost t g⟩ := by
  have hfin : Step M anyStep
      ⟨s, Function.update x.thread t (.running (.ret r)), Function.update x.ghost t g⟩ _ :=
    .finish t (Function.update_self ..)
  simp only [Function.update_idem] at hfin
  exact (start_reach hx h).tail hfin

/-- What every command keeps, a schedule keeps. -/
theorem play_keeps {M : System C E σ G T L} {P : σ → Prop}
    (h : ∀ ⦃β : Type⦄ (c : C β) e s, P s → P (M.exec c e s).2) (w : List (T × E))
    {x : Config C σ G T L} (hx : P x.shared) : P (play M w x).shared := by
  induction w generalizing x with
  | nil => exact hx
  | cons te w ih =>
      refine ih (?_ : P (advance M te.1 te.2 x).shared)
      unfold advance
      split
      · exact hx
      · exact h _ _ _ hx
      · exact hx
      · exact hx

/-- The steps of a schedule are admitted where they are taken. -/
def PlayOk (M : System C E σ G T L) (ok : ∀ ⦃β : Type⦄, T → C β → E → σ → Prop) :
    List (T × E) → Config C σ G T L → Prop
  | [], _ => True
  | te :: w, x =>
      (match x.thread te.1 with
        | .running (.cmd c _) => ok te.1 c te.2 x.shared
        | _ => True) ∧ PlayOk M ok w (advance M te.1 te.2 x)

/-- An admitted step, unless the thread has ended. -/
theorem PlayOk.step {M : System C E σ G T L} {ok : ∀ ⦃β : Type⦄, T → C β → E → σ → Prop}
    {te : T × E} {w : List (T × E)} {x : Config C σ G T L} (h : PlayOk M ok (te :: w) x) :
    advance M te.1 te.2 x = x ∨ Step M ok x (advance M te.1 te.2 x) := by
  have h₁ := h.1
  unfold advance
  split
  · exact .inr (.start te.1 (by assumption))
  · rename_i hc
    rw [hc] at h₁
    exact .inr (.exec te.1 te.2 hc h₁)
  · exact .inr (.finish te.1 (by assumption))
  · exact .inl rfl

theorem PlayOk.reach {M : System C E σ G T L} {ok : ∀ ⦃β : Type⦄, T → C β → E → σ → Prop}
    {w : List (T × E)} {x : Config C σ G T L} (h : PlayOk M ok w x) :
    Reach M ok x (play M w x) := by
  induction w generalizing x with
  | nil => exact .refl
  | cons te w ih =>
      refine .trans (b := advance M te.1 te.2 x) ?_ (ih h.2)
      rcases h.step with e | hs
      · rw [e]
      · exact .single hs

/-- Whether the steps of a schedule are admitted. -/
instance PlayOk.decidable (M : System C E σ G T L)
    (ok : ∀ ⦃β : Type⦄, T → C β → E → σ → Prop) [∀ β t (c : C β) e s, Decidable (ok t c e s)] :
    ∀ (w : List (T × E)) (x : Config C σ G T L), Decidable (PlayOk M ok w x)
  | [], _ => .isTrue trivial
  | te :: w, x =>
      have := PlayOk.decidable M ok w (advance M te.1 te.2 x)
      match h : x.thread te.1 with
      | .running (.cmd c _) =>
          decidable_of_iff (ok te.1 c te.2 x.shared ∧ PlayOk M ok w (advance M te.1 te.2 x))
            (by simp only [PlayOk, h])
      | .running (.ret _) =>
          decidable_of_iff (PlayOk M ok w (advance M te.1 te.2 x)) (by simp [PlayOk, h])
      | .idle _ => decidable_of_iff (PlayOk M ok w (advance M te.1 te.2 x)) (by simp [PlayOk, h])
      | .stopped => decidable_of_iff (PlayOk M ok w (advance M te.1 te.2 x)) (by simp [PlayOk, h])

/-- Runs in which the ghost values, too, decide which steps are admitted. -/
def ReachIf (M : System C E σ G T L)
    (ok : (T → G) → ∀ ⦃β : Type⦄, T → C β → E → σ → Prop) :
    Config C σ G T L → Config C σ G T L → Prop :=
  Relation.ReflTransGen fun x y => Step M (ok x.ghost) x y

theorem ReachIf.reach {M : System C E σ G T L}
    {ok : (T → G) → ∀ ⦃β : Type⦄, T → C β → E → σ → Prop} {x y : Config C σ G T L}
    (hr : ReachIf M ok x y) : Reach M anyStep x y := by
  induction hr with
  | refl => exact .refl
  | tail _ hs ih => exact ih.tail (hs.mono fun _ _ _ _ _ _ => trivial)

/-- The steps of a schedule are admitted where they are taken. -/
def PlayIf (M : System C E σ G T L) (ok : (T → G) → ∀ ⦃β : Type⦄, T → C β → E → σ → Prop) :
    List (T × E) → Config C σ G T L → Prop
  | [], _ => True
  | te :: w, x => PlayOk M (ok x.ghost) [te] x ∧ PlayIf M ok w (advance M te.1 te.2 x)

theorem PlayIf.reach {M : System C E σ G T L}
    {ok : (T → G) → ∀ ⦃β : Type⦄, T → C β → E → σ → Prop} {w : List (T × E)}
    {x : Config C σ G T L} (h : PlayIf M ok w x) : ReachIf M ok x (play M w x) := by
  induction w generalizing x with
  | nil => exact .refl
  | cons te w ih =>
      refine .trans (b := advance M te.1 te.2 x) ?_ (ih h.2)
      rcases h.1.step with e | hs
      · rw [e]
      · exact .single hs

end Interleaved

/-! ### Rely and guarantee -/

/-- A rely–guarantee argument about the steps of `M` that `ok` admits. -/
structure Discipline {C : Type → Type} {E σ G T L : Type} [DecidableEq T]
    (M : System C E σ G T L) (ok : ∀ ⦃β : Type⦄, T → C β → E → σ → Prop) where
  /-- the invariant of the shared state and every thread's ghost value -/
  inv : σ → (T → G) → Prop
  /-- what the invariant says about one thread's ghost value -/
  fact : G → σ → Prop
  /-- what a thread ensures before a command -/
  pre : ∀ ⦃β : Type⦄, T → C β → G → σ → Prop
  /-- what a thread may rely on while others run -/
  rely : G → σ → σ → Prop
  rely_refl : ∀ g s, rely g s s
  rely_trans : ∀ {g s s' s''}, rely g s s' → rely g s' s'' → rely g s s''
  fact_of_inv : ∀ {s g} t, inv s g → fact (g t) s
  exec_inv : ∀ {s g} t {β : Type} {c : C β} {e}, inv s g → pre t c (g t) s → ok t c e s →
    inv (M.exec c e s).2 (Function.update g t (M.hold c s (M.exec c e s).1 (g t)))
  exec_rely : ∀ {s g} t {β : Type} {c : C β} {e}, inv s g → pre t c (g t) s → ok t c e s →
    ∀ t', t' ≠ t → rely (g t') s (M.exec c e s).2
  admin_inv : ∀ {s s' g}, inv s g → M.admin s s' → inv s' g
  admin_rely : ∀ {s s' g} (t : T), inv s g → M.admin s s' → rely (g t) s s'

namespace Discipline

variable {C : Type → Type} {E σ G T L α β : Type} [DecidableEq T] {M : System C E σ G T L}
  {ok : ∀ ⦃β : Type⦄, T → C β → E → σ → Prop} (D : Discipline M ok)

/-- The thread `t` may go on with the program from here: whatever the others do, it ensures the
precondition of each of its commands, and `Q` at its end. -/
def Ok (t : T) (Q : α → G → σ → Prop) : Prog C α → G → σ → Prop
  | .ret a, g, s => ∀ s', D.rely g s s' → D.fact g s' → Q a g s'
  | .cmd c k, g, s => ∀ s', D.rely g s s' → D.fact g s' → D.pre t c g s' ∧ ∀ e, ok t c e s' →
      Ok t Q (k (M.exec c e s').1) (M.hold c s' (M.exec c e s').1 g) (M.exec c e s').2

variable {D} {t : T} {Q Q' : α → G → σ → Prop} {p : Prog C α} {g : G} {s s' : σ}

theorem Ok.rely (h : D.Ok t Q p g s) (hr : D.rely g s s') : D.Ok t Q p g s' := by
  cases p with
  | ret a => exact fun s'' h' => h s'' (D.rely_trans hr h')
  | cmd c k => exact fun s'' h' => h s'' (D.rely_trans hr h')

theorem Ok.mono (h : D.Ok t Q p g s) (hQ : ∀ a g s, Q a g s → Q' a g s) : D.Ok t Q' p g s := by
  induction p generalizing g s with
  | ret a => exact fun s' hr hf => hQ _ _ _ (h s' hr hf)
  | cmd c k ih =>
      intro s' hr hf
      obtain ⟨hp, hk⟩ := h s' hr hf
      exact ⟨hp, fun e he => ih _ (hk e he)⟩

/-- Sequential composition.  The second program starts wherever the others leave the state. -/
theorem Ok.bind {Q : β → G → σ → Prop} {f : α → Prog C β}
    (h : D.Ok t (fun a g s => D.Ok t Q (f a) g s) p g s) : D.Ok t Q (p >>= f) g s := by
  induction p generalizing g s with
  | ret a =>
      rw [Prog.ret_bind]
      cases hf : f a with
      | ret b =>
          intro s' hr hfact
          have hk : D.Ok t Q (f a) g s' := h s' hr hfact
          rw [hf] at hk
          exact hk s' (D.rely_refl _ _) hfact
      | cmd c k =>
          intro s' hr hfact
          have hk : D.Ok t Q (f a) g s' := h s' hr hfact
          rw [hf] at hk
          exact hk s' (D.rely_refl _ _) hfact
  | cmd c k ih =>
      intro s' hr hf
      obtain ⟨hp, hk⟩ := h s' hr hf
      exact ⟨hp, fun e he => ih _ (hk e he)⟩

variable (D) in
/-- A thread is in order: between rounds `rest` holds, within one the rest of it is. -/
def ThreadOk (rest : T → L → G → σ → Prop) (t : T) : Thread C L → G → σ → Prop
  | .idle l, g, s => rest t l g s
  | .running p, g, s => D.Ok t (fun r g s => ∀ l, r = some l → rest t l g s) p g s
  | .stopped, _, _ => True

variable (D) in
/-- The invariant of a run: the global one, and every thread in order. -/
def Good (rest : T → L → G → σ → Prop) (x : Config C σ G T L) : Prop :=
  D.inv x.shared x.ghost ∧ ∀ t, D.ThreadOk rest t (x.thread t) (x.ghost t) x.shared

/-- What holds at one thread survives a change the thread may rely on. -/
theorem ThreadOk.rely {rest : T → L → G → σ → Prop}
    (hrest : ∀ t l g s s', rest t l g s → D.rely g s s' → D.fact g s' → rest t l g s')
    {th : Thread C L} (h : D.ThreadOk rest t th g s) (hr : D.rely g s s') (hf : D.fact g s') :
    D.ThreadOk rest t th g s' := by
  cases th with
  | idle l => exact hrest t l g s s' h hr hf
  | running p => exact Ok.rely h hr
  | stopped => trivial

variable {rest : T → L → G → σ → Prop} {x y : Config C σ G T L}

theorem Good.step
    (hrest : ∀ t l g s s', rest t l g s → D.rely g s s' → D.fact g s' → rest t l g s')
    (hbody : ∀ t l g s, rest t l g s →
      D.Ok t (fun r g s => ∀ l, r = some l → rest t l g s) (M.body t l) g s)
    (h : D.Good rest x) (hs : Step M ok x y) : D.Good rest y := by
  obtain ⟨hi, ht⟩ := h
  cases hs with
  | start t hl =>
      refine ⟨hi, fun t' => ?_⟩
      by_cases e : t' = t
      · subst e
        simp only [Function.update_self]
        have := ht t'
        rw [hl] at this
        exact hbody _ _ _ _ this
      · simp only [Function.update_of_ne e]
        exact ht t'
  | @exec t β c k e hc hok =>
      have hrun := ht t
      rw [hc] at hrun
      obtain ⟨hp, hk⟩ := hrun _ (D.rely_refl _ _) (D.fact_of_inv t hi)
      have hi' := D.exec_inv t hi hp hok
      refine ⟨hi', fun t' => ?_⟩
      by_cases e' : t' = t
      · subst e'
        simp only [Function.update_self]
        exact hk e hok
      · have hf := D.fact_of_inv t' hi'
        simp only [Function.update_of_ne e'] at hf ⊢
        exact (ht t').rely hrest (D.exec_rely t hi hp hok t' e') hf
  | @finish t r hr =>
      refine ⟨hi, fun t' => ?_⟩
      by_cases e : t' = t
      · subst e
        simp only [Function.update_self]
        have hrun := ht t'
        rw [hr] at hrun
        have := hrun _ (D.rely_refl _ _) (D.fact_of_inv t' hi)
        cases r with
        | none => trivial
        | some l => exact this l rfl
      · simp only [Function.update_of_ne e]
        exact ht t'
  | admin ha =>
      refine ⟨D.admin_inv hi ha, fun t => ?_⟩
      exact (ht t).rely hrest (D.admin_rely t hi ha) (D.fact_of_inv t (D.admin_inv hi ha))

/-- **Soundness.**  If `rest` is stable and every round started from it is in order, every
configuration a run reaches is good. -/
theorem sound
    (hrest : ∀ t l g s s', rest t l g s → D.rely g s s' → D.fact g s' → rest t l g s')
    (hbody : ∀ t l g s, rest t l g s →
      D.Ok t (fun r g s => ∀ l, r = some l → rest t l g s) (M.body t l) g s)
    (h : D.Good rest x) (hr : Reach M ok x y) : D.Good rest y := by
  induction hr with
  | refl => exact h
  | tail _ hs ih => exact ih.step hrest hbody hs

/-- A discipline says nothing of the rounds. -/
def withBody {L' : Type} (D : Discipline M ok) (body : T → L' → Prog C (Option L')) :
    Discipline (M.withBody body) ok where
  inv := D.inv
  fact := D.fact
  pre := D.pre
  rely := D.rely
  rely_refl := D.rely_refl
  rely_trans := D.rely_trans
  fact_of_inv := D.fact_of_inv
  exec_inv := D.exec_inv
  exec_rely := D.exec_rely
  admin_inv := D.admin_inv
  admin_rely := D.admin_rely

theorem Ok.withBody {L' : Type} {body : T → L' → Prog C (Option L')} (h : D.Ok t Q p g s) :
    (D.withBody body).Ok t Q p g s := by
  induction p generalizing g s with
  | ret a => exact h
  | cmd c k ih =>
      intro s' hr hf
      obtain ⟨hp, hk⟩ := h s' hr hf
      exact ⟨hp, fun e he => ih _ (hk e he)⟩

end Discipline

/-! ### Histories -/

section History

variable {C : Type → Type} {N α β : Type} (note : ∀ ⦃β : Type⦄, C β → β → N)
  (pre : ∀ ⦃β : Type⦄, C β → List N → Prop) (ans : ∀ ⦃β : Type⦄, C β → β → Prop)

/-- From the history `h` on, newest first, every command of the program finds its precondition, and
`Q` holds at its end, for all answers that `ans` admits. -/
def Along (Q : α → List N → Prop) : Prog C α → List N → Prop
  | .ret a, h => Q a h
  | .cmd c k, h => pre c h ∧ ∀ a, ans c a → Along Q (k a) (note c a :: h)

variable {note pre ans}

theorem along_step {γ : Type} {Q : α → List N → Prop} {c : C γ} {f : γ → Prog C α} {h : List N}
    (hp : pre c h) (hk : ∀ a, ans c a → Along note pre ans Q (f a) (note c a :: h)) :
    Along note pre ans Q (Prog.perform c >>= f) h :=
  ⟨hp, hk⟩

theorem along_last {γ : Type} {Q : γ → List N → Prop} {c : C γ} {h : List N}
    (hp : pre c h) (hk : ∀ a, ans c a → Q a (note c a :: h)) :
    Along note pre ans Q (Prog.perform c) h :=
  ⟨hp, hk⟩

theorem Along.mono {Q Q' : α → List N → Prop} {p : Prog C α} {h : List N}
    (hp : Along note pre ans Q p h) (hQ : ∀ a h, Q a h → Q' a h) : Along note pre ans Q' p h := by
  induction p generalizing h with
  | ret a => exact hQ a h hp
  | cmd c k ih => exact ⟨hp.1, fun a ha => ih a (hp.2 a ha)⟩

theorem Along.bind {Q : β → List N → Prop} {p : Prog C α} {f : α → Prog C β} {h : List N}
    (hp : Along note pre ans (fun a h => Along note pre ans Q (f a) h) p h) :
    Along note pre ans Q (p >>= f) h := by
  induction p generalizing h with
  | ret a => exact hp
  | cmd c k ih => exact ⟨hp.1, fun a ha => ih a (hp.2 a ha)⟩

/-- A program of commands that need nothing and keep a relation to the history. -/
theorem Along.of_every {P : ∀ ⦃β : Type⦄, C β → Prop} {R : List N → List N → Prop}
    (hrefl : ∀ h, R h h) (hpre : ∀ ⦃β : Type⦄ (c : C β) h h', P c → R h h' → pre c h')
    (hstep : ∀ ⦃β : Type⦄ (c : C β) a h h', P c → R h h' → R h (note c a :: h'))
    {p : Prog C α} (hp : p.Every P) (h : List N) :
    Along note pre ans (fun _ h' => R h h') p h := by
  have hgen : ∀ h', R h h' → Along note pre ans (fun _ h' => R h h') p h' := by
    induction p with
    | ret a => exact fun _ hr => hr
    | cmd c k ih =>
        exact fun h' hr => ⟨hpre c h h' hp.1 hr, fun a _ => ih a (hp.2 a) _ (hstep c a h h' hp.1 hr)⟩
  exact hgen h (hrefl h)

theorem Along.map {Q : β → List N → Prop} {p : Prog C α} {f : α → β} {h : List N}
    (hp : Along note pre ans (fun a h => Q (f a) h) p h) : Along note pre ans Q (f <$> p) h := by
  rw [Prog.map_eq]
  exact hp.bind

variable (note pre ans) in
/-- A thread that keeps a history is in order. -/
def AlongThread {T L : Type} (rest : T → L → List N → Prop) (t : T) : Thread C L → List N → Prop
  | .idle l, h => rest t l h
  | .running p, h => Along note pre ans (fun r h => ∀ l, r = some l → rest t l h) p h
  | .stopped, _ => True

variable {E σ T L : Type} [DecidableEq T] {M : System C E σ (List N) T L}
  {ok : ∀ ⦃β : Type⦄, T → C β → E → σ → Prop}

/-- A discipline may use what the histories ensure. -/
theorem Along.toOk {D : Discipline M ok}
    (hold : ∀ ⦃β : Type⦄ (c : C β) s a h, M.hold c s a h = note c a :: h)
    (hans : ∀ ⦃β : Type⦄ t (c : C β) e s, ok t c e s → ans c (M.exec c e s).1) {t : T}
    (hpre : ∀ ⦃β : Type⦄ (c : C β) h s, pre c h → D.pre t c h s) {Q : α → List N → Prop}
    {p : Prog C α} {h : List N} (hp : Along note pre ans Q p h) (s : σ) :
    D.Ok t (fun a h _ => Q a h) p h s := by
  induction p generalizing h s with
  | ret a => exact fun _ _ _ => hp
  | cmd c k ih =>
      intro s' _ _
      refine ⟨hpre c h s' hp.1, fun e he => ?_⟩
      rw [hold]
      exact ih _ (hp.2 _ (hans t c e s' he)) _

/-- **Soundness.**  If the rounds keep the preconditions, and a command that finds its precondition
keeps `inv`, every history of a run satisfies `inv`. -/
theorem along_sound (hold : ∀ ⦃β : Type⦄ (c : C β) s a h, M.hold c s a h = note c a :: h)
    (hans : ∀ ⦃β : Type⦄ t (c : C β) e s, ok t c e s → ans c (M.exec c e s).1)
    {inv : List N → Prop}
    (hinv : ∀ ⦃β : Type⦄ (c : C β) a h, inv h → pre c h → ans c a → inv (note c a :: h))
    {rest : T → L → List N → Prop}
    (hbody : ∀ t l h, rest t l h →
      Along note pre ans (fun r h => ∀ l, r = some l → rest t l h) (M.body t l) h)
    {x y : Config C σ (List N) T L}
    (hx : ∀ t, inv (x.ghost t) ∧ AlongThread note pre ans rest t (x.thread t) (x.ghost t))
    (hr : Reach M ok x y) :
    ∀ t, inv (y.ghost t) ∧ AlongThread note pre ans rest t (y.thread t) (y.ghost t) := by
  induction hr with
  | refl => exact hx
  | @tail y z _ hs ih =>
      intro u
      obtain ⟨hi, ht⟩ := ih u
      cases hs with
      | start t hl =>
          refine ⟨hi, ?_⟩
          by_cases e : u = t
          · subst e
            rw [hl] at ht
            simp only [Function.update_self]
            exact hbody _ _ _ ht
          · simpa only [Function.update_of_ne e] using ht
      | @exec t β c k e hc hok =>
          by_cases e' : u = t
          · subst e'
            rw [hc] at ht
            have ha := hans u c e y.shared hok
            simp only [Function.update_self, hold]
            exact ⟨hinv c _ _ hi ht.1 ha, ht.2 _ ha⟩
          · simp only [Function.update_of_ne e']
            exact ⟨hi, ht⟩
      | @finish t r hr =>
          refine ⟨hi, ?_⟩
          by_cases e : u = t
          · subst e
            rw [hr] at ht
            simp only [Function.update_self]
            cases r with
            | none => trivial
            | some l => exact ht l rfl
          · simpa only [Function.update_of_ne e] using ht
      | admin ha => exact ⟨hi, ht⟩

end History

end Program
