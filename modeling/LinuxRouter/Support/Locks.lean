import Mathlib.Data.Set.Finite.Basic
import Mathlib.Logic.Hydra
import Mathlib.Tactic.Abel
import LinuxRouter.Support.Simulation

/-!
# Support — Locks

Threads that take and release locks, mutexes and reader–writer locks, in a fixed order.

`Code` is what a thread does with its locks; what it decides by other data is a `choose`, which may
come out any way, and `outside` is a call that waits for somebody else.  A thread starts its code anew
whenever it is idle, and a step of any thread may come next.

* `Ok rank hs p hs'` is the judgment on a code: from the locks `hs` on it takes each lock above all
  that it holds, waits for the outside only without a lock, and ends with the locks `hs'`.
* `Good.step`: in a system of such codes every thread stays in order.
* `Good.chain`: a thread that waits for a lock waits, directly or through others, for one that holds a
  lock and can go on.
* `no_deadlock`: so without new rounds every run ends, and only when all threads are idle.
-/

namespace Locks

/-- How a lock is held; a mutex is taken to write. -/
inductive Mode where
  | read
  | write
  deriving DecidableEq

/-- What a thread does with its locks. -/
inductive Code (K : Type) : Type 1 where
  | done
  | lock (k : K) (m : Mode) (p : Code K)
  | unlock (k : K) (p : Code K)
  | outside (p : Code K)
  | choose {β : Type} (inhabited : Nonempty β) (p : β → Code K)

namespace Code

variable {K : Type}

/-- One after the other. -/
def seq : Code K → Code K → Code K
  | .done, q => q
  | .lock k m p, q => .lock k m (p.seq q)
  | .unlock k p, q => .unlock k (p.seq q)
  | .outside p, q => .outside (p.seq q)
  | .choose h p, q => .choose h fun b => (p b).seq q

/-- One of the two. -/
def either (p q : Code K) : Code K := .choose (β := Bool) ⟨true⟩ fun b => if b then p else q

/-- The code `n` times. -/
def times (p : Code K) : ℕ → Code K
  | 0 => .done
  | n + 1 => p.seq (p.times n)

/-- The code any number of times. -/
def loop (p : Code K) : Code K := .choose (β := ℕ) ⟨0⟩ p.times

/-- The code between lock and unlock. -/
def within (k : K) (m : Mode) (p : Code K) : Code K := .lock k m (p.seq (.unlock k .done))

/-- All of them, in order. -/
def all : List (Code K) → Code K
  | [] => .done
  | p :: ps => p.seq (all ps)

/-- One of them. -/
def oneOf : List (Code K) → Code K
  | [] => .done
  | p :: ps => p.either (oneOf ps)

end Code

/-! ### The judgment -/

section Judgment

variable {K : Type} [DecidableEq K] {rank : K → ℕ} {p q : Code K} {hs hs' hs'' : List (K × Mode)}
  {k : K} {m : Mode}

/-- From the locks `hs` on the code keeps the order of the locks, and ends with `hs'`. -/
def Ok (rank : K → ℕ) (hs' : List (K × Mode)) : Code K → List (K × Mode) → Prop
  | .done, hs => hs = hs'
  | .lock k m p, hs => (∀ h ∈ hs, rank h.1 < rank k) ∧ Ok rank hs' p ((k, m) :: hs)
  | .unlock k p, hs => (∃ h ∈ hs, h.1 = k) ∧ Ok rank hs' p (hs.eraseP (·.1 = k))
  | .outside p, hs => hs = [] ∧ Ok rank hs' p hs
  | .choose _ p, hs => ∀ b, Ok rank hs' (p b) hs

theorem Ok.seq (hp : Ok rank hs' p hs) (hq : Ok rank hs'' q hs') : Ok rank hs'' (p.seq q) hs := by
  induction p generalizing hs with
  | done =>
      obtain rfl : hs = hs' := hp
      exact hq
  | lock k m p ih => exact ⟨hp.1, ih hp.2⟩
  | unlock k p ih => exact ⟨hp.1, ih hp.2⟩
  | outside p ih => exact ⟨hp.1, ih hp.2⟩
  | choose h p ih => exact fun b => ih b (hp b)

theorem Ok.either (hp : Ok rank hs' p hs) (hq : Ok rank hs' q hs) : Ok rank hs' (p.either q) hs := by
  intro b
  cases b
  · exact hq
  · exact hp

theorem Ok.loop (hp : Ok rank hs p hs) : Ok rank hs p.loop hs := by
  intro n
  induction n with
  | zero => exact rfl
  | succ n ih => exact hp.seq ih

/-- A section, taken above all that is held. -/
theorem Ok.within (hk : ∀ h ∈ hs, rank h.1 < rank k) (hp : Ok rank ((k, m) :: hs) p ((k, m) :: hs)) :
    Ok rank hs (p.within k m) hs := by
  refine ⟨hk, hp.seq ⟨⟨(k, m), List.mem_cons_self, rfl⟩, ?_⟩⟩
  simp [Ok]

theorem Ok.all {ps : List (Code K)} (h : ∀ p ∈ ps, Ok rank hs p hs) : Ok rank hs (Code.all ps) hs := by
  induction ps with
  | nil => exact rfl
  | cons p ps ih =>
      rw [List.forall_mem_cons] at h
      exact h.1.seq (ih h.2)

theorem Ok.oneOf {ps : List (Code K)} (h : ∀ p ∈ ps, Ok rank hs p hs) :
    Ok rank hs (Code.oneOf ps) hs := by
  induction ps with
  | nil => exact rfl
  | cons p ps ih =>
      rw [List.forall_mem_cons] at h
      exact h.1.either (ih h.2)

end Judgment

/-! ### Interleaving -/

/-- A thread: between two rounds, or at a code with the locks that it holds. -/
inductive Thread (K : Type) : Type 1 where
  | idle
  | busy (p : Code K) (hs : List (K × Mode))

variable {K T : Type} [DecidableEq T]

/-- Two threads may hold a lock at once only to read. -/
def Mode.shares (m m' : Mode) : Prop := m = .read ∧ m' = .read

/-- The locks of a thread. -/
def Thread.held : Thread K → List (K × Mode)
  | .idle => []
  | .busy _ hs => hs

/-- Nobody holds the lock in a way that keeps it from being taken. -/
def Free (x : T → Thread K) (k : K) (m : Mode) : Prop :=
  ∀ t m', (k, m') ∈ (x t).held → m.shares m'

/-- A step of a thread within its round. -/
inductive Go [DecidableEq K] (x : T → Thread K) : (T → Thread K) → Prop where
  | lock (t : T) {k : K} {m : Mode} {p : Code K} {hs : List (K × Mode)}
      (h : x t = .busy (.lock k m p) hs) (hf : Free x k m) :
      Go x (Function.update x t (.busy p ((k, m) :: hs)))
  | unlock (t : T) {k : K} {p : Code K} {hs : List (K × Mode)} (h : x t = .busy (.unlock k p) hs) :
      Go x (Function.update x t (.busy p (hs.eraseP (·.1 = k))))
  | outside (t : T) {p : Code K} {hs : List (K × Mode)} (h : x t = .busy (.outside p) hs) :
      Go x (Function.update x t (.busy p hs))
  | choose (t : T) {β : Type} {hβ : Nonempty β} {p : β → Code K} {hs : List (K × Mode)} (b : β)
      (h : x t = .busy (.choose hβ p) hs) : Go x (Function.update x t (.busy (p b) hs))
  | finish (t : T) {hs : List (K × Mode)} (h : x t = .busy .done hs) :
      Go x (Function.update x t .idle)

/-- A step of the system: of a thread within its round, or the start of one. -/
inductive Step [DecidableEq K] (body : T → Code K) (x : T → Thread K) : (T → Thread K) → Prop where
  | go {y : T → Thread K} (h : Go x y) : Step body x y
  | start (t : T) (h : x t = .idle) : Step body x (Function.update x t (.busy (body t) []))

/-- What the system reaches from where every thread is idle. -/
def Reach [DecidableEq K] (body : T → Code K) (x : T → Thread K) : Prop :=
  Relation.ReflTransGen (Step body) (fun _ => .idle) x

section Reach

variable [DecidableEq K] {body : T → Code K} {x : T → Thread K} {t : T} {p : Code K}
  {hs : List (K × Mode)} {k : K} {m : Mode}

theorem Reach.start (h : Reach body x) (t : T) (ht : x t = .idle) :
    Reach body (Function.update x t (.busy (body t) [])) := .tail h (.start t ht)

/-- What a thread does next, while the others stay where they are. -/
theorem Reach.go {a b : Thread K} (h : Reach body (Function.update x t a))
    (hs : Go (Function.update x t a) (Function.update (Function.update x t a) t b)) :
    Reach body (Function.update x t b) := by
  rw [Function.update_idem] at hs
  exact .tail h (.go hs)

theorem Reach.lock (h : Reach body (Function.update x t (.busy (.lock k m p) hs)))
    (hf : Free (Function.update x t (.busy (.lock k m p) hs)) k m) :
    Reach body (Function.update x t (.busy p ((k, m) :: hs))) :=
  h.go (.lock t (Function.update_self ..) hf)

theorem Reach.outside (h : Reach body (Function.update x t (.busy (.outside p) hs))) :
    Reach body (Function.update x t (.busy p hs)) :=
  h.go (.outside t (Function.update_self ..))

theorem Reach.choose {β : Type} {hβ : Nonempty β} {p : β → Code K}
    (h : Reach body (Function.update x t (.busy (.choose hβ p) hs))) (b : β) :
    Reach body (Function.update x t (.busy (p b) hs)) :=
  h.go (.choose t b (Function.update_self ..))

omit [DecidableEq T] [DecidableEq K] in
theorem Free.idle : Free (fun _ : T => Thread.idle) k m := by
  intro t m' ht
  cases ht

omit [DecidableEq K] in
theorem Free.update {a : Thread K} (h : Free x k m) (ha : ∀ m', (k, m') ∈ a.held → m.shares m') :
    Free (Function.update x t a) k m := by
  intro u m' hu
  by_cases e : u = t
  · subst e
    rw [Function.update_self] at hu
    exact ha m' hu
  · rw [Function.update_of_ne e] at hu
    exact h u m' hu

end Reach

/-- Every thread is in order. -/
def Good [DecidableEq K] (rank : K → ℕ) (x : T → Thread K) : Prop :=
  ∀ t p hs, x t = .busy p hs → Ok rank [] p hs

section Good

variable [DecidableEq K] {rank : K → ℕ} {body : T → Code K} {x y : T → Thread K}

theorem Good.update (h : Good rank x) {t : T} {p : Code K} {hs : List (K × Mode)} (hp : Ok rank [] p hs) :
    Good rank (Function.update x t (.busy p hs)) := by
  intro u q gs hu
  by_cases e : u = t
  · subst e
    rw [Function.update_self] at hu
    cases hu
    exact hp
  · rw [Function.update_of_ne e] at hu
    exact h u q gs hu

theorem Good.go (h : Good rank x) (hs : Go x y) : Good rank y := by
  cases hs with
  | lock t ht hf => exact h.update (h t _ _ ht).2
  | unlock t ht => exact h.update (h t _ _ ht).2
  | outside t ht => exact h.update (h t _ _ ht).2
  | choose t b ht => exact h.update (h t _ _ ht b)
  | finish t ht =>
      intro u q gs hu
      by_cases e : u = t
      · subst e
        rw [Function.update_self] at hu
        cases hu
      · rw [Function.update_of_ne e] at hu
        exact h u q gs hu

theorem Good.step (hbody : ∀ t, Ok rank [] (body t) []) (h : Good rank x) (hs : Step body x y) :
    Good rank y := by
  cases hs with
  | go hg => exact h.go hg
  | start t ht => exact h.update (hbody t)

theorem Reach.good (hbody : ∀ t, Ok rank [] (body t) []) (h : Reach body x) : Good rank x := by
  induction h with
  | refl =>
      intro t p hs e
      cases e
  | tail _ hs ih => exact ih.step hbody hs

/-- The thread `t` is at a lock that `u` keeps from it. -/
def WaitsFor (x : T → Thread K) (t u : T) : Prop :=
  ∃ k m p hs m', x t = .busy (.lock k m p) hs ∧ (k, m') ∈ (x u).held ∧ ¬m.shares m'

omit [DecidableEq T] in
/-- A thread that holds a lock, and is at no other that is taken. -/
def Runs (x : T → Thread K) (u : T) : Prop :=
  ∃ p hs, x u = .busy p hs ∧ ∀ k m q, p = .lock k m q → Free x k m

omit [DecidableEq T] [DecidableEq K] in
/-- A thread that cannot go on is at a lock that another one keeps from it. -/
theorem exists_waitsFor {t : T} {p : Code K} {hs : List (K × Mode)} (ht : x t = .busy p hs)
    (hr : ¬Runs x t) :
    ∃ k m q, p = .lock k m q ∧ ∃ u m', (k, m') ∈ (x u).held ∧ ¬m.shares m' := by
  by_contra hn
  refine hr ⟨p, hs, ht, fun k m q e u m' hu => ?_⟩
  by_contra hm
  exact hn ⟨k, m, q, e, u, m', hu, hm⟩

omit [DecidableEq T] in
/-- **A thread waits for one that can go on**, directly or through others. -/
theorem Good.chain {N : ℕ} (hN : ∀ k, rank k ≤ N) (h : Good rank x) {t : T} {p : Code K}
    {hs : List (K × Mode)} (ht : x t = .busy p hs) :
    ∃ u, Relation.ReflTransGen (WaitsFor x) t u ∧ Runs x u := by
  by_cases hr : Runs x t
  · exact ⟨t, .refl, hr⟩
  obtain ⟨k, m, q, rfl, hk⟩ := exists_waitsFor ht hr
  induction hd : N - rank k using Nat.strong_induction_on generalizing t k m q hs with
  | _ d ih =>
      obtain ⟨u, m', hu, hm⟩ := hk
      have hwait : WaitsFor x t u := ⟨k, m, q, hs, m', ht, hu, hm⟩
      by_cases hru : Runs x u
      · exact ⟨u, .single hwait, hru⟩
      cases hxu : x u with
      | idle =>
          rw [hxu] at hu
          cases hu
      | busy p' gs =>
          -- the owner is at a lock above the one it keeps
          obtain ⟨k', m'', q', rfl, hk'⟩ := exists_waitsFor hxu hru
          rw [hxu] at hu
          have hlt : rank k < rank k' := (h u _ _ hxu).1 (k, m') hu
          have hle := hN k'
          obtain ⟨v, huv, hv⟩ := ih (N - rank k') (by omega) hru k' m'' q' hk' hxu rfl
          exact ⟨v, .head hwait huv, hv⟩

theorem Runs.go {u : T} (h : Runs x u) : ∃ y, Go x y := by
  obtain ⟨p, hs, hu, hfree⟩ := h
  cases p with
  | done => exact ⟨_, .finish u hu⟩
  | lock k m p => exact ⟨_, .lock u hu (hfree k m p rfl)⟩
  | unlock k p => exact ⟨_, .unlock u hu⟩
  | outside p => exact ⟨_, .outside u hu⟩
  | choose hβ p =>
      obtain ⟨b⟩ := hβ
      exact ⟨_, .choose u b hu⟩

end Good

/-! ### No deadlock -/

/-- What is left of a code after a step. -/
inductive Rest {K : Type} : Code K → Code K → Prop where
  | lock (k : K) (m : Mode) (p : Code K) : Rest p (.lock k m p)
  | unlock (k : K) (p : Code K) : Rest p (.unlock k p)
  | outside (p : Code K) : Rest p (.outside p)
  | choose {β : Type} (hβ : Nonempty β) (p : β → Code K) (b : β) : Rest (p b) (.choose hβ p)

theorem rest_wf {K : Type} : WellFounded (Rest (K := K)) := by
  constructor
  intro p
  induction p with
  | done => exact .intro _ fun q hq => by cases hq
  | lock k m p ih | unlock k p ih | outside p ih =>
      refine .intro _ fun q hq => ?_
      cases hq
      exact ih
  | choose hβ p ih =>
      refine .intro _ fun q hq => ?_
      cases hq
      exact ih _

section NoDeadlock

variable [DecidableEq K] {rank : K → ℕ} {x y : T → Thread K}

/-- What is left of a thread's round. -/
def Thread.code : Thread K → Multiset (Code K)
  | .idle => 0
  | .busy p _ => {p}

/-- What is left of the rounds of some threads. -/
def codes (S : Finset T) (x : T → Thread K) : Multiset (Code K) := ∑ t ∈ S, (x t).code

omit [DecidableEq K] in
theorem codes_update {S : Finset T} {t : T} (ht : t ∈ S) (a : Thread K) :
    codes S (Function.update x t a) + (x t).code = codes S x + a.code := by
  have hrest : ∑ u ∈ S.erase t, (Function.update x t a u).code = ∑ u ∈ S.erase t, (x u).code :=
    Finset.sum_congr rfl fun u hu => by rw [Function.update_of_ne (Finset.ne_of_mem_erase hu)]
  unfold codes
  rw [← Finset.add_sum_erase S _ ht, ← Finset.add_sum_erase S (fun u => (x u).code) ht, hrest,
    Function.update_self]
  abel

/-- The threads outside `S` are idle. -/
def IdleOff (S : Finset T) (x : T → Thread K) : Prop := ∀ t, t ∉ S → x t = .idle

omit [DecidableEq K] in
theorem IdleOff.update {S : Finset T} (h : IdleOff S x) {t : T} (ht : x t ≠ .idle) (a : Thread K) :
    t ∈ S ∧ IdleOff S (Function.update x t a) := by
  have hmem : t ∈ S := by
    by_contra hn
    exact ht (h t hn)
  refine ⟨hmem, fun u hu => ?_⟩
  have e : u ≠ t := by
    rintro rfl
    exact hu hmem
  rw [Function.update_of_ne e]
  exact h u hu

/-- A step within a round leaves less of one code. -/
theorem go_descends (S : Finset T) :
    Simulation.Descends (Go (T := T) (K := K)) (IdleOff S) (Relation.CutExpand Rest) (codes S) := by
  intro x y hx hs
  have hmove : ∀ {t : T} {p q : Code K} {hs gs : List (K × Mode)}, x t = .busy p hs → Rest q p →
      IdleOff S (Function.update x t (.busy q gs)) ∧
        Relation.CutExpand Rest (codes S (Function.update x t (.busy q gs))) (codes S x) := by
    intro t p q hs gs ht hr
    obtain ⟨hmem, hoff⟩ := hx.update (t := t) (by simp [ht]) (.busy q gs)
    refine ⟨hoff, {q}, p, fun a ha => ?_, ?_⟩
    · obtain rfl := Multiset.mem_singleton.mp ha
      exact hr
    · have hc := codes_update (x := x) hmem (.busy q gs)
      rw [ht] at hc
      exact hc
  cases hs with
  | lock t ht hf => exact hmove ht (.lock _ _ _)
  | unlock t ht => exact hmove ht (.unlock _ _)
  | outside t ht => exact hmove ht (.outside _)
  | choose t b ht => exact hmove ht (.choose _ _ b)
  | finish t ht =>
      obtain ⟨hmem, hoff⟩ := hx.update (t := t) (by simp [ht]) .idle
      refine ⟨hoff, 0, .done, fun a ha => absurd ha (Multiset.notMem_zero a), ?_⟩
      have hc := codes_update (x := x) hmem .idle
      rw [ht] at hc
      exact hc

/-- Only finitely many threads are busy. -/
theorem Reach.idleOff {body : T → Code K} (h : Reach body x) : ∃ S : Finset T, IdleOff S x := by
  induction h with
  | refl => exact ⟨∅, fun _ _ => rfl⟩
  | tail _ hs ih =>
      obtain ⟨S, hS⟩ := ih
      cases hs with
      | go hg => exact ⟨S, ((go_descends S) hS hg).1⟩
      | start t ht =>
          refine ⟨insert t S, fun u hu => ?_⟩
          rw [Finset.mem_insert, not_or] at hu
          rw [Function.update_of_ne hu.1]
          exact hS u hu.2

/-- **No deadlock.**  From whatever is reached, without new rounds, every run ends; and it can end
only when all threads are idle. -/
theorem no_deadlock {body : T → Code K} {N : ℕ} (hN : ∀ k, rank k ≤ N)
    (hbody : ∀ t, Ok rank [] (body t) []) (h : Reach body x) :
    Acc (fun z y => Go y z) x ∧
      ∀ y, Relation.ReflTransGen Go x y → (∀ z, ¬Go y z) → ∀ t, y t = .idle := by
  obtain ⟨S, hS⟩ := h.idleOff
  refine ⟨(go_descends S).acc (rest_wf.cutExpand) hS, fun y hy hstuck t => ?_⟩
  have hgood : Good rank y := by
    clear hstuck
    induction hy with
    | refl => exact h.good hbody
    | tail _ hs ih => exact ih.go hs
  cases hyt : y t with
  | idle => rfl
  | busy p hs =>
      obtain ⟨u, -, hu⟩ := hgood.chain hN hyt
      obtain ⟨z, hz⟩ := hu.go
      exact absurd hz (hstuck z)

end NoDeadlock

end Locks
