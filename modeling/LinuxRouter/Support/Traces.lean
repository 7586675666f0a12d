import LinuxRouter.Support.Handle
import LinuxRouter.Support.Locks

/-!
# Support — Traces

What a program does with its locks, against a code that states it.

A `Locks.Code` has the locks of a function and no data.  A program has the data, and each of its
commands stands for a code.  The two are compared by what an observer of the locks sees of them.

* `Trace p es`: a run of the code `p` has the events `es`.
* `Locked loc p a es`: a run of the program `p` that ends with `a` has the events `es`, where `loc` is
  the code of each command; what a command answers is left open.
* `Admits q es`: `es` is a trace of `q`, but for sections of `q` in which nothing happens.
* `Follows loc p e q`: what the program does, followed by what the code `e` of its result may do, is
  admitted by `q`.  `Follows.bind` and `Follows.handle` build it up from the commands, and
  `Rounds.admits` carries it to a thread, from one round to the next.
* `Admits.inOrder`: what is admitted by a code in order is in order.

An empty section may be left out because that changes nothing for the order: whatever is held when it
is entered is held after it.  So a program may be silent where the source takes a lock only to read one
word that the program does not use.  The judgment carries the code of what follows, so that a round
can say of each of its results what the thread has still to do.
-/

namespace Locks

open Program (Prog)

/-- What is seen of a thread. -/
inductive Event (K : Type) where
  | lock (k : K) (m : Mode)
  | unlock (k : K)
  | outside

/-! ### Traces of a code -/

section Trace

variable {K : Type} {p p' q q' r : Code K} {es es' fs fs' gs : List (Event K)} {k : K} {m : Mode}

/-- The code has a run with these events. -/
inductive Trace : Code K → List (Event K) → Prop where
  | done : Trace .done []
  | lock (k : K) (m : Mode) {p : Code K} {es : List (Event K)} (h : Trace p es) :
      Trace (.lock k m p) (.lock k m :: es)
  | unlock (k : K) {p : Code K} {es : List (Event K)} (h : Trace p es) :
      Trace (.unlock k p) (.unlock k :: es)
  | outside {p : Code K} {es : List (Event K)} (h : Trace p es) : Trace (.outside p) (.outside :: es)
  | choose {β : Type} (hβ : Nonempty β) {p : β → Code K} (b : β) {es : List (Event K)}
      (h : Trace (p b) es) : Trace (.choose hβ p) es

/-- A run of the one and a run of the other are one of both. -/
theorem Trace.seq (hp : Trace p es) (hq : Trace q fs) : Trace (p.seq q) (es ++ fs) := by
  induction hp with
  | done => exact hq
  | lock k m _ ih => exact .lock k m ih
  | unlock k _ ih => exact .unlock k ih
  | outside _ ih => exact .outside ih
  | choose hβ b _ ih => exact .choose hβ b ih

/-- A run of two codes is one of each. -/
theorem Trace.of_seq (h : Trace (p.seq q) es) :
    ∃ fs gs, es = fs ++ gs ∧ Trace p fs ∧ Trace q gs := by
  induction p generalizing es with
  | done => exact ⟨[], es, rfl, .done, h⟩
  | lock k m p ih =>
      cases h with
      | lock _ _ h =>
          obtain ⟨fs, gs, rfl, hf, hg⟩ := ih h
          exact ⟨.lock k m :: fs, gs, rfl, .lock k m hf, hg⟩
  | unlock k p ih =>
      cases h with
      | unlock _ h =>
          obtain ⟨fs, gs, rfl, hf, hg⟩ := ih h
          exact ⟨.unlock k :: fs, gs, rfl, .unlock k hf, hg⟩
  | outside p ih =>
      cases h with
      | outside h =>
          obtain ⟨fs, gs, rfl, hf, hg⟩ := ih h
          exact ⟨.outside :: fs, gs, rfl, .outside hf, hg⟩
  | choose hβ p ih =>
      cases h with
      | choose _ b h =>
          obtain ⟨fs, gs, rfl, hf, hg⟩ := ih b h
          exact ⟨fs, gs, rfl, .choose hβ b hf, hg⟩

/-! ### Sections that are left out -/

/-- One section is left out, in which nothing happens. -/
inductive Skip : List (Event K) → List (Event K) → Prop where
  | here (k : K) (m : Mode) (es : List (Event K)) : Skip es (.lock k m :: .unlock k :: es)
  | later (e : Event K) {es fs : List (Event K)} (h : Skip es fs) : Skip (e :: es) (e :: fs)

/-- Any number of them is left out. -/
def Thinner : List (Event K) → List (Event K) → Prop := Relation.ReflTransGen Skip

/-- What stands before the section stays. -/
theorem Skip.append_left (gs : List (Event K)) (h : Skip es fs) : Skip (gs ++ es) (gs ++ fs) := by
  induction gs with
  | nil => exact h
  | cons e gs ih => exact .later e ih

/-- What stands behind it stays. -/
theorem Skip.append_right (gs : List (Event K)) (h : Skip es fs) : Skip (es ++ gs) (fs ++ gs) := by
  induction h with
  | here k m es => exact .here k m (es ++ gs)
  | later e _ ih => exact .later e ih

/-- Sections are left out of the one and of the other. -/
theorem Thinner.append (h : Thinner es fs) (h' : Thinner es' fs') : Thinner (es ++ es') (fs ++ fs') :=
  (h.lift (· ++ es') fun _ _ hs => hs.append_right es').trans
    (h'.lift (fs ++ ·) fun _ _ hs => hs.append_left fs)

/-- The events are a run of the code, but for sections in which nothing happens. -/
def Admits (q : Code K) (es : List (Event K)) : Prop := ∃ fs, Trace q fs ∧ Thinner es fs

/-- A run as it is. -/
theorem Trace.admits (h : Trace q es) : Admits q es := ⟨es, h, .refl⟩

/-- Sections may be left out of what is admitted. -/
theorem Admits.thinner (h : Thinner es fs) (hq : Admits q fs) : Admits q es := by
  obtain ⟨gs, hg, ht⟩ := hq
  exact ⟨gs, hg, h.trans ht⟩

/-- One after the other. -/
theorem Admits.seq (hp : Admits p es) (hq : Admits q fs) : Admits (p.seq q) (es ++ fs) := by
  obtain ⟨es', hp, he⟩ := hp
  obtain ⟨fs', hq, hf⟩ := hq
  exact ⟨es' ++ fs', hp.seq hq, he.append hf⟩

/-! ### One code within another -/

/-- What the one admits, the other does. -/
def Refines (p q : Code K) : Prop := ∀ es, Admits p es → Admits q es

/-- It is enough to look at the runs of the one. -/
theorem Refines.of_trace (h : ∀ es, Trace p es → Admits q es) : Refines p q := by
  rintro es ⟨fs, hf, ht⟩
  exact (h fs hf).thinner ht

theorem Refines.refl : Refines p p := fun _ h => h

theorem Refines.trans (h : Refines p q) (h' : Refines q r) : Refines p r := fun es hp => h' es (h es hp)

/-- Two codes, each within its own. -/
theorem Refines.seq (hp : Refines p p') (hq : Refines q q') : Refines (p.seq q) (p'.seq q') := by
  refine .of_trace fun es h => ?_
  obtain ⟨fs, gs, rfl, hf, hg⟩ := h.of_seq
  exact (hp fs hf.admits).seq (hq gs hg.admits)

theorem Refines.either_left : Refines p (p.either q) := .of_trace fun _ h => (Trace.choose _ true h).admits

theorem Refines.either_right : Refines q (p.either q) := .of_trace fun _ h => (Trace.choose _ false h).admits

/-- One of the codes that there is a choice from. -/
theorem Refines.oneOf {ps : List (Code K)} (h : p ∈ ps) : Refines p (Code.oneOf ps) := by
  induction h with
  | head ps => exact .either_left
  | tail q _ ih => exact ih.trans .either_right

/-- A loop may end, -/
theorem Refines.loop_done : Refines .done p.loop := .of_trace fun _ h => (Trace.choose _ 0 h).admits

/-- or go on. -/
theorem Refines.loop_next : Refines (p.seq p.loop) p.loop := by
  refine .of_trace fun es h => ?_
  obtain ⟨fs, gs, rfl, hf, hg⟩ := h.of_seq
  cases hg with
  | choose _ n hg => exact (Trace.choose _ (n + 1) (hf.seq hg)).admits

/-- A code with nothing behind it. -/
theorem seq_done : p.seq .done = p := by
  induction p with
  | done => rfl
  | lock k m p ih => exact congrArg (Code.lock k m) ih
  | unlock k p ih => exact congrArg (Code.unlock k) ih
  | outside p ih => exact congrArg Code.outside ih
  | choose hβ p ih => exact congrArg (Code.choose hβ) (funext ih)

theorem seq_assoc : (p.seq q).seq r = p.seq (q.seq r) := by
  induction p with
  | done => rfl
  | lock k m p ih => exact congrArg (Code.lock k m) ih
  | unlock k p ih => exact congrArg (Code.unlock k) ih
  | outside p ih => exact congrArg Code.outside ih
  | choose hβ p ih => exact congrArg (Code.choose hβ) (funext ih)

/-- A loop goes on before what follows it. -/
theorem Refines.loop_before : Refines (p.seq (p.loop.seq r)) (p.loop.seq r) := by
  rw [← seq_assoc]
  exact .seq .loop_next .refl

/-- A section in which nothing happens may be left out. -/
theorem Refines.section_done : Refines .done (Code.within k m .done) := by
  refine .of_trace fun es h => ?_
  cases h
  exact ⟨_, .lock k m (.unlock k .done), .single (.here k m [])⟩

/-- What comes first may be left out, -/
theorem Refines.skip (hp : Refines .done p) (hq : Refines r q) : Refines r (p.seq q) := hp.seq hq

/-- or what comes last. -/
theorem Refines.skip_last (hq : Refines .done q) : Refines p (p.seq q) := by
  intro es h
  simpa using h.seq (hq [] Trace.done.admits)

/-- Codes that may all be left out. -/
theorem Refines.all_done {ps : List (Code K)} (h : ps.Forall (Refines .done)) : Refines .done (Code.all ps) := by
  rw [List.forall_iff_forall_mem] at h
  induction ps with
  | nil => exact .refl
  | cons p ps ih =>
      rw [List.forall_mem_cons] at h
      exact .skip h.1 (ih h.2)

end Trace

/-! ### The order -/

section Order

variable {K : Type} [DecidableEq K] {rank : K → ℕ} {p : Code K} {es fs : List (Event K)}
  {hs hs' : List (K × Mode)}

/-- From the locks `hs` on the events keep the order of the locks, wait for the outside only without a
lock, and end with `hs'`. -/
def InOrder (rank : K → ℕ) (hs' : List (K × Mode)) : List (Event K) → List (K × Mode) → Prop
  | [], hs => hs = hs'
  | .lock k m :: es, hs => (∀ h ∈ hs, rank h.1 < rank k) ∧ InOrder rank hs' es ((k, m) :: hs)
  | .unlock k :: es, hs => (∃ h ∈ hs, h.1 = k) ∧ InOrder rank hs' es (hs.eraseP (·.1 = k))
  | .outside :: es, hs => hs = [] ∧ InOrder rank hs' es hs

/-- The judgment on the code, read off one of its runs. -/
theorem Trace.inOrder (h : Trace p es) (hp : Ok rank hs' p hs) : InOrder rank hs' es hs := by
  induction h generalizing hs with
  | done => exact hp
  | lock k m _ ih => exact ⟨hp.1, ih hp.2⟩
  | unlock k _ ih => exact ⟨hp.1, ih hp.2⟩
  | outside _ ih => exact ⟨hp.1, ih hp.2⟩
  | choose _ b _ ih => exact ih (hp b)

/-- A section in which nothing happens changes nothing for what comes after it. -/
theorem Skip.inOrder (h : Skip es fs) (hf : InOrder rank hs' fs hs) : InOrder rank hs' es hs := by
  induction h generalizing hs with
  | here k m es =>
      -- what is held before the section is held after it
      have hrest := hf.2.2
      rwa [List.eraseP_cons_of_pos (by simp)] at hrest
  | later e _ ih =>
      cases e with
      | lock k m => exact ⟨hf.1, ih hf.2⟩
      | unlock k => exact ⟨hf.1, ih hf.2⟩
      | outside => exact ⟨hf.1, ih hf.2⟩

/-- **What a code in order admits is in order.** -/
theorem Admits.inOrder (h : Admits p es) (hp : Ok rank hs' p hs) : InOrder rank hs' es hs := by
  obtain ⟨fs, hf, ht⟩ := h
  have horder := hf.inOrder hp
  clear hf
  induction ht with
  | refl => exact horder
  | tail _ hs ih => exact ih (hs.inOrder horder)

end Order

/-! ### Programs -/

section Follows

variable {K : Type} {C D : Type → Type} {α β γ : Type} {loc : ∀ ⦃β : Type⦄, C β → Code K}

/-- The program has a run with this result and these events. -/
inductive Locked (loc : ∀ ⦃β : Type⦄, C β → Code K) : Prog C α → α → List (Event K) → Prop where
  | ret (a : α) : Locked loc (.ret a) a []
  | cmd {β : Type} {c : C β} {k : β → Prog C α} (b : β) {a : α} {es fs : List (Event K)}
      (h : Trace (loc c) es) (t : Locked loc (k b) a fs) : Locked loc (.cmd c k) a (es ++ fs)

/-- A run of two programs is one of each. -/
theorem Locked.of_bind {p : Prog C α} {f : α → Prog C β} {b : β} {es : List (Event K)}
    (h : Locked loc (p >>= f) b es) :
    ∃ a fs gs, es = fs ++ gs ∧ Locked loc p a fs ∧ Locked loc (f a) b gs := by
  induction p generalizing es with
  | ret a => exact ⟨a, [], es, rfl, .ret a, h⟩
  | cmd c k ih =>
      cases h with
      | cmd x hc ht =>
          obtain ⟨a, fs, gs, rfl, hf, hg⟩ := ih x ht
          exact ⟨a, _ ++ fs, gs, (List.append_assoc ..).symm, .cmd x hc hf, hg⟩

variable (loc) in
/-- What the program does, and after it what the code of its result may do, is admitted by `q`. -/
def Follows (p : Prog C α) (e : α → Code K) (q : Code K) : Prop :=
  ∀ a es fs, Locked loc p a es → Admits (e a) fs → Admits q (es ++ fs)

variable {p : Prog C α} {e e' : α → Code K} {q q' r : Code K}

/-- A program follows every code that admits more. -/
theorem Follows.mono (h : Follows loc p e q) (hq : Refines q q') : Follows loc p e q' :=
  fun a es fs hp he => hq _ (h a es fs hp he)

/-- After the results there may be less to do. -/
theorem Follows.after (h : Follows loc p e q) (he : ∀ a, Refines (e' a) (e a)) : Follows loc p e' q :=
  fun a es fs hp hfs => h a es fs hp (he a fs hfs)

/-- A program that is over. -/
theorem Follows.ret {a : α} (h : Refines (e a) q) : Follows loc (.ret a) e q := by
  intro _ _ fs hp he
  cases hp
  exact h fs he

theorem Follows.bind {f : α → Prog C β} {e : β → Code K} {m : α → Code K} (hp : Follows loc p m q)
    (hf : ∀ a, Follows loc (f a) e (m a)) : Follows loc (p >>= f) e q := by
  intro b es fs h he
  obtain ⟨a, es₁, es₂, rfl, h₁, h₂⟩ := h.of_bind
  rw [List.append_assoc]
  exact hp a es₁ _ h₁ (hf a b es₂ fs h₂ he)

/-- A command, and what comes after it. -/
theorem Follows.step {c : C β} {k : β → Prog C α} (hc : Refines (loc c) q)
    (hk : ∀ b, Follows loc (k b) e r) : Follows loc (Prog.perform c >>= k) e (q.seq r) := by
  intro a es fs h he
  cases h with
  | cmd b hes ht =>
      rw [List.append_assoc]
      exact (hc _ hes.admits).seq (hk b a _ fs ht he)

/-- A command without a lock. -/
theorem Follows.quiet {c : C β} {k : β → Prog C α} (hc : loc c = .done)
    (hk : ∀ b, Follows loc (k b) e q) : Follows loc (Prog.perform c >>= k) e q :=
  .step (q := .done) (hc ▸ .refl) hk

/-- A command alone. -/
theorem Follows.last {c : C α} {q : Code K} (hc : Refines (loc c) q) :
    Follows loc (Prog.perform c) (fun _ => .done) q := by
  intro a es fs h he
  cases h with
  | @cmd _ _ _ b _ es' _ hes ht =>
      cases ht
      obtain ⟨gs, hg, hthin⟩ := he
      cases hg
      have hsame : Thinner (es' ++ [] ++ fs) es' := by
        simpa using Thinner.append (.refl : Thinner es' es') hthin
      exact hc _ (hes.admits.thinner hsame)

/-- A piece of a program, by the code of the piece alone. -/
theorem Follows.frame (h : Follows loc p (fun _ => .done) q) : Follows loc p (fun _ => r) (q.seq r) := by
  intro a es fs hp he
  have hq := h a es [] hp Trace.done.admits
  rw [List.append_nil] at hq
  exact hq.seq he

/-- A piece, then what follows it. -/
theorem Follows.seq {f : α → Prog C β} {e : β → Code K} (hp : Follows loc p (fun _ => .done) q)
    (hf : ∀ a, Follows loc (f a) e r) : Follows loc (p >>= f) e (q.seq r) := hp.frame.bind hf

/-- Only the result changes. -/
theorem Follows.map {f : α → β} {e : β → Code K} (h : Follows loc p (fun a => e (f a)) q) :
    Follows loc (f <$> p) e q := by
  rw [Prog.map_eq]
  exact h.bind fun a => .ret .refl

/-- **Programs in the place of commands**: if each does no more than the code of its command, the
whole does no more than before. -/
theorem Follows.handle {loc' : ∀ ⦃β : Type⦄, D β → Code K} {f : ∀ ⦃β : Type⦄, C β → Prog D β}
    (hf : ∀ ⦃β : Type⦄ (c : C β), Follows loc' (f c) (fun _ => .done) (loc c))
    (hp : Follows loc p e q) : Follows loc' (p.handle f) e q := by
  have hrun : ∀ (p : Prog C α) a es, Locked loc' (p.handle f) a es →
      ∃ fs, Locked loc p a fs ∧ Thinner es fs := by
    intro p
    induction p with
    | ret b =>
        intro a es h
        cases h
        exact ⟨[], .ret b, .refl⟩
    | cmd c k ih =>
        intro a es h
        obtain ⟨b, es₁, es₂, rfl, h₁, h₂⟩ := Locked.of_bind h
        have hc := hf c b es₁ [] h₁ Trace.done.admits
        rw [List.append_nil] at hc
        obtain ⟨fs₁, hf₁, ht₁⟩ := hc
        obtain ⟨fs₂, hf₂, ht₂⟩ := ih b a es₂ h₂
        exact ⟨fs₁ ++ fs₂, .cmd b hf₁ hf₂, ht₁.append ht₂⟩
  intro a es fs h he
  obtain ⟨gs, hg, ht⟩ := hrun p a es h
  exact (hp a gs fs hg he).thinner (ht.append .refl)

/-! ### Rounds -/

variable {L : Type} {body : L → Prog C (Option L)} {rest : L → Code K} {l : L} {o : Option L}
  {es : List (Event K)}

variable (loc body) in
/-- Some rounds of a thread: the events from `l` on, and where it is after them, if not at its end. -/
inductive Rounds : L → Option L → List (Event K) → Prop where
  | here (l : L) : Rounds l (some l) []
  | next {l l' : L} {o : Option L} {es fs : List (Event K)} (h : Locked loc (body l) (some l') es)
      (t : Rounds l' o fs) : Rounds l o (es ++ fs)
  | last {l : L} {es : List (Event K)} (h : Locked loc (body l) none es) : Rounds l none es

/-- **A thread does no more than its code**, if from each of its rounds on there is a code for what it
has still to do. -/
theorem Rounds.admits (hrest : ∀ l, Admits (rest l) [])
    (hbody : ∀ l, Follows loc (body l) (fun o => o.elim .done rest) (rest l))
    (h : Rounds loc body l o es) : Admits (rest l) es := by
  induction h with
  | here l => exact hrest l
  | next h _ ih => exact hbody _ _ _ _ h ih
  | last h =>
      have hend := hbody _ _ _ [] h Trace.done.admits
      rwa [List.append_nil] at hend

end Follows

end Locks
