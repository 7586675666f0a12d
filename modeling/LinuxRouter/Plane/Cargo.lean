import LinuxRouter.Model.Bytes
import LinuxRouter.Plane.Egress

/-!
# Plane — what is known of the frames on their way

A discipline of the data plane's threads with a parameter, for facts about the frames that travel from
the receive loop through the task queue and the pending table to `pkt_send`.

A `Cargo` says what a thread remembers, what is noted of a block when it is filled, what holds of the
frames in the queue and of the parked ones, and what a thread ensures before its other commands.

* `Stowed` is the invariant: it holds of what is in the queue and of what is parked.
* `Bears` is the judgment on programs, with one rule for each kind of command and one lemma for each
  function that carries no frame.
* `pre_of_reach`: whoever is about to run a command has ensured what it should.  `stowed_of_reach`:
  what is in the queue and what is parked is as it should be.

Several results speak of one frame over its whole way, through the hands of three threads and two
places where it waits: that it is sent with the bytes it came with, that a rule let it pass, that
its next hop was chosen for it.  What differs is only what is noted of a frame.  The way itself is
dealt with here.  While a thread has a block in hand nobody writes to it, by the discipline of
`Ownership`, so that its bytes and the note agree step by step; when it gives the block away, what
it knows goes into `Stowed`, and the thread that takes the block out again has it from there.  A
result then owes only the parts that are its own: `Carried`, three facts about `forward_task` and
`forward_send`.

`Carried.idle_sends` is about the other frames.  What a thread sends while it has no frame in hand
is ARP, so that a result may speak of every IP frame on the wire, whoever sent it.
-/

namespace LinuxRouter

open Program (Prog Config Discipline Reach Watched By)

/-- The block whose contents a command writes. -/
def Cmd.fills {β : Type} : Cmd β → Option Block
  | .write b _ => some b
  | .recvfrom b => some b
  | _ => none

/-- What a command queues. -/
def Cmd.submits {β : Type} : Cmd β → Option Block
  | .tpoolSubmit b => some b
  | _ => none

/-- Commands that do not begin to send a frame. -/
def Cmd.rests {β : Type} : Cmd β → Bool
  | .mark (.send _ _) => false
  | _ => true

/-- What they transmit is ARP. -/
def Cmd.speaksArp {β : Type} : Cmd β → Bool
  | .pktSend g _ => getBe16 g 12 == etherTypeArp
  | _ => true

/-- Nor park or queue one. -/
def Cmd.idles {β : Type} (c : Cmd β) : Bool :=
  c.rests && c.parks.isNone && c.submits.isNone && c.speaksArp

/-- What the threads remember, and what is noted of the blocks. -/
structure Cargo (Λ N : Type) where
  /-- what a thread remembers after a command -/
  mind : ∀ ⦃β : Type⦄, Cmd β → β → Λ → Λ
  /-- what is noted of the block that a command fills -/
  note : ∀ ⦃β : Type⦄, Cmd β → β → N → N
  /-- what holds of a frame in the task queue -/
  queued : FwdFrame → N → Prop
  /-- what holds of a parked frame -/
  parked : FwdFrame → N → Prop
  /-- what a thread ensures before another command -/
  ensures : ∀ ⦃β : Type⦄, Cmd β → Λ → (Block → N) → Prop
  /-- the thread is not in the middle of a frame -/
  idle : Λ → Prop
  parked_next : ∀ {f : FwdFrame} {n : N} (p : Option Block), parked f n → parked { f with next := p } n
  idle_ensures : ∀ ⦃β : Type⦄ (c : Cmd β) {l : Λ} (ν : Block → N), c.idles = true → idle l →
    ensures c l ν
  idle_mind : ∀ ⦃β : Type⦄ (c : Cmd β) (a : β) {l : Λ}, c.rests = true → idle l → idle (mind c a l)

/-- A command that carries nothing lets a thread rest. -/
theorem Cmd.rests_of_idles {β : Type} {c : Cmd β} (h : c.idles = true) : c.rests = true := by
  simp only [Cmd.idles, Bool.and_eq_true] at h
  exact h.1.1.1

/-- An ARP frame may be sent by a thread that carries nothing. -/
theorem Cmd.idles_pktSend {g : List Byte} {i : CInt} (h : getBe16 g 12 = etherTypeArp) :
    (Cmd.pktSend g i).idles = true := by
  rw [Cmd.idles, Cmd.speaksArp, h, beq_self_eq_true]
  rfl

/-- What every thread remembers, and what is noted of every block. -/
structure Log (Λ N : Type) where
  mind : Tid → Λ
  note : Block → N

/-- The state, with what the threads remember and what is noted of the blocks. -/
abbrev Logged (Λ N : Type) := Watched Plane (List Block) Tid (Log Λ N)

/-- What is known of every step of a run: the data plane is in order. -/
def inOrder {γ : Type} : ∀ ⦃β : Type⦄, Tid → By Tid Cmd β → Env → Watched Plane (List Block) Tid γ → Prop :=
  fun _ t c _ x => PlaneInv x.shared x.ghost ∧ pre t c.cmd (x.ghost t) x.shared

/-- What is in the queue after a command was there before, or is what it submits. -/
theorem Owned.queued_exec {s : Plane} {g : Tid → List Block} {owner : Block → Place}
    {order : List Slot} {chains : Slot → List Block} {tasks : List Block} {β : Type} {c : Cmd β}
    {b : Block} (h : Owned s g owner order chains tasks) (e : Env)
    (hb : some b ∈ (exec c e s).2.queue.tasks) :
    some b ∈ s.queue.tasks ∨ c.submits = some b := by
  have hmem : ∀ {p : TaskQueue} {bs : List Block}, QueueHolds p bs →
      (some b ∈ p.tasks ↔ b ∈ bs) := fun h => by simp [h.tasks]
  cases c with
  | tpoolSubmit b' =>
      rcases h.queue.submit b' with ⟨-, hq⟩ | ⟨-, hq⟩
      · exact .inl ((hmem h.queue).mpr ((hmem hq).mp hb))
      · rcases List.mem_append.mp ((hmem hq).mp hb) with hb | hb
        · exact .inl ((hmem h.queue).mpr hb)
        · obtain rfl := List.mem_singleton.mp hb
          exact .inr rfl
  | tpoolTake =>
      rcases h.queue.take with ⟨hq, -⟩ | ⟨b', bs, rfl, -, hq⟩
      · refine .inl ?_
        rw [← hq]
        exact hb
      · exact .inl ((hmem h.queue).mpr (List.mem_cons_of_mem b' ((hmem hq).mp hb)))
  | recvfrom b' =>
      refine .inl ?_
      rw [exec] at hb
      cases hr : e.recv with
      | none => simpa only [hr] using hb
      | some r => simpa only [hr] using hb
  | _ => exact .inl hb

namespace Cargo

variable {Λ N α β : Type} (C : Cargo Λ N)

/-- The observer. -/
def watch ⦃β : Type⦄ (t : Tid) (c : Cmd β) (_ : Plane) (a : β) (v : Log Λ N) : Log Λ N where
  mind := Function.update v.mind t (C.mind c a (v.mind t))
  note b := if c.fills = some b then C.note c a (v.note b) else v.note b

/-- What is in the queue and what is parked is as it should be. -/
structure Stowed (x : Logged Λ N) : Prop where
  queued : ∀ b, some b ∈ x.shared.queue.tasks → C.queued (x.shared.mem b) (x.view.note b)
  parked : ∀ k b, x.shared.pend.parked x.shared.mem k b → C.parked (x.shared.mem b) (x.view.note b)

/-- What a thread ensures before a command.  One that is not in the middle of a frame transmits
nothing but ARP. -/
def pre : ∀ ⦃β : Type⦄, Tid → Cmd β → Logged Λ N → Prop
  | _, _, .tpoolSubmit b, x => C.queued (x.shared.mem b) (x.view.note b)
  | _, _, .pendEnqueue _ b, x => C.parked (x.shared.mem b) (x.view.note b)
  | _, t, .pktSend g i, x =>
      (C.idle (x.view.mind t) → getBe16 g 12 = etherTypeArp) ∧
        C.ensures (.pktSend g i) (x.view.mind t) x.view.note
  | _, t, c, x => C.ensures c (x.view.mind t) x.view.note

/-- What a thread may rely on: what it remembers, and its blocks. -/
structure Kept (t : Tid) (x x' : Logged Λ N) : Prop where
  mind : x'.view.mind t = x.view.mind t
  hand : x'.ghost t = x.ghost t
  mem : ∀ b ∈ x.ghost t, x'.shared.mem b = x.shared.mem b
  note : ∀ b ∈ x.ghost t, x'.view.note b = x.view.note b

/-! ### One command -/

section Step

variable {C} {t t' : Tid} {c : Cmd β} {e : Env} {x : Logged Λ N} {b : Block}

/-- Who fills a block has it in hand. -/
theorem touches_of_fills (h : c.fills = some b) : c.touches = some b := by
  cases c <;> first | exact h | cases h

/-- What is noted of a block changes only where it is filled. -/
theorem note_exec (h : c.touches ≠ some b) :
    (Watched.exec dataPlane C.watch t c e x).2.view.note b = x.view.note b :=
  if_neg fun h' => h (touches_of_fills h')

/-- **Every command keeps the stowed frames as they should be.** -/
theorem Stowed.exec (h : C.Stowed x) (ho : PlaneInv x.shared x.ghost)
    (hp : LinuxRouter.pre t c (x.ghost t) x.shared) (hq : C.pre t c x) :
    C.Stowed (Watched.exec dataPlane C.watch t c e x).2 := by
  obtain ⟨owner, order, chains, tasks, ho⟩ := ho
  constructor
  · intro b hb
    rcases ho.queued_exec e hb with hb | hb
    · -- it stays in the queue, where nobody touches it
      have hown : owner b = .queue := by
        rw [ho.queue.tasks] at hb
        obtain ⟨b', hb', e'⟩ := List.mem_map.mp hb
        exact ho.mem_tasks.mp (Option.some.inj e' ▸ hb')
      have hc : c.touches ≠ some b := by
        intro hc
        have := hown.symm.trans (ho.mem_thread.mp (mem_of_touches hp hc))
        cases this
      have hm : (Watched.exec dataPlane C.watch t c e x).2.shared.mem b = x.shared.mem b :=
        ho.exec_mem e hc (by simp [hown])
      rw [hm, note_exec hc]
      exact h.queued b hb
    · cases c with
      | tpoolSubmit b' =>
          cases hb
          exact hq
      | _ => cases hb
  · intro k b hk
    rcases ho.parked_exec e hp hk with hk | hk
    · obtain ⟨i, hb, -⟩ := ho.rep.parked_iff.mp hk
      obtain ⟨hc, hm⟩ := ho.mem_exec_chain e hp hb
      have hm : (Watched.exec dataPlane C.watch t c e x).2.shared.mem b = x.shared.mem b := hm
      rw [hm, note_exec hc]
      exact h.parked k b hk
    · cases c with
      | pendEnqueue k' b' =>
          cases hk
          obtain ⟨p, hm⟩ := (enqueue_step e.clock k b x.shared.mem x.shared.pend).mem_self
          have hm : (Watched.exec dataPlane C.watch t (.pendEnqueue k b) e x).2.shared.mem b =
              { x.shared.mem b with next := p } := hm
          rw [hm]
          exact C.parked_next p hq
      | _ => cases hk

/-- A command leaves alone what the other threads rely on. -/
theorem kept_exec (ho : PlaneInv x.shared x.ghost) (hp : LinuxRouter.pre t c (x.ghost t) x.shared)
    (ht : t' ≠ t) : Kept t' x (Watched.exec dataPlane C.watch t c e x).2 where
  mind := Function.update_of_ne ht _ _
  hand := Function.update_of_ne ht _ _
  mem _ hb := ho.exec_mem e hp ht hb
  note b hb := by
    refine note_exec fun hc => ?_
    obtain ⟨owner, order, chains, tasks, ho⟩ := ho
    have := (ho.mem_thread.mp hb).symm.trans (ho.mem_thread.mp (mem_of_touches hp hc))
    exact ht (Place.thread.inj this)

end Step

/-- The discipline.  A thread's ghost value is its number. -/
def discipline : Discipline (dataPlane.watched C.watch) inOrder where
  inv x g := (∀ t, g t = t) ∧ C.Stowed x
  fact _ x := C.Stowed x
  pre _ t c _ x := c.thread = t ∧ C.pre t c.cmd x
  rely t x x' := Kept t x x'
  rely_refl _ _ := ⟨rfl, rfl, fun _ _ => rfl, fun _ _ => rfl⟩
  rely_trans h h' :=
    ⟨h'.mind.trans h.mind, h'.hand.trans h.hand,
      fun b hb => (h'.mem b (h.hand ▸ hb)).trans (h.mem b hb),
      fun b hb => (h'.note b (h.hand ▸ hb)).trans (h.note b hb)⟩
  fact_of_inv _ h := h.2
  exec_inv := by
    rintro x g t β ⟨u, c⟩ e ⟨hg, hs⟩ ⟨rfl, hq⟩ ⟨ho, hp⟩
    refine ⟨fun t => ?_, hs.exec ho hp hq⟩
    by_cases ht : t = u
    · subst ht
      rw [Function.update_self]
      exact hg _
    · rw [Function.update_of_ne ht]
      exact hg t
  exec_rely := by
    rintro x g t β ⟨u, c⟩ e ⟨hg, -⟩ ⟨rfl, -⟩ ⟨ho, hp⟩ t' ht
    rw [hg]
    exact kept_exec ho hp ht
  admin_inv := by
    rintro x ⟨s, gs, v⟩ g ⟨hg, hs⟩ ⟨hadmin, rfl, rfl⟩
    refine ⟨hg, ?_⟩
    dsimp only at hadmin
    cases hadmin <;> exact ⟨hs.queued, hs.parked⟩
  admin_rely := by
    rintro x ⟨s, gs, v⟩ g t - ⟨hadmin, rfl, rfl⟩
    refine ⟨rfl, rfl, fun b _ => ?_, fun _ _ => rfl⟩
    dsimp only at hadmin ⊢
    cases hadmin <;> rfl

/-! ### Programs -/

/-- What the thread remembers satisfies `L`; it has `B` in hand, with the contents `μ`, and `ν` is
noted of them. -/
structure Bearing (t : Tid) (L : Λ → Prop) (B : List Block) (μ : Block → FwdFrame) (ν : Block → N)
    (x : Logged Λ N) : Prop where
  mind : L (x.view.mind t)
  hand : ∀ b ∈ B, b ∈ x.ghost t
  mem : ∀ b ∈ B, x.shared.mem b = μ b
  note : ∀ b ∈ B, x.view.note b = ν b

/-- From `P` on, the program keeps the discipline, and ends in `Q`. -/
def Bears (t : Tid) (P : Logged Λ N → Prop) (p : Act α) (Q : α → Logged Λ N → Prop) : Prop :=
  ∀ x, P x → C.discipline.Ok t (fun a u x => u = t ∧ Q a x) (p.tag t) t x

/-- The thread is not in the middle of a frame. -/
def Idle (t : Tid) (x : Logged Λ N) : Prop := C.idle (x.view.mind t)

section Rules

variable {C} {t : Tid} {L M : Λ → Prop} {B : List Block} {μ : Block → FwdFrame} {ν : Block → N}
  {P : Logged Λ N → Prop} {Q : α → Logged Λ N → Prop} {x x' : Logged Λ N} {b : Block}

/-- What a thread has in hand is left alone by the others. -/
theorem Bearing.kept (h : Bearing t L B μ ν x) (hu : Kept t x x') : Bearing t L B μ ν x' where
  mind := hu.mind ▸ h.mind
  hand b hb := hu.hand ▸ h.hand b hb
  mem b hb := (hu.mem b (h.hand b hb)).trans (h.mem b hb)
  note b hb := (hu.note b (h.hand b hb)).trans (h.note b hb)

theorem Bearing.mono {B' : List Block} (h : Bearing t L B μ ν x) (hL : ∀ l, L l → M l)
    (hb : ∀ b ∈ B', b ∈ B) : Bearing t M B' μ ν x :=
  ⟨hL _ h.mind, fun b hb' => h.hand b (hb b hb'), fun b hb' => h.mem b (hb b hb'),
    fun b hb' => h.note b (hb b hb')⟩

theorem Idle.bearing (h : C.Idle t x) : Bearing t C.idle [] μ ν x :=
  ⟨h, fun _ hb => (nomatch hb), fun _ hb => (nomatch hb), fun _ hb => nomatch hb⟩

theorem Bears.pre {K : Logged Λ N → Prop} {p : Act α} (h : C.Bears t P p Q) (hP : ∀ x, K x → P x) :
    C.Bears t K p Q :=
  fun x hx => h x (hP x hx)

theorem Bears.post {Q' : α → Logged Λ N → Prop} {p : Act α} (h : C.Bears t P p Q)
    (hQ : ∀ a x, Q a x → Q' a x) : C.Bears t P p Q' :=
  fun x hx => (h x hx).mono fun a _ x hq => ⟨hq.1, hQ a x hq.2⟩

theorem Bears.bind {R : β → Logged Λ N → Prop} {p : Act β} {f : β → Act α} (hp : C.Bears t P p R)
    (hf : ∀ b, C.Bears t (R b) (f b) Q) : C.Bears t P (p >>= f) Q := by
  intro x hx
  rw [Prog.tag_bind]
  refine Discipline.Ok.bind ((hp x hx).mono ?_)
  rintro b _ x ⟨rfl, hr⟩
  exact hf b x hr

theorem bears_ret {a : α} (h : ∀ x, Bearing t L B μ ν x → Q a x) :
    C.Bears t (Bearing t L B μ ν) (.ret a) Q :=
  fun _ hx _ hu _ => ⟨rfl, h _ (hx.kept hu)⟩

/-- A command. -/
theorem bears_cmd {c : Cmd β} {k : β → Act α} {K : β → Logged Λ N → Prop}
    (hq : ∀ x, Bearing t L B μ ν x → C.pre t c x)
    (hx : ∀ x e, Bearing t L B μ ν x → C.Stowed x → inOrder t ⟨t, c⟩ e x →
      K (exec c e x.shared).1 (Watched.exec dataPlane C.watch t c e x).2)
    (hk : ∀ a, C.Bears t (K a) (k a) Q) : C.Bears t (Bearing t L B μ ν) (.cmd c k) Q := by
  intro x h x' hu hs
  have h' := h.kept hu
  exact ⟨⟨rfl, hq x' h'⟩, fun e hok => hk _ _ (hx x' e h' hs hok)⟩

/-- What a thread bears after a command on other blocks. -/
theorem Bearing.exec {c : Cmd β} {e : Env} (h : Bearing t L B μ ν x)
    (hok : inOrder t ⟨t, c⟩ e x) (hc : ∀ b, c.touches = some b → b ∉ B)
    (hL : ∀ l, L l → M (C.mind c (LinuxRouter.exec c e x.shared).1 l)) :
    Bearing t M B μ ν (Watched.exec dataPlane C.watch t c e x).2 := by
  have hne : ∀ b ∈ B, c.touches ≠ some b := fun b hb hc' => hc b hc' hb
  obtain ⟨owner, order, chains, tasks, ho⟩ := hok.1
  refine ⟨?_, fun b hb => ?_, fun b hb => ?_, fun b hb => ?_⟩
  · have hs : (Watched.exec dataPlane C.watch t c e x).2.view.mind t =
        C.mind c (LinuxRouter.exec c e x.shared).1 (x.view.mind t) := Function.update_self _ _ _
    rw [hs]
    exact hL _ h.mind
  · have hg : (Watched.exec dataPlane C.watch t c e x).2.ghost t =
        hold c x.shared (LinuxRouter.exec c e x.shared).1 (x.ghost t) := Function.update_self _ _ _
    rw [hg]
    exact mem_hold (h.hand b hb) (hne b hb) _ _
  · have hm : (Watched.exec dataPlane C.watch t c e x).2.shared.mem b = x.shared.mem b :=
      ho.exec_mem e (hne b hb) (ho.owner_ne_free (h.hand b hb))
    exact hm.trans (h.mem b hb)
  · exact (note_exec (hne b hb)).trans (h.note b hb)

/-- **A command** that leaves the blocks in hand alone. -/
theorem bears_step {c : Cmd β} {k : β → Act α} {M : β → Λ → Prop}
    (hq : ∀ x, Bearing t L B μ ν x → C.pre t c x) (hc : ∀ b, c.touches = some b → b ∉ B)
    (hL : ∀ l a, L l → M a (C.mind c a l))
    (hk : ∀ a, C.Bears t (Bearing t (M a) B μ ν) (k a) Q) :
    C.Bears t (Bearing t L B μ ν) (.cmd c k) Q :=
  bears_cmd (K := fun a => Bearing t (M a) B μ ν) hq
    (fun _ _ h _ hok => h.exec hok hc fun l => hL l _) hk

/-- A command that leaves a thread at rest. -/
theorem Idle.exec {c : Cmd β} {e : Env} (hc : c.rests = true) (hx : C.Idle t x) :
    C.Idle t (Watched.exec dataPlane C.watch t c e x).2 := by
  have hs : (Watched.exec dataPlane C.watch t c e x).2.view.mind t =
      C.mind c (LinuxRouter.exec c e x.shared).1 (x.view.mind t) := Function.update_self _ _ _
  rw [Idle, hs]
  exact C.idle_mind _ _ hc hx

/-- An idle thread goes on idle. -/
theorem bears_idle {c : Cmd β} {k : β → Act α} (hi : c.idles = true)
    (hc : ∀ b, c.touches = some b → b ∉ B)
    (hk : ∀ a, C.Bears t (Bearing t C.idle B μ ν) (k a) Q) :
    C.Bears t (Bearing t C.idle B μ ν) (.cmd c k) Q := by
  refine bears_step (M := fun _ => C.idle) (fun x h => ?_) hc (fun l a => C.idle_mind c a (Cmd.rests_of_idles hi)) hk
  have hens := C.idle_ensures c x.view.note hi h.mind
  cases c with
  | tpoolSubmit b => cases hi
  | pendEnqueue k b => cases hi
  | pktSend g i => exact ⟨fun _ => eq_of_beq hi, hens⟩
  | _ => exact hens

/-- A command of a thread without a block. -/
theorem idle_step {c : Cmd β} {k : β → Act α} (hi : c.idles = true)
    (hk : ∀ a, C.Bears t (C.Idle t) (k a) Q) : C.Bears t (C.Idle t) (.cmd c k) Q :=
  fun x hx => bears_idle (B := []) (μ := x.shared.mem) (ν := x.view.note) hi
    (fun _ _ h => nomatch h) (fun a => (hk a).pre fun _ h => h.mind) x hx.bearing

/-- The end of a program of such a thread. -/
theorem idle_ret {a : α} (h : ∀ x, C.Idle t x → Q a x) : C.Bears t (C.Idle t) (.ret a) Q :=
  fun x hx => bears_ret (μ := x.shared.mem) (ν := x.view.note) (fun x h' => h x h'.mind) x hx.bearing

theorem bears_of_every {p : Act α} (hp : p.Every fun _ c => c.idles = true) :
    C.Bears t (C.Idle t) p fun _ => C.Idle t := by
  induction p with
  | ret a => exact idle_ret fun _ h => h
  | cmd c k ih => exact idle_step hp.1 fun a => ih a (hp.2 a)

/-- Whatever is in hand, an idle program may drop it. -/
theorem bears_last {p : Act α} (hp : p.Every fun _ c => c.idles = true) :
    C.Bears t (Bearing t C.idle B μ ν) p fun _ => C.Idle t :=
  (bears_of_every hp).pre fun _ h => h.mind

/-- An idle program leaves what is in hand alone, if it touches nothing. -/
theorem bears_beside {p : Act α} (hp : p.Every fun _ c => c.idles = true ∧ c.touches = none) :
    C.Bears t (Bearing t C.idle B μ ν) p fun _ => Bearing t C.idle B μ ν := by
  induction p with
  | ret a => exact bears_ret fun _ h => h
  | cmd c k ih =>
      refine bears_idle hp.1.1 (fun b hb => ?_) fun a => ih a (hp.2 a)
      rw [hp.1.2] at hb
      cases hb

/-- A block in hand is read. -/
theorem bears_load {k : FwdFrame → Act α} (hb : b ∈ B) (hq : ∀ l ν, L l → C.ensures (.load b) l ν)
    (hL : ∀ l, L l → M (C.mind (.load b) (μ b) l))
    (hk : C.Bears t (Bearing t M B μ ν) (k (μ b)) Q) :
    C.Bears t (Bearing t L B μ ν) (.cmd (.load b) k) Q := by
  refine bears_cmd (K := fun a x => a = μ b ∧ Bearing t M B μ ν x) (fun x h => hq _ _ h.mind)
    (fun x e h _ hok => ?_) fun a => ?_
  · have ha : (LinuxRouter.exec (.load b) e x.shared).1 = μ b := h.mem b hb
    refine ⟨ha, h.exec hok (fun b hb => nomatch hb) fun l hl => ?_⟩
    rw [ha]
    exact hL l hl
  · rintro x ⟨rfl, h⟩
    exact hk x h

/-- A block in hand is written. -/
theorem bears_write {w : Write} {k : Unit → Act α} (hb : b ∈ B)
    (hq : ∀ l ν, L l → C.ensures (.write b w) l ν) (hL : ∀ l, L l → M (C.mind (.write b w) () l))
    (hk : C.Bears t (Bearing t M B (Function.update μ b ((μ b).write w))
      (Function.update ν b (C.note (.write b w) () (ν b)))) (k ()) Q) :
    C.Bears t (Bearing t L B μ ν) (.cmd (.write b w) k) Q := by
  refine bears_cmd (K := fun _ => Bearing t M B (Function.update μ b ((μ b).write w))
      (Function.update ν b (C.note (.write b w) () (ν b)))) (fun x h => hq _ _ h.mind)
    (fun x e h _ _ => ⟨?_, fun c hc => ?_, fun c hc => ?_, fun c hc => ?_⟩) fun _ => hk
  · have hs : (Watched.exec dataPlane C.watch t (.write b w) e x).2.view.mind t =
        C.mind (.write b w) () (x.view.mind t) := Function.update_self _ _ _
    rw [hs]
    exact hL _ h.mind
  · have hg : (Watched.exec dataPlane C.watch t (.write b w) e x).2.ghost t = x.ghost t :=
      Function.update_self _ _ _
    rw [hg]
    exact h.hand c hc
  · change Function.update x.shared.mem b ((x.shared.mem b).write w) c = _
    by_cases e' : c = b
    · subst e'
      rw [Function.update_self, Function.update_self, h.mem c hc]
    · rw [Function.update_of_ne e', Function.update_of_ne e', h.mem c hc]
  · by_cases e' : c = b
    · subst e'
      rw [Function.update_self, ← h.note c hc]
      exact if_pos rfl
    · rw [Function.update_of_ne e', ← h.note c hc]
      exact if_neg fun h' => e' (Option.some.inj h').symm

/-- What is received fills the block. -/
theorem bears_recv {k : Option Rx → Act α} (hn : C.Bears t (C.Idle t) (k none) Q)
    (hk : ∀ r, C.Bears t (Bearing t C.idle [b]
      (Function.update μ b ((μ b).write (.data (blit (μ b).data 0 r.bytes))))
      (Function.update ν b (C.note (.recvfrom b) (some r) (ν b)))) (k (some r)) Q) :
    C.Bears t (Bearing t C.idle [b] μ ν) (.cmd (.recvfrom b) k) Q := by
  refine bears_cmd (K := fun a x => a.elim (C.Idle t x) fun r => Bearing t C.idle [b]
      (Function.update μ b ((μ b).write (.data (blit (μ b).data 0 r.bytes))))
      (Function.update ν b (C.note (.recvfrom b) (some r) (ν b))) x)
    (fun x h => C.idle_ensures _ _ rfl h.mind) (fun x e h _ hok => ?_) fun a => ?_
  · have hidle : C.Idle t (Watched.exec dataPlane C.watch t (.recvfrom b) e x).2 :=
      Idle.exec rfl h.mind
    have hg : (Watched.exec dataPlane C.watch t (.recvfrom b) e x).2.ghost t = x.ghost t :=
      Function.update_self _ _ _
    have hv : (Watched.exec dataPlane C.watch t (.recvfrom b) e x).2.view.note b =
        C.note (.recvfrom b) (LinuxRouter.exec (.recvfrom b) e x.shared).1 (x.view.note b) :=
      if_pos rfl
    have hm : (Watched.exec dataPlane C.watch t (.recvfrom b) e x).2.shared =
        (LinuxRouter.exec (.recvfrom b) e x.shared).2 := rfl
    cases hr : e.recv with
    | none =>
        have ha : (LinuxRouter.exec (.recvfrom b) e x.shared).1 = none := by
          rw [LinuxRouter.exec]
          simp only [hr]
        rw [ha]
        exact hidle
    | some r =>
        have ha : LinuxRouter.exec (.recvfrom b) e x.shared = (some r, { x.shared with
            mem := Function.update x.shared.mem b
              ((x.shared.mem b).write (.data (blit (x.shared.mem b).data 0 r.bytes))) }) := by
          rw [LinuxRouter.exec]
          simp only [hr]
        rw [ha] at hv hm ⊢
        refine ⟨hidle, fun c hc => hg ▸ h.hand c hc, fun c hc => ?_, fun c hc => ?_⟩
        · obtain rfl := List.mem_singleton.mp hc
          rw [hm, ← h.mem c hc, Function.update_self]
          exact Function.update_self _ _ _
        · obtain rfl := List.mem_singleton.mp hc
          rw [hv, h.note c hc, Function.update_self]
  · cases a with
    | none => exact hn
    | some r => exact hk r

/-- The block that a thread takes is in its hands. -/
theorem bearing_of_hold {c : Cmd β} {e : Env} (hc : c.rests = true)
    (hx : C.Idle t x)
    (hb : b ∈ hold c x.shared (LinuxRouter.exec c e x.shared).1 (x.ghost t)) :
    Bearing t C.idle [b] (Watched.exec dataPlane C.watch t c e x).2.shared.mem
      (Watched.exec dataPlane C.watch t c e x).2.view.note
      (Watched.exec dataPlane C.watch t c e x).2 := by
  refine ⟨hx.exec hc, fun c' hc' => ?_, fun _ _ => rfl, fun _ _ => rfl⟩
  obtain rfl := List.mem_singleton.mp hc'
  have hg : (Watched.exec dataPlane C.watch t c e x).2.ghost t =
      hold c x.shared (LinuxRouter.exec c e x.shared).1 (x.ghost t) := Function.update_self _ _ _
  exact hg ▸ hb

theorem bears_alloc {k : Option Block → Act α} (hn : C.Bears t (C.Idle t) (k none) Q)
    (hk : ∀ b μ ν, C.Bears t (Bearing t C.idle [b] μ ν) (k (some b)) Q) :
    C.Bears t (C.Idle t) (.cmd .mpAlloc k) Q := by
  intro x hx
  refine bears_cmd (c := .mpAlloc) (L := C.idle) (B := []) (μ := x.shared.mem) (ν := x.view.note)
    (K := fun a x => C.Idle t x ∧ ∀ b, a = some b →
      Bearing t C.idle [b] x.shared.mem x.view.note x)
    (fun x h => C.idle_ensures _ _ rfl h.mind)
    (fun x e h _ _ => ⟨Idle.exec rfl h.mind, fun b hb => bearing_of_hold rfl h.mind ?_⟩)
    (fun a => ?_) x hx.bearing
  · rw [hb]
    exact List.mem_cons_self
  · rintro x ⟨hx, hb⟩
    cases a with
    | none => exact hn x hx
    | some b => exact hk b _ _ x (hb b rfl)

/-- A worker takes a frame of the queue. -/
theorem bears_take {k : Dequeued → Act α}
    (hr : ∀ a, (∀ b, a ≠ .task (some b)) → C.Bears t (C.Idle t) (k a) Q)
    (hk : ∀ b μ ν, C.queued (μ b) (ν b) →
      C.Bears t (Bearing t C.idle [b] μ ν) (k (.task (some b))) Q) :
    C.Bears t (C.Idle t) (.cmd .tpoolTake k) Q := by
  intro x hx
  refine bears_cmd (c := .tpoolTake) (L := C.idle) (B := []) (μ := x.shared.mem) (ν := x.view.note)
    (K := fun a x => C.Idle t x ∧ ∀ b, a = .task (some b) →
      C.queued (x.shared.mem b) (x.view.note b) ∧
        Bearing t C.idle [b] x.shared.mem x.view.note x)
    (fun x h => C.idle_ensures _ _ rfl h.mind)
    (fun x e h hs hok => ⟨Idle.exec rfl h.mind, fun b hb => ⟨?_, bearing_of_hold rfl h.mind ?_⟩⟩)
    (fun a => ?_) x hx.bearing
  · -- it was in the queue
    refine hs.queued b ?_
    obtain ⟨owner, order, chains, tasks, ho⟩ := hok.1
    rcases ho.queue.take with ⟨-, hne⟩ | ⟨b', bs, rfl, hb', -⟩
    · exact absurd hb (hne _)
    · obtain rfl : b' = b := by simpa using hb'.symm.trans hb
      simp [ho.queue.tasks]
  · rw [hb]
    exact List.mem_cons_self
  · rintro x ⟨hx, hb⟩
    rcases a with _ | _ | _ | b
    · exact hr .wait (fun b h => nomatch h) x hx
    · exact hr .exit (fun b h => nomatch h) x hx
    · exact hr (.task none) (fun b h => nomatch h) x hx
    · exact hk b _ _ (hb b rfl).1 x (hb b rfl).2

/-- A block is given away. -/
theorem bears_give {c : Cmd β} {k : β → Act α} (hc : c.rests = true)
    (hq : ∀ x, Bearing t C.idle [b] μ ν x → C.pre t c x)
    (hk : ∀ a, C.Bears t (C.Idle t) (k a) Q) :
    C.Bears t (Bearing t C.idle [b] μ ν) (.cmd c k) Q := by
  exact bears_cmd (K := fun _ => C.Idle t) hq (fun x e h _ _ => Idle.exec hc h.mind) hk

/-- A frame handed to the queue. -/
theorem bears_submit {k : Bool → Act α} (hb : C.queued (μ b) (ν b))
    (hk : ∀ a, C.Bears t (C.Idle t) (k a) Q) :
    C.Bears t (Bearing t C.idle [b] μ ν) (.cmd (.tpoolSubmit b) k) Q :=
  bears_give rfl (fun x h => by
    rw [← h.mem b List.mem_cons_self, ← h.note b List.mem_cons_self] at hb
    exact hb) hk

/-- A frame handed to the pending table. -/
theorem bears_enqueue {key : Key} {k : Enqueued → Act α} (hb : C.parked (μ b) (ν b))
    (hk : ∀ a, C.Bears t (C.Idle t) (k a) Q) :
    C.Bears t (Bearing t C.idle [b] μ ν) (.cmd (.pendEnqueue key b) k) Q :=
  bears_give rfl (fun x h => by
    rw [← h.mem b List.mem_cons_self, ← h.note b List.mem_cons_self] at hb
    exact hb) hk

/-- The frames of a slot are taken. -/
theorem bears_detach {key : Key} {k : Option (Option Block) → Act α}
    (hn : C.Bears t (C.Idle t) (k none) Q)
    (hk : ∀ B μ ν h, Linked.IsChain (Mem.next μ) h B → B.length ≤ pendChainMax → B.Nodup →
      (∀ b ∈ B, C.parked (μ b) (ν b)) → C.Bears t (Bearing t C.idle B μ ν) (k (some h)) Q) :
    C.Bears t (C.Idle t) (.cmd (.pendDetach key) k) Q := by
  intro x hx
  refine bears_cmd (c := .pendDetach key) (L := C.idle) (B := []) (μ := x.shared.mem)
    (ν := x.view.note) (K := fun a x => C.Idle t x ∧ ∀ h, a = some h →
      ∃ B, Linked.IsChain x.shared.mem.next h B ∧ B.length ≤ pendChainMax ∧ B.Nodup ∧
        (∀ b ∈ B, C.parked (x.shared.mem b) (x.view.note b)) ∧
          Bearing t C.idle B x.shared.mem x.view.note x)
    (fun x h => C.idle_ensures _ _ rfl h.mind)
    (fun x e h hs hok => ⟨Idle.exec rfl h.mind, fun hd ha => ?_⟩) (fun a => ?_) x hx.bearing
  · have hidle : C.Idle t (Watched.exec dataPlane C.watch t (.pendDetach key) e x).2 :=
      Idle.exec rfl h.mind
    obtain ⟨owner, order, chains, tasks, ho⟩ := hok.1
    cases hf : findPend x.shared.pend key with
    | none =>
        have hans : (LinuxRouter.exec (.pendDetach key) e x.shared).1 = none := by
          simp only [LinuxRouter.exec, pendDetach, hf]
        rw [hans] at ha
        cases ha
    | some i =>
        obtain ⟨-, hkey⟩ := ho.rep.findPend_eq_some.mp hf
        obtain rfl : (x.shared.pend.node i).chain = hd :=
          Option.some.inj ((exec_detach hf e).symm.trans ha)
        have hhand : (Watched.exec dataPlane C.watch t (.pendDetach key) e x).2.ghost t =
            chains i ++ x.ghost t := (Function.update_self _ _ _).trans (ho.hold_detach hf e _)
        refine ⟨chains i, ho.rep.chain i, ho.rep.le_max i, ho.nodup_chain i, fun b hb => ?_, hidle,
          fun b hb => ?_, fun _ _ => rfl, fun _ _ => rfl⟩
        · have hn : (Watched.exec dataPlane C.watch t (.pendDetach key) e x).2.view.note b =
              x.view.note b := note_exec fun h => by cases h
          rw [hn]
          exact hs.parked key b (ho.rep.parked_iff.mpr ⟨i, hb, hkey⟩)
        · rw [hhand]
          exact List.mem_append_left _ hb
  · rintro x ⟨hx, hb⟩
    cases a with
    | none => exact hn x hx
    | some h =>
        obtain ⟨B, hc, hl, hnd, hp, hx⟩ := hb h rfl
        exact hk B _ _ h hc hl hnd hp x hx

end Rules

/-! ### The frames of ARP -/

/-- A frame with an Ethernet header, of the type `v`. -/
def Typed (v : BitVec 16) (p : List Byte) : Prop := 14 ≤ p.length ∧ getBe16 p 12 = v

section Typed

variable {v : BitVec 16} {p src : List Byte} {i n : ℕ}

/-- A write beside the type. -/
theorem Typed.blit (h : Typed v p) (hi : 14 ≤ i ∨ i + src.length ≤ 12) : Typed v (blit p i src) := by
  obtain ⟨hp, rfl⟩ := h
  rcases hi with hi | hi
  · have hl : 14 ≤ (p.take i).length := by
      rw [List.length_take]
      omega
    refine ⟨?_, getBe16_congr fun n hn => ?_⟩
    · rw [LinuxRouter.blit, List.length_append, List.length_append]
      omega
    · rw [LinuxRouter.blit, List.append_assoc, byteAt_append (by omega), byteAt_take (by omega)]
  · refine ⟨?_, getBe16_congr fun n hn => byteAt_blit (by omega) (by omega)⟩
    rw [length_blit (by omega)]
    exact hp

/-- A frame cut behind its type has it still. -/
theorem Typed.take (h : Typed v p) (hn : 14 ≤ n) : getBe16 (p.take n) 12 = v := by
  rw [getBe16_take (by omega)]
  exact h.2

/-- A frame of ARP has its Ethernet header. -/
theorem typed_arp (h : getBe16 p 12 = etherTypeArp) : Typed etherTypeArp p := by
  refine ⟨?_, h⟩
  by_contra hl
  have hb : byteAt p 13 = 0 := by
    rw [byteAt, List.getD_eq_getElem?_getD, List.getElem?_eq_none (by omega)]
    rfl
  have hne : ∀ x : Byte, x.setWidth 16 <<< 8 ||| (0#8).setWidth 16 ≠ etherTypeArp := by decide
  rw [getBe16, hb] at h
  exact hne _ h

/-- What `arp_request` transmits. -/
theorem typed_request (it : Iface) (ip : Ip) (f : List Byte) :
    Typed etherTypeArp (arpRequestFrame it ip f) := by
  have hmac : ∀ mac : Mac, mac.toList.length = 6 := fun mac => by simp
  rw [arpRequestFrame]
  -- the Ethernet header
  have l₀ : 42 ≤ (LinuxRouter.blit f 0 (List.replicate 42 0)).length := by
    rw [LinuxRouter.blit, List.length_append, List.length_append, List.length_replicate]
    omega
  generalize LinuxRouter.blit f 0 (List.replicate 42 0) = p₀ at l₀ ⊢
  have l₁ := length_blit (p := p₀) (i := 0) (by rw [hmac]; omega : 0 + bcastMac.toList.length ≤ _)
  generalize LinuxRouter.blit p₀ 0 bcastMac.toList = p₁ at l₁ ⊢
  have l₂ := length_blit (p := p₁) (i := 6) (by rw [hmac]; omega : 6 + it.mac.toList.length ≤ _)
  generalize LinuxRouter.blit p₁ 6 it.mac.toList = p₂ at l₂ ⊢
  have h : Typed etherTypeArp (putBe16 p₂ 12 etherTypeArp) := by
    refine ⟨?_, getBe16_putBe16 (by omega) _⟩
    rw [(patched_putBe16 (by omega) _).length]
    omega
  -- what follows is behind it
  refine Typed.blit (Typed.blit (Typed.blit (Typed.blit (Typed.blit (Typed.blit (Typed.blit
    (Typed.blit h ?_) ?_) ?_) ?_) ?_) ?_) ?_) ?_
  all_goals exact .inl (by decide)

/-- What `arp_respond` transmits. -/
theorem Typed.reply (h : Typed v p) (it : Iface) : Typed v (arpReplyFrame it p) := by
  have hmac : it.mac.toList.length = 6 := by simp
  have hsha : ((p.drop 22).take 6).length ≤ 6 := List.length_take_le _ _
  refine Typed.blit (Typed.blit (Typed.blit (Typed.blit (Typed.blit (Typed.blit (Typed.blit h
    (.inr ?_)) (.inr ?_)) (.inl ?_)) (.inl ?_)) (.inl ?_)) (.inl ?_)) (.inl ?_)
  all_goals omega

end Typed

/-! ### The functions that carry no frame -/

/-- A dropped frame is not sent. -/
theorem drop_idles (c : Counter) (b : Block) : (drop c b).Every fun _ c => c.idles = true :=
  ⟨rfl, fun _ => ⟨rfl, fun _ => ⟨rfl, fun _ => trivial⟩⟩⟩

theorem arpRequest_idles (k : Key) : (arpRequest k).Every fun _ c => c.idles = true := by
  refine Prog.every_step rfl fun ifs => ?_
  split
  · trivial
  · rename_i it _
    refine Prog.every_step rfl fun blk => ?_
    split
    · trivial
    · exact Prog.every_step rfl fun f => Prog.every_step rfl fun _ => Prog.every_step rfl fun _ =>
        Prog.every_step rfl fun _ =>
        Prog.every_step (Cmd.idles_pktSend ((typed_request it k.1 f.data).take (by decide))) fun _ =>
        Prog.every_step rfl fun _ => Prog.every_last rfl

/-- The look for an own address touches no block. -/
theorem arpOurs_beside (tpa : Ip) :
    (arpOurs tpa).Every fun _ c => c.idles = true ∧ c.touches = none :=
  arpOurs_every ⟨rfl, rfl⟩ ⟨rfl, rfl⟩ (fun _ => ⟨rfl, rfl⟩) tpa

theorem countExpired_idles (evs : List Evicted) :
    (countExpired evs).Every fun _ c => c.idles = true :=
  countExpired_every (fun _ => rfl) evs

/-! ### The functions that carry one -/

/-- What has to be shown of a cargo: `forward_send` may be called for a parked frame, `forward_task`
for a queued one, and what the receive loop fills a block with may be queued. -/
structure Carried : Prop where
  send : ∀ (t : Tid) b mac B (μ : Block → FwdFrame) (ν : Block → N), b ∉ B → C.parked (μ b) (ν b) →
    C.Bears t (Bearing t C.idle (b :: B) μ ν) (forwardSend b mac) fun _ => Bearing t C.idle B μ ν
  task : ∀ (t : Tid) b (μ : Block → FwdFrame) (ν : Block → N), C.queued (μ b) (ν b) →
    C.Bears t (Bearing t C.idle [b] μ ν) (forwardTask b) fun _ => C.Idle t
  received : ∀ b (r : Rx) (f : FwdFrame) (n : N),
    C.queued ((f.write (.data (blit f.data 0 r.bytes))).write (.len (r.bytes.length % 2 ^ 16)))
      (C.note (.write b (.len (r.bytes.length % 2 ^ 16))) () (C.note (.recvfrom b) (some r) n))

section Functions

variable {C} {t : Tid} {μ : Block → FwdFrame} {ν : Block → N}

/-- A chain of parked frames, sent one by one. -/
theorem Carried.sendChain (h : C.Carried) {mac : Mac} {B : List Block} {n : ℕ} {p : Option Block}
    (hc : Linked.IsChain (Mem.next μ) p B) (hl : B.length ≤ n) (hnd : B.Nodup)
    (hp : ∀ b ∈ B, C.parked (μ b) (ν b)) :
    C.Bears t (Bearing t C.idle B μ ν) (sendChain mac n p) fun _ => C.Idle t := by
  induction B generalizing n p with
  | nil =>
      obtain rfl := Linked.IsChain.nil_iff.mp hc
      cases n <;> exact bears_ret fun _ h => h.mind
  | cons b B ih =>
      obtain ⟨rfl, ht⟩ := Linked.IsChain.cons_iff.mp hc
      obtain ⟨hb, hnd⟩ := List.nodup_cons.mp hnd
      cases n with
      | zero => simp at hl
      | succ n =>
          simp only [LinuxRouter.sendChain, Prog.perform_bind]
          refine bears_load (M := C.idle) List.mem_cons_self (fun l ν hl => C.idle_ensures _ _ rfl hl)
            (fun l hl => C.idle_mind _ _ rfl hl) ?_
          refine (h.send t b mac B μ ν hb (hp b List.mem_cons_self)).bind fun _ => ?_
          exact ih ht (by simpa using hl) hnd fun c hc => hp c (List.mem_cons_of_mem b hc)

/-- **`forward_flush_pending`**: what was parked is sent. -/
theorem Carried.forwardFlushPending (h : C.Carried) (k : Key) :
    C.Bears t (C.Idle t) (forwardFlushPending k) fun _ => C.Idle t := by
  simp only [LinuxRouter.forwardFlushPending, Prog.perform_bind, Prog.pure_eq]
  refine idle_step rfl fun mac => ?_
  cases mac with
  | none => exact idle_ret fun _ h => h
  | some mac =>
      refine bears_detach (idle_ret fun _ h => h) fun B μ ν p hc hl hnd hp => ?_
      exact h.sendChain hc hl hnd hp

/-- `arp_respond` transmits the request in hand, which is ARP. -/
theorem bears_arpRespond {b : Block} {i : CInt} {it : Iface} (hl : 14 ≤ (μ b).len)
    (ha : getBe16 (μ b).data 12 = etherTypeArp) :
    C.Bears t (Bearing t C.idle [b] μ ν) (arpRespond b i it) fun _ => C.Idle t := by
  simp only [arpRespond, Prog.perform_bind]
  refine bears_load (M := C.idle) List.mem_cons_self (fun l ν hl => C.idle_ensures _ _ rfl hl)
    (fun l hl => C.idle_mind _ _ rfl hl) ?_
  refine bears_write (M := C.idle) List.mem_cons_self (fun l ν hl => C.idle_ensures _ _ rfl hl)
    (fun l hl => C.idle_mind _ _ rfl hl) ?_
  exact bears_last (Prog.every_step (Cmd.idles_pktSend (((typed_arp ha).reply it).take hl)) fun _ =>
    Prog.every_last rfl)

/-- An ARP frame, which may flush. -/
theorem Carried.arpHandleFrame (h : C.Carried) (b : Block) (i : CInt)
    (ha : getBe16 (μ b).data 12 = etherTypeArp) :
    C.Bears t (Bearing t C.idle [b] μ ν) (arpHandleFrame b i) fun _ => C.Idle t := by
  simp only [LinuxRouter.arpHandleFrame, Prog.perform_bind]
  refine bears_load (M := C.idle) List.mem_cons_self (fun l ν hl => C.idle_ensures _ _ rfl hl)
    (fun l hl => C.idle_mind _ _ rfl hl) ?_
  split
  · exact bears_last (drop_idles _ _)
  · rename_i hok
    have hlen : 14 ≤ (μ b).len := by
      simp only [arpFrameOk, Bool.not_eq_true', Bool.not_eq_false, Bool.and_eq_true,
        decide_eq_true_eq] at hok
      omega
    have hanswer : ∀ spa tpa, C.Bears t (Bearing t C.idle [b] μ ν) (arpAnswer b i spa tpa)
        fun _ => C.Idle t := by
      intro spa tpa
      refine (bears_beside (arpOurs_beside tpa)).bind fun it => ?_
      cases it with
      | none => exact bears_last (Prog.every_last rfl)
      | some it =>
          refine (bears_arpRespond hlen ha).bind fun _ => ?_
          exact (h.forwardFlushPending _).bind fun _ => bears_of_every (Prog.every_last rfl)
    have hrest : C.Bears t (Bearing t C.idle [b] μ ν)
        (if getBe16 (μ b).data 20 ≠ arpOperReq then Prog.perform (.mpFree b)
          else arpAnswer b i (getBe32 (μ b).data 28) (getBe32 (μ b).data 38)) fun _ => C.Idle t := by
      split
      · exact bears_last (Prog.every_last rfl)
      · exact hanswer _ _
    refine bears_idle rfl (fun _ hb => by cases hb) fun ifs => ?_
    split
    · exact bears_idle rfl (fun _ hb => by cases hb) fun _ => hrest
    · exact hrest

/-- What the receive loop does with a frame. -/
theorem Carried.rxDispatch (h : C.Carried) (b : Block) (i : CInt) (hb : C.queued (μ b) (ν b)) :
    C.Bears t (Bearing t C.idle [b] μ ν) (rxDispatch b i) fun _ => C.Idle t := by
  simp only [LinuxRouter.rxDispatch, Prog.perform_bind]
  refine bears_load (M := C.idle) List.mem_cons_self (fun l ν hl => C.idle_ensures _ _ rfl hl)
    (fun l hl => C.idle_mind _ _ rfl hl) ?_
  split
  · rename_i ha
    exact h.arpHandleFrame b i ha
  · split
    · refine bears_submit hb fun ok => ?_
      cases ok with
      | true => exact idle_ret fun _ h => h
      | false => exact bears_of_every ⟨rfl, fun _ => ⟨rfl, fun _ => trivial⟩⟩
    · exact bears_last ⟨rfl, fun _ => ⟨rfl, fun _ => trivial⟩⟩

theorem Carried.rxRound (h : C.Carried) :
    C.Bears t (C.Idle t) rxRound fun _ => C.Idle t := by
  simp only [LinuxRouter.rxRound, Prog.perform_bind, Prog.pure_eq]
  refine idle_step rfl fun stop => ?_
  split
  · exact idle_ret fun _ h => h
  · refine bears_alloc (idle_ret fun _ h => h) fun b μ ν => ?_
    refine bears_recv (idle_step rfl fun stop => idle_ret fun _ h => h) fun r => ?_
    refine Bears.bind (R := fun _ => C.Idle t) ?_ fun _ => idle_ret fun _ h => h
    simp only [rxFrame, Prog.perform_bind]
    refine bears_idle rfl (fun _ h => by cases h) fun _ => ?_
    refine bears_write List.mem_cons_self (fun l ν hl => C.idle_ensures _ _ rfl hl)
      (fun l hl => C.idle_mind _ _ rfl hl) ?_
    refine bears_idle rfl (fun _ h => by cases h) fun ifs => ?_
    split
    · exact bears_last (drop_idles _ _)
    · split
      · exact bears_last (drop_idles _ _)
      · refine h.rxDispatch b r.ifindex ?_
        simp only [Function.update_self]
        exact h.received b r (μ b) (ν b)

theorem Carried.timerRound (h : C.Carried) :
    C.Bears t (C.Idle t) timerRound fun _ => C.Idle t := by
  have hkeys : ∀ ks, C.Bears t (C.Idle t) (retryKeys ks) fun _ => C.Idle t := by
    intro ks
    induction ks with
    | nil => exact idle_ret fun _ h => h
    | cons k ks ih =>
        exact (bears_of_every (arpRequest_idles k)).bind fun _ =>
          (h.forwardFlushPending k).bind fun _ => ih
  simp only [LinuxRouter.timerRound, pendTick, Prog.perform_bind, Prog.pure_eq]
  refine idle_step rfl fun stop => ?_
  split
  · exact idle_ret fun _ h => h
  · refine idle_step rfl fun stop => ?_
    split
    · exact idle_ret fun _ h => h
    · refine idle_step rfl fun _ => idle_step rfl fun w => Bears.bind ?_ fun _ =>
        idle_ret fun _ h => h
      exact (bears_of_every (countExpired_idles _)).bind fun _ => hkeys _

theorem Carried.workerRound (h : C.Carried) :
    C.Bears t (C.Idle t) workerRound fun _ => C.Idle t := by
  simp only [LinuxRouter.workerRound, Prog.perform_bind]
  refine bears_take (fun a ha => ?_) fun b μ ν hb => ?_
  · rcases a with _ | _ | _ | b
    · exact idle_ret fun _ h => h
    · exact idle_ret fun _ h => h
    · exact idle_ret fun _ h => h
    · exact absurd rfl (ha b)
  · exact (h.task t b μ ν hb).bind fun _ => idle_ret fun _ h => h

theorem Carried.round (h : C.Carried) (l : Unit) :
    C.Bears t (C.Idle t) (round t l) fun _ => C.Idle t := by
  cases t with
  | rx => exact h.rxRound
  | timer => exact h.timerRound
  | worker i => exact h.workerRound

end Functions

/-! ### Runs -/

section Runs

variable {C} {ifs : Ifaces} {routes : List Route} {rules : List FwRule} {proxy : Bool} {clz0 : CInt}
  {m : Mem} {v : Log Λ N} {y : Config (By Tid Cmd) (Logged Λ N) Tid Tid Unit}
  {ok : ∀ ⦃β : Type⦄, Tid → By Tid Cmd β → Env → Logged Λ N → Prop}

/-- **Every run** keeps the discipline. -/
theorem Carried.good_of_reach (hC : C.Carried) (hv : ∀ t, C.idle (v.mind t))
    (h : Reach (dataPlane.watched C.watch) ok
      ((Plane.init ifs routes rules proxy clz0 m).start.shadow v) y) :
    C.discipline.Good (fun t _ g x => g = t ∧ C.Idle t x) y := by
  have hok : Reach (dataPlane.watched C.watch) inOrder
      ((Plane.init ifs routes rules proxy clz0 m).start.shadow v) y :=
    Reach.refine (fun y hy β t c k e ht _ => watched_inOrder hy ht) h
  refine Discipline.sound ?_ ?_ ?_ hok
  · rintro t l g x x' ⟨rfl, hc⟩ hu -
    refine ⟨rfl, ?_⟩
    rw [Idle, hu.mind]
    exact hc
  · rintro t l g x ⟨rfl, hc⟩
    exact (hC.round l x hc).mono fun r u x hq _ _ => hq
  · refine ⟨⟨fun t => rfl, fun b hb => ?_, fun k b hk => ?_⟩, fun t => ⟨rfl, hv t⟩⟩
    · have hb : some b ∈ ([] : List (Option Block)) := hb
      cases hb
    · obtain ⟨i, hb, -⟩ := (PendRep.init m).parked_iff.mp hk
      cases hb

/-- **What is stowed is as it should be.** -/
theorem Carried.stowed_of_reach (hC : C.Carried) (hv : ∀ t, C.idle (v.mind t))
    (h : Reach (dataPlane.watched C.watch) ok
      ((Plane.init ifs routes rules proxy clz0 m).start.shadow v) y) : C.Stowed y.shared :=
  (hC.good_of_reach hv h).1.2

/-- **A thread that is about to run a command has ensured what it should.** -/
theorem Carried.pre_of_reach (hC : C.Carried) (hv : ∀ t, C.idle (v.mind t))
    (h : Reach (dataPlane.watched C.watch) ok
      ((Plane.init ifs routes rules proxy clz0 m).start.shadow v) y) {t : Tid} {β : Type}
    {c : By Tid Cmd β} {k : β → Prog (By Tid Cmd) (Option Unit)}
    (ht : y.thread t = .running (.cmd c k)) : C.pre t c.cmd y.shared := by
  have hgood := hC.good_of_reach hv h
  have hrun := hgood.2 t
  rw [ht] at hrun
  exact (hrun _ (C.discipline.rely_refl _ _) (C.discipline.fact_of_inv t hgood.1)).1.2

/-- **Who is not in the middle of a frame transmits nothing but ARP.** -/
theorem Carried.idle_sends (hC : C.Carried) (hv : ∀ t, C.idle (v.mind t))
    (h : Reach (dataPlane.watched C.watch) ok
      ((Plane.init ifs routes rules proxy clz0 m).start.shadow v) y) {t : Tid} {g : List Byte} {i : CInt}
    (hg : sendsNext (y.thread t) = some (g, i)) (hi : C.idle (y.shared.view.mind t)) :
    getBe16 g 12 = etherTypeArp := by
  obtain ⟨u, k, ht⟩ := sendsNext_eq_some hg
  exact (hC.pre_of_reach hv h ht).1 hi

end Runs

end Cargo

end LinuxRouter
