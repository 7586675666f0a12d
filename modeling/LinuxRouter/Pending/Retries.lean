import LinuxRouter.Pending.Conservation
import Mathlib.Logic.Relation

/-!
# Pending — parking is bounded

The runs of Pending/Conservation, with two clocks added: how many walks of `pend_tick` there were,
and at which of them each slot was last created.  A call of `pend_tick` that starts after a slot was
created, and is complete, has its walk after it.

* `InTime`: a used slot has been retried at every walk since it was created;
* `Stays`: a frame to which nothing happens stays in its slot, and the slot is not created anew.

Headline: `parking_bounded`.

A slot leaves the table at the latest when its retries are used up, and every walk adds one, so that
the age of a slot bounds its frames' stay.  The age is not in the state, since a slot can be given
up and filled again; the clocks keep it, and change nothing else.  A frame that is still there after
too many walks would be in a slot that is too old (`InTime`), in the same one it was in before
(`Stays`).
-/

namespace LinuxRouter

/-- A state with the walks so far, and the walks there had been when each slot was created. -/
structure Aged where
  pend : PendState
  ticks : ℕ
  created : Slot → ℕ

/-- The slot that `pend_enqueue` has created. -/
def Enqueued.newSlot (t : PendTable) : Enqueued → Option Slot
  | .joined => none
  | .created _ => t.head
  | .full => none
  | .noSlot => none

namespace Aged

def init (m : Mem) : Aged where
  pend := .init m
  ticks := 0
  created := fun _ => 0

/-- `pend_enqueue(k, b)`. -/
def enqueue (s : Aged) (now : ℕ) (k : Key) (b : Block) : Aged where
  pend := s.pend.enqueue now k b
  ticks := s.ticks
  created := fun i =>
    if (pendEnqueue now k b s.pend.mem s.pend.table).1.newSlot (s.pend.enqueue now k b).table = some i
    then s.ticks else s.created i

/-- The critical section of `pend_tick`. -/
def tick (s : Aged) (now : ℕ) : Aged where
  pend := s.pend.tick now
  ticks := s.ticks + 1
  created := s.created

end Aged

/-- The steps of `PendStep`, with the clocks. -/
inductive AgedStep (s : Aged) : Aged → Prop where
  | alloc (b : Block) (hb : ∀ k, ¬ s.pend.parked k b) :
      AgedStep s { s with pend := s.pend.alloc b }
  | write (m : Mem) (hp : ∀ k b, s.pend.parked k b → m b = s.pend.mem b)
      (hh : ∀ b ∈ s.pend.held, m.next b = s.pend.mem.next b) :
      AgedStep s { s with pend := { s.pend with mem := m } }
  | enqueue (now : ℕ) (k : Key) (b : Block) (hb : b ∈ s.pend.held) :
      AgedStep s (s.enqueue now k b)
  | flush (k : Key) : AgedStep s { s with pend := s.pend.flush k }
  | flushMiss (k : Key) : AgedStep s s
  | tick (now : ℕ) : AgedStep s (s.tick now)

/-- The runs from an empty table. -/
def AgedRun (m : Mem) (s : Aged) : Prop := Relation.ReflTransGen AgedStep (.init m) s

/-! ### The clocks change nothing -/

theorem AgedStep.pend {s s' : Aged} (h : AgedStep s s') : PendStep s.pend s'.pend := by
  cases h with
  | alloc b hb => exact .alloc b hb
  | write m hp hh => exact .write m hp hh
  | enqueue now k b hb => exact .enqueue now k b hb
  | flush k => exact .flush k
  | flushMiss k => exact .flushMiss k
  | tick now => exact .tick now

/-- Every step of a run can be timed. -/
theorem PendStep.aged {s : Aged} {p : PendState} (h : PendStep s.pend p) :
    ∃ s', AgedStep s s' ∧ s'.pend = p := by
  cases h with
  | alloc b hb => exact ⟨_, .alloc b hb, rfl⟩
  | write m hp hh => exact ⟨_, .write m hp hh, rfl⟩
  | enqueue now k b hb => exact ⟨_, .enqueue now k b hb, rfl⟩
  | flush k => exact ⟨_, .flush k, rfl⟩
  | flushMiss k => exact ⟨_, .flushMiss k, rfl⟩
  | tick now => exact ⟨_, .tick now, rfl⟩

theorem AgedRun.pend {m : Mem} {s : Aged} (h : AgedRun m s) : PendRun m s.pend := by
  induction h with
  | refl => exact .init
  | tail _ hs ih => exact ih.step hs.pend

/-- Every run can be timed. -/
theorem PendRun.aged {m : Mem} {p : PendState} (h : PendRun m p) :
    ∃ s, AgedRun m s ∧ s.pend = p := by
  induction h with
  | init => exact ⟨_, .refl, rfl⟩
  | step _ hs ih =>
      obtain ⟨s, hr, rfl⟩ := ih
      obtain ⟨s', hs', rfl⟩ := hs.aged
      exact ⟨s', hr.tail hs', rfl⟩

/-- The ledger only grows. -/
theorem PendStep.ledger_grows {p p' : PendState} (h : PendStep p p') :
    ∃ es, p'.ledger = p.ledger ++ es := by
  cases h with
  | alloc => exact ⟨[], (List.append_nil _).symm⟩
  | write => exact ⟨[], (List.append_nil _).symm⟩
  | enqueue => exact ⟨_, rfl⟩
  | flush => exact ⟨_, rfl⟩
  | flushMiss => exact ⟨[], (List.append_nil _).symm⟩
  | tick => exact ⟨_, rfl⟩

/-! ### The age of a slot -/

/-- Every used slot has been retried at each walk since it was created, and has retries left. -/
def InTime (s : Aged) : Prop :=
  ∀ i, (s.pend.table.node i).used = true →
    s.ticks = s.created i + (s.pend.table.node i).retries ∧
      (s.pend.table.node i).retries ≤ arpRetryMax

/-- A slot in use after `pend_enqueue` is the new one, or was in use and has the retries it had. -/
theorem EnqueueStep.retries {now : ℕ} {k : Key} {b : Block} {m m' : Mem} {t t' : PendTable}
    {r : Enqueued} (h : EnqueueStep now k b m t r m' t') {i : Slot}
    (hu : (t'.node i).used = true) :
    r.newSlot t' = some i ∧ (t'.node i).retries = 0 ∨
      r.newSlot t' ≠ some i ∧ (t.node i).used = true ∧
        (t'.node i).retries = (t.node i).retries := by
  cases h with
  | joined j =>
      refine .inr ⟨by simp [Enqueued.newSlot], ?_⟩
      by_cases e : i = j
      · subst e
        simpa using hu
      · simpa [e] using hu
  | full => exact .inr ⟨by simp [Enqueued.newSlot], hu, rfl⟩
  | noSlot => exact .inr ⟨by simp [Enqueued.newSlot], hu, rfl⟩
  | free j =>
      by_cases e : i = j
      · subst e
        exact .inl ⟨rfl, by simp⟩
      · refine .inr ⟨by simp [Enqueued.newSlot, PendTable.fill, Ne.symm e], ?_⟩
        simpa [e] using hu
  | evict j =>
      by_cases e : i = j
      · subst e
        exact .inl ⟨rfl, by simp⟩
      · refine .inr ⟨by simp [Enqueued.newSlot, PendTable.fill, Ne.symm e], ?_⟩
        simpa [e, node_releaseNode] using hu

/-- A slot in use after a release was in use, and has the retries it had. -/
theorem releaseNode_used {t : PendTable} {i j : Slot}
    (hu : ((releaseNode t i).node j).used = true) :
    (t.node j).used = true ∧ ((releaseNode t i).node j).retries = (t.node j).retries := by
  refine ⟨?_, retries_releaseNode t i j⟩
  rw [node_releaseNode] at hu
  split at hu
  · cases hu
  · exact hu

theorem InTime.init (m : Mem) : InTime (.init m) := fun _ hu => nomatch hu

/-- **One step keeps slots in time.** -/
theorem InTime.step {s s' : Aged} {order : List Slot} {chains : Slot → List Block} (h : InTime s)
    (hp : Parking s.pend order chains) (hs : AgedStep s s') : InTime s' := by
  cases hs with
  | alloc b hb => exact h
  | write m hm hh => exact h
  | enqueue now k b hb =>
      intro i hu
      have hst := enqueue_step now k b s.pend.mem s.pend.table
      rcases hst.retries hu with ⟨hn, hr⟩ | ⟨hn, hu', hr⟩
      · have hr : ((s.pend.enqueue now k b).table.node i).retries = 0 := hr
        have hn : (pendEnqueue now k b s.pend.mem s.pend.table).1.newSlot
            (s.pend.enqueue now k b).table = some i := hn
        simp [Aged.enqueue, hr, hn]
      · have hr : ((s.pend.enqueue now k b).table.node i).retries =
            (s.pend.table.node i).retries := hr
        have hn : (pendEnqueue now k b s.pend.mem s.pend.table).1.newSlot
            (s.pend.enqueue now k b).table ≠ some i := hn
        simp only [Aged.enqueue, hr, hn, if_false]
        exact h i hu'
  | flush k =>
      intro i hu
      simp only [PendState.flush, pendDetach] at hu ⊢
      split at hu
      · exact h i hu
      · obtain ⟨hu', hr⟩ := releaseNode_used hu
        simp only [hr]
        exact h i hu'
  | flushMiss => exact h
  | tick now =>
      intro i hu
      have hw := sweep_spec hp.rep now
      have hi := (hw.rep.used i).mp hu
      simp only [List.nil_append, List.mem_filter, Bool.not_eq_true', PendTable.expired,
        decide_eq_false_iff_not, not_le] at hi
      obtain ⟨hio, hlt⟩ := hi
      have hr : ((s.tick now).pend.table.node i).retries = (s.pend.table.node i).retries + 1 := by
        have hr := hw.retries i
        simp only [PendTable.expired, hio, decide_eq_false (not_le.mpr hlt), Bool.not_false,
          and_self, if_true] at hr
        exact hr
      obtain ⟨ht, -⟩ := h i ((hp.rep.used i).mpr hio)
      rw [hr]
      simp only [Aged.tick]
      omega

theorem AgedRun.inTime {m : Mem} {s : Aged} (h : AgedRun m s) : InTime s := by
  induction h with
  | refl => exact .init m
  | tail hr hs ih =>
      obtain ⟨_, _, hp⟩ := (AgedRun.pend hr).parking
      exact ih.step hp hs

/-! ### The frames of a slot -/

/-- The frame `b` is still in slot `i`, which is the slot it was. -/
structure Stays (s s' : Aged) (i : Slot) (b : Block) : Prop where
  frames : b ∈ s'.pend.table.frames s'.pend.mem i
  key : (s'.pend.table.node i).key = (s.pend.table.node i).key
  created : s'.created i = s.created i

theorem Stays.trans {s s₁ s' : Aged} {i : Slot} {b : Block} (h₁ : Stays s s₁ i b)
    (h₂ : Stays s₁ s' i b) : Stays s s' i b :=
  ⟨h₂.frames, h₂.key.trans h₁.key, h₂.created.trans h₁.created⟩

section

variable {s s' : Aged} {order : List Slot} {chains : Slot → List Block} {i : Slot} {b : Block}

theorem mem_freeing {gs : List Freed} {w : Reason} {k : Key} {bs : List Block}
    (hg : (w, k, bs) ∈ gs) (hb : b ∈ bs) : .leave k (.freed w) b ∈ freeing gs :=
  List.mem_flatMap.mpr ⟨_, hg, List.mem_map.mpr ⟨b, hb, rfl⟩⟩

/-- A frame that `pend_enqueue` does not free stays. -/
theorem enqueue_stays (hp : Parking s.pend order chains) (hb : b ∈ chains i) (now : ℕ) (k : Key)
    {c : Block} (hc : c ∈ s.pend.held)
    (hn : ∀ e ∈ freeing ((pendEnqueue now k c s.pend.mem s.pend.table).1.freed k c),
      e.item ≠ b) : Stays s (s.enqueue now k c) i b := by
  obtain ⟨hcn, hcc⟩ := hp.held c hc
  have hst := enqueue_step now k c s.pend.mem s.pend.table
  obtain ⟨order', chains', hr, he⟩ := enqueue_rep hp.rep hcc hcn hst
  have hio := hp.rep.mem_order hb
  have hfr := hr.frames_eq i
  generalize hres : (pendEnqueue now k c s.pend.mem s.pend.table).1 = r at he hn
  generalize hkey : (fun j => ((pendEnqueue now k c s.pend.mem s.pend.table).2.2.node j).key) = key'
    at he
  have hki : ((s.enqueue now k c).pend.table.node i).key = key' i := by
    rw [← hkey]
    rfl
  have hcr : r.newSlot (pendEnqueue now k c s.pend.mem s.pend.table).2.2 ≠ some i →
      (s.enqueue now k c).created i = s.created i := by
    intro hne
    rw [← hres] at hne
    exact if_neg hne
  have hhead : (pendEnqueue now k c s.pend.mem s.pend.table).2.2.head = order'.head? :=
    hr.list.head?_eq
  suffices hkeep : b ∈ chains' i ∧ key' i = (s.pend.table.node i).key ∧
      r.newSlot (pendEnqueue now k c s.pend.mem s.pend.table).2.2 ≠ some i by
    obtain ⟨hm, hk, hne⟩ := hkeep
    exact ⟨hfr ▸ hm, hki.trans hk, hcr hne⟩
  cases he with
  | joined j =>
      refine ⟨?_, rfl, by simp [Enqueued.newSlot]⟩
      by_cases e : i = j
      · subst e
        simp [hb]
      · simpa [e] using hb
  | full => exact ⟨hb, rfl, by simp [Enqueued.newSlot]⟩
  | noSlot => exact ⟨hb, rfl, by simp [Enqueued.newSlot]⟩
  | free j hj =>
      have e : i ≠ j := fun e => hj (e ▸ hio)
      exact ⟨by simpa [e] using hb, by simp [e], by simp [Enqueued.newSlot, hhead, Ne.symm e]⟩
  | evict j hj =>
      have e : i ≠ j := by
        rintro rfl
        exact hn _ (mem_freeing (List.mem_singleton.mpr rfl) hb) rfl
      exact ⟨by simpa [e] using hb, by simp [e], by simp [Enqueued.newSlot, hhead, Ne.symm e]⟩

/-- **One step**: a frame to which nothing happens stays. -/
theorem AgedStep.stays (hp : Parking s.pend order chains) (hs : AgedStep s s')
    (hb : b ∈ chains i) :
    ∃ es, s'.pend.ledger = s.pend.ledger ++ es ∧ ((∀ e ∈ es, e.item ≠ b) → Stays s s' i b) := by
  cases hs with
  | alloc c hc =>
      exact ⟨[], (List.append_nil _).symm, fun _ =>
        ⟨((hp.alloc hc).rep.frames_eq i).symm ▸ hb, rfl, rfl⟩⟩
  | write m hm hh =>
      have hr : PendRep s.pend.table m order chains := hp.rep.congr_mem fun j c hc => by
        rw [Mem.next, Mem.next, hm _ c (hp.parked_of_mem hc)]
      exact ⟨[], (List.append_nil _).symm, fun _ => ⟨(hr.frames_eq i).symm ▸ hb, rfl, rfl⟩⟩
  | enqueue now k c hc =>
      exact ⟨_, rfl, fun hn => enqueue_stays hp hb now k hc fun e he =>
        hn e (List.mem_cons_of_mem _ he)⟩
  | flush k =>
      refine ⟨_, rfl, fun hn => ?_⟩
      cases hf : findPend s.pend.table k with
      | none =>
          have e : s.pend.flush k = s.pend := by
            simp [PendState.flush, PendState.detached, pendDetach, hf]
          exact ⟨by simpa [e, hp.rep.frames_eq] using hb, by rw [e], rfl⟩
      | some j =>
          obtain ⟨hj, rfl⟩ := hp.rep.findPend_eq_some.mp hf
          have hd : s.pend.detached (s.pend.table.node j).key = chains j := by
            simp only [PendState.detached, pendDetach, hf]
            exact hp.rep.frames_eq j
          -- the chain that is flushed is another, for its frames are sent
          have e : i ≠ j := by
            rintro rfl
            exact hn _ (List.mem_map.mpr ⟨b, hd ▸ hb, rfl⟩) rfl
          have ht : (s.pend.flush (s.pend.table.node j).key).table = releaseNode s.pend.table j := by
            simp [PendState.flush, pendDetach, hf]
          have hfr := (hp.rep.release_rep (i := j)).frames_eq i
          refine ⟨?_, by simp [ht], rfl⟩
          simp only [ht]
          rw [show (s.pend.flush (s.pend.table.node j).key).mem = s.pend.mem from rfl, hfr]
          simpa [e] using hb
  | flushMiss k =>
      exact ⟨[], (List.append_nil _).symm, fun _ => ⟨(hp.rep.frames_eq i).symm ▸ hb, rfl, rfl⟩⟩
  | tick now =>
      refine ⟨_, rfl, fun hn => ?_⟩
      have hw := sweep_spec hp.rep now
      have hio := hp.rep.mem_order hb
      -- the slot is not out of retries, for its frames are dropped
      have hexp : s.pend.table.expired i = false := by
        by_contra e
        rw [Bool.not_eq_false] at e
        refine hn _ (mem_freeing (w := .retries) (k := (s.pend.table.node i).key) ?_ hb) rfl
        rw [Sweep.freed, hw.dead]
        simp only [List.nil_append, List.map_map]
        exact List.mem_map.mpr ⟨i, List.mem_filter.mpr ⟨hio, e⟩, rfl⟩
      refine ⟨?_, hw.key i, rfl⟩
      have hfr := hw.rep.frames_eq i
      simp only [hexp, Bool.false_eq_true, and_false, if_false] at hfr
      exact hfr ▸ hb

end

/-- **A run**: a frame to which nothing happens stays. -/
theorem stays_run {m : Mem} {s s' : Aged} {i : Slot} {b : Block} (h : AgedRun m s)
    (hs : Relation.ReflTransGen AgedStep s s') (hb : b ∈ s.pend.table.frames s.pend.mem i) :
    ∃ es, s'.pend.ledger = s.pend.ledger ++ es ∧ ((∀ e ∈ es, e.item ≠ b) → Stays s s' i b) := by
  induction hs with
  | refl => exact ⟨[], (List.append_nil _).symm, fun _ => ⟨hb, rfl, rfl⟩⟩
  | @tail s₁ s' hr hs ih =>
      obtain ⟨es, he, hst⟩ := ih
      obtain ⟨_, _, hp⟩ := (AgedRun.pend (h.trans hr)).parking
      by_cases hn : ∀ e ∈ es, e.item ≠ b
      · have h₁ := hst hn
        obtain ⟨fs, hf, hst'⟩ := hs.stays hp (hp.rep.frames_eq i ▸ h₁.frames)
        refine ⟨es ++ fs, by rw [hf, he, List.append_assoc], fun hn' => h₁.trans (hst' ?_)⟩
        exact fun e h => hn' e (List.mem_append_right _ h)
      · obtain ⟨fs, hf⟩ := hs.pend.ledger_grows
        refine ⟨es ++ fs, by rw [hf, he, List.append_assoc], fun hn' => absurd ?_ hn⟩
        exact fun e h => hn' e (List.mem_append_left _ h)

/-- **Parking is bounded.**  A frame is in a slot at some point of a run.  Once there have been
`ARP_RETRY_MAX + 1` walks of `pend_tick` since the slot was created, whatever else has happened, the
frame has left it: it was given to `forward_send` or freed, under the slot's key, before anything
else happened to it. -/
theorem parking_bounded {m : Mem} {s s' : Aged} {i : Slot} {b : Block} (h : AgedRun m s)
    (hb : b ∈ s.pend.table.frames s.pend.mem i) (hs : Relation.ReflTransGen AgedStep s s')
    (ht : s.created i + (arpRetryMax + 1) ≤ s'.ticks) :
    ∃ before w after,
      s'.pend.ledger = s.pend.ledger ++
        (before ++ .leave (s.pend.table.node i).key w b :: after) ∧
      ∀ e ∈ before, e.item ≠ b := by
  obtain ⟨es, he, hst⟩ := stays_run h hs hb
  obtain ⟨_, chains, hp⟩ := h.pend.parking
  obtain ⟨_, chains', hp'⟩ := (AgedRun.pend (h.trans hs)).parking
  -- the ledger is a history, in which `b` is held at first
  have hf := hp.agrees.fate_mem (hp.rep.frames_eq i ▸ hb)
  obtain ⟨f, hf', -⟩ := hp'.agrees b
  rw [he, Custody.fate, Custody.run_append, ← Custody.fate, hf, Option.bind_some] at hf'
  have hsome : (Custody.run b (.held (s.pend.table.node i).key) es).isSome := by rw [hf']; rfl
  rcases Custody.left_of_held hsome with hn | ⟨before, w, after, rfl, hbef⟩
  · -- were it still there, the slot would be too old
    have hstay := hst hn
    have hio := hp'.rep.mem_order (hp'.rep.frames_eq i ▸ hstay.frames)
    obtain ⟨ha, hm⟩ := (AgedRun.inTime (h.trans hs)) i ((hp'.rep.used i).mpr hio)
    rw [hstay.created] at ha
    omega
  · exact ⟨before, w, after, he, hbef⟩

/-- A frame is handed over for a next hop that never answers, and there are four walks. -/
theorem parking_bounded_unanswered :
    let b := Block.heap 0
    let m : Mem := fun _ => { next := none, len := 0, outIfidx := 0, nexthop := 0, data := [] }
    let s := ({ Aged.init m with pend := (PendState.init m).alloc b } : Aged).enqueue 5 (7, 1) b
    let s' := (((s.tick 6).tick 7).tick 8).tick 9
    ∃ before w after, s'.pend.ledger = s.pend.ledger ++ (before ++ .leave (7, 1) w b :: after) ∧
      ∀ e ∈ before, e.item ≠ b := by
  intro b m s s'
  have hb : ∀ k, ¬ (PendState.init m).parked k b := by
    rintro k ⟨i, hu, -⟩
    cases hu
  have hr : AgedRun m s :=
    (Relation.ReflTransGen.single (.alloc b hb)).tail (.enqueue 5 (7, 1) b (Set.mem_insert _ _))
  have hw : Relation.ReflTransGen AgedStep s s' :=
    (((Relation.ReflTransGen.single (.tick 6)).tail (.tick 7)).tail (.tick 8)).tail (.tick 9)
  exact parking_bounded (i := ⟨0, by decide⟩) (b := b) hr (List.mem_singleton.mpr rfl) hw le_rfl

end LinuxRouter
