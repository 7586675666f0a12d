import LinuxRouter.Support.Custody
import LinuxRouter.Pending.Slots

/-!
# Pending — every frame is accounted for

Runs of `pend_enqueue`, `forward_flush_pending` and `pend_tick` in any order, each critical section
one step, with the frames' memory in the hands of others between them.  The run keeps a ledger of
the frames: a frame enters when it is handed to `pend_enqueue`, and leaves when it goes to
`forward_send`, or to `mp_free` for the `Reason` the ledger names.

`Parking` is the invariant: the table has its shape (`PendRep`), the ledger is a history, and by it
a frame is held exactly under the key of the slot whose chain it is in.  Headline:
`pending_conserved`.

The ledger is what makes the statement more than one about the table: `parked` can be seen in a
state, but that a frame was freed once, and not twice, is about the run.  Each step writes down what
its function returns, the frames of a chain one after the other, and the invariant is kept by
comparing two changes, that of the chains (`Pending/Slots`) and that of the ledger
(`Support/Custody`).  An eviction is the case where they are not in step: the new frame enters
before the old ones leave, and the order does not matter because they are different frames.
-/

namespace LinuxRouter

open Linked (IsChain)
open Custody (Fate)

/-- Why the pending table gives a frame to `mp_free`. -/
inductive Reason where
  /-- the chain of its next hop has `PEND_CHAIN_MAX` frames -/
  | chainFull
  /-- the table is full, and no slot was taken from another next hop -/
  | noSlot
  /-- its slot was taken for another next hop -/
  | evicted
  /-- the slot was at its last retry -/
  | retries
  deriving DecidableEq

instance : Fintype Reason :=
  ⟨{.chainFull, .noSlot, .evicted, .retries}, fun why => by cases why <;> simp⟩

/-- How a frame leaves the pending table. -/
inductive Exit where
  | sent
  | freed (why : Reason)
  deriving DecidableEq

instance : Fintype Exit :=
  ⟨insert .sent (Finset.univ.image .freed), fun w => by cases w <;> simp⟩

theorem Exit.sum_eq (g : Exit → ℕ) : ∑ w, g w = g .sent + ∑ why, g (.freed why) :=
  (Finset.sum_insert (by simp)).trans
    (congrArg _ (Finset.sum_image fun _ _ _ _ e => Exit.freed.inj e))

/-- The table, the frames' memory, the blocks that callers hold, and the ledger. -/
structure PendState where
  mem : Mem
  table : PendTable
  held : Set Block
  ledger : List (Custody.Event Block Key Exit)

/-- The frame `b` is in the chain of a used slot with key `k`. -/
def PendState.parked (s : PendState) (k : Key) (b : Block) : Prop := s.table.parked s.mem k b

/-- Frames that are freed together: why, the key they were handed over under, and the frames. -/
abbrev Freed := Reason × Key × List Block

/-- The frames that `pend_enqueue` frees. -/
def Enqueued.freed (k : Key) (b : Block) : Enqueued → List Freed
  | .joined => []
  | .created none => []
  | .created (some ev) => [(.evicted, ev.key, ev.frames)]
  | .full => [(.chainFull, k, [b])]
  | .noSlot => [(.noSlot, k, [b])]

/-- The frames that the walk of `pend_tick` frees. -/
def Sweep.freed (r : Sweep) : List Freed := r.dead.map fun e => (.retries, e.key, e.frames)

/-- Frees, as the ledger has them. -/
def freeing (gs : List Freed) : List (Custody.Event Block Key Exit) :=
  gs.flatMap fun g => g.2.2.map (.leave g.2.1 (.freed g.1))

namespace PendState

def init (m : Mem) : PendState where
  mem := m
  table := .init
  held := ∅
  ledger := []

/-- `mp_alloc` gives out the block `b`. -/
def alloc (s : PendState) (b : Block) : PendState where
  mem := Function.update s.mem b (s.mem b).fresh
  table := s.table
  held := insert b s.held
  ledger := s.ledger

/-- `pend_enqueue(k, b)`. -/
def enqueue (s : PendState) (now : ℕ) (k : Key) (b : Block) : PendState where
  mem := (pendEnqueue now k b s.mem s.table).2.1
  table := (pendEnqueue now k b s.mem s.table).2.2
  held := s.held \ {b}
  ledger := s.ledger ++ .enter k b :: freeing ((pendEnqueue now k b s.mem s.table).1.freed k b)

/-- The frames of the chain that `forward_flush_pending(k)` detaches. -/
def detached (s : PendState) (k : Key) : List Block :=
  match (pendDetach k s.table).1 with
  | none => []
  | some h => Linked.toList s.mem.next pendChainMax h

/-- `forward_flush_pending(k)`, once ARP has an answer. -/
def flush (s : PendState) (k : Key) : PendState where
  mem := s.mem
  table := (pendDetach k s.table).2
  held := s.held
  ledger := s.ledger ++ (s.detached k).map (.leave k .sent)

/-- The critical section of `pend_tick`. -/
def tick (s : PendState) (now : ℕ) : PendState where
  mem := s.mem
  table := (pendSweep now s.mem s.table).table
  held := s.held
  ledger := s.ledger ++ freeing (pendSweep now s.mem s.table).freed

end PendState

/-- The steps of a run.  A caller hands over a block it got from `mp_alloc`, whose `next` is still
as `mp_alloc` left it; the rest of its memory, and all of a block that is neither held nor parked,
may change at any time.  The flushes that follow the walk of `pend_tick` are flushes of their own. -/
inductive PendStep (s : PendState) : PendState → Prop where
  | alloc (b : Block) (hb : ∀ k, ¬ s.parked k b) : PendStep s (s.alloc b)
  | write (m : Mem) (hp : ∀ k b, s.parked k b → m b = s.mem b)
      (hh : ∀ b ∈ s.held, m.next b = s.mem.next b) : PendStep s { s with mem := m }
  | enqueue (now : ℕ) (k : Key) (b : Block) (hb : b ∈ s.held) : PendStep s (s.enqueue now k b)
  | flush (k : Key) : PendStep s (s.flush k)
  | flushMiss (k : Key) : PendStep s s
  | tick (now : ℕ) : PendStep s (s.tick now)

/-- The runs from an empty table. -/
inductive PendRun (m : Mem) : PendState → Prop where
  | init : PendRun m (.init m)
  | step {s s' : PendState} (h : PendRun m s) (hs : PendStep s s') : PendRun m s'

/-! ### The invariant -/

/-- The ledger puts each frame where the chains have it. -/
def Agrees (key : Slot → Key) (chains : Slot → List Block)
    (es : List (Custody.Event Block Key Exit)) : Prop :=
  ∀ b, ∃ f, Custody.fate b es = some f ∧ ∀ k, f = .held k ↔ ∃ i, b ∈ chains i ∧ key i = k

/-- The invariant of a run, at a slot list and its chains. -/
structure Parking (s : PendState) (order : List Slot) (chains : Slot → List Block) : Prop where
  rep : PendRep s.table s.mem order chains
  agrees : Agrees (fun i => (s.table.node i).key) chains s.ledger
  held : ∀ b ∈ s.held, s.mem.next b = none ∧ ∀ i, b ∉ chains i

namespace Agrees

variable {key key' : Slot → Key} {chains chains' : Slot → List Block}
  {es : List (Custody.Event Block Key Exit)} {b : Block} {i : Slot} {k : Key}

theorem init (key : Slot → Key) : Agrees key (fun _ => []) [] :=
  fun _ => ⟨.fresh, rfl, by simp⟩

/-- A frame in a chain is held under the chain's key. -/
theorem fate_mem (h : Agrees key chains es) (hb : b ∈ chains i) :
    Custody.fate b es = some (.held (key i)) := by
  obtain ⟨f, hf, hk⟩ := h b
  rw [hf, (hk (key i)).mpr ⟨i, hb, rfl⟩]

/-- A frame in no chain is not held. -/
theorem fate_notMem (h : Agrees key chains es) (hb : ∀ i, b ∉ chains i) :
    ∃ f, Custody.fate b es = some f ∧ ∀ k, f ≠ .held k := by
  obtain ⟨f, hf, hk⟩ := h b
  refine ⟨f, hf, fun k e => ?_⟩
  obtain ⟨i, hi, -⟩ := (hk k).mp e
  exact hb i hi

/-- The keys of the slots with an empty chain do not matter. -/
theorem congr_key {K : Slot → Key} (h : Agrees key chains es)
    (hk : ∀ i, chains i ≠ [] → K i = key i) : Agrees K chains es := by
  intro b
  obtain ⟨f, hf, hfk⟩ := h b
  refine ⟨f, hf, fun k => (hfk k).trans (exists_congr fun i => and_congr_right fun hb => ?_)⟩
  rw [hk i (List.ne_nil_of_mem hb)]

/-- A frame handed over and put into the chain of its key. -/
theorem enter (h : Agrees key chains es) (hb : ∀ i, b ∉ chains i) (i : Slot) :
    Agrees key (Function.update chains i (b :: chains i)) (es ++ [.enter (key i) b]) := by
  intro c
  by_cases e : b = c
  · subst e
    obtain ⟨f, hf, hne⟩ := h.fate_notMem hb
    refine ⟨.held (key i), ?_, fun k => ⟨?_, ?_⟩⟩
    · unfold Custody.fate at hf ⊢
      rw [Custody.run_append, hf, Option.bind_some, Custody.run_enter_self hne]
      rfl
    · rintro ⟨⟩
      exact ⟨i, by simp, rfl⟩
    · rintro ⟨j, hj, rfl⟩
      by_cases e : j = i
      · rw [e]
      · rw [Function.update_of_ne e] at hj
        exact absurd hj (hb j)
  · obtain ⟨f, hf, hk⟩ := h c
    refine ⟨f, ?_, fun k => (hk k).trans (exists_congr fun j => and_congr_left' ?_)⟩
    · unfold Custody.fate at hf ⊢
      rw [Custody.run_append, hf, Option.bind_some, Custody.run_enter_ne e]
      rfl
    · by_cases ej : j = i
      · subst ej
        simp [Ne.symm e]
      · simp [ej]

/-- A frame handed over and given back at once. -/
theorem bounce (h : Agrees key chains es) (hb : ∀ i, b ∉ chains i) (k : Key) (w : Exit) :
    Agrees key chains (es ++ [.enter k b, .leave k w b]) := by
  intro c
  by_cases e : b = c
  · subst e
    obtain ⟨f, hf, hne⟩ := h.fate_notMem hb
    refine ⟨.left k w, ?_, fun k' => ⟨(by rintro ⟨⟩), ?_⟩⟩
    · unfold Custody.fate at hf ⊢
      rw [Custody.run_append, hf, Option.bind_some, Custody.run_enter_self hne]
      exact Custody.run_leaves_of_mem [b] (by simp) (by simp)
    · rintro ⟨j, hj, -⟩
      exact absurd hj (hb j)
  · obtain ⟨f, hf, hk⟩ := h c
    refine ⟨f, ?_, hk⟩
    unfold Custody.fate at hf ⊢
    rw [Custody.run_append, hf, Option.bind_some, Custody.run_enter_ne e]
    exact Custody.run_leaves_of_notMem [b] (by simpa using Ne.symm e)

/-- A chain's frames leave together, under its key. -/
theorem leave (h : Agrees key chains es) (hd : (chains i).Nodup)
    (hu : ∀ j, j ≠ i → (chains j).Disjoint (chains i)) (w : Exit) :
    Agrees key (Function.update chains i []) (es ++ (chains i).map (.leave (key i) w)) := by
  intro c
  by_cases hc : c ∈ chains i
  · have hf := h.fate_mem hc
    refine ⟨.left (key i) w, ?_, fun k => ⟨(by rintro ⟨⟩), ?_⟩⟩
    · unfold Custody.fate at hf ⊢
      rw [Custody.run_append, hf, Option.bind_some, Custody.run_leaves_of_mem _ hd hc]
    · rintro ⟨j, hj, -⟩
      by_cases e : j = i
      · simp [e] at hj
      · rw [Function.update_of_ne e] at hj
        exact absurd hc (hu j e hj)
  · obtain ⟨f, hf, hk⟩ := h c
    refine ⟨f, ?_, fun k => (hk k).trans (exists_congr fun j => and_congr_left' ?_)⟩
    · unfold Custody.fate at hf ⊢
      rw [Custody.run_append, hf, Option.bind_some, Custody.run_leaves_of_notMem _ hc]
    · by_cases e : j = i
      · simp [e, hc]
      · simp [e]

/-- The chains of the slots `is` leave, one after the other. -/
theorem leaves (h : Agrees key chains es) {is : List Slot} (hn : is.Nodup)
    (hd : ∀ i, (chains i).Nodup) (hu : ∀ i j, i ≠ j → (chains i).Disjoint (chains j))
    (why : Reason) :
    Agrees key (fun i => if i ∈ is then [] else chains i)
      (es ++ freeing (is.map fun i => (why, key i, chains i))) := by
  induction is generalizing chains es with
  | nil => simpa [freeing] using h
  | cons i is ih =>
      obtain ⟨hi, hn⟩ := List.nodup_cons.mp hn
      have hc : ∀ j, j ≠ i → Function.update chains i [] j = chains j :=
        fun j e => Function.update_of_ne e _ _
      have hd' : ∀ j, (Function.update chains i [] j).Nodup := by
        intro j
        by_cases e : j = i
        · simp [e]
        · simpa [e] using hd j
      have hu' : ∀ j l, j ≠ l →
          (Function.update chains i [] j).Disjoint (Function.update chains i [] l) := by
        intro j l e
        by_cases ej : j = i
        · simp [ej]
        · by_cases el : l = i
          · simp [el]
          · simpa [ej, el] using hu j l e
      have hs := ih (h.leave (hd i) (fun j e => hu j i e) (.freed why)) hn hd' hu'
      have hm : (is.map fun j => (why, key j, Function.update chains i [] j)) =
          is.map fun j => (why, key j, chains j) :=
        List.map_congr_left fun j hj => by rw [hc j (ne_of_mem_of_not_mem hj hi)]
      rw [hm, List.append_assoc] at hs
      have hch : (fun j => if j ∈ i :: is then [] else chains j) =
          fun j => if j ∈ is then [] else Function.update chains i [] j := by
        funext j
        by_cases e : j = i
        · simp [e]
        · simp [e]
      rw [hch]
      exact hs

/-- **What `pend_enqueue` enters in the ledger.** -/
theorem enqueue {order order' : List Slot} {r : Enqueued} (h : Agrees key chains es)
    (hd : ∀ i, (chains i).Nodup) (hu : ∀ i j, i ≠ j → (chains i).Disjoint (chains j))
    (hi : ∀ i, i ∉ order → chains i = []) (hb : ∀ i, b ∉ chains i)
    (hs : EnqueueRep k b key order chains r key' order' chains') :
    Agrees key' chains' (es ++ .enter k b :: freeing (r.freed k b)) := by
  cases hs with
  | joined i _ hk => simpa [Enqueued.freed, freeing, hk] using h.enter hb i
  | full => exact h.bounce hb k (.freed .chainFull)
  | noSlot => exact h.bounce hb k (.freed .noSlot)
  | free i hio =>
      have h' := h.congr_key (K := Function.update key i k) fun j hj => by
        have e : j ≠ i := fun e => hj (e ▸ hi i hio)
        simp [e]
      simpa [Enqueued.freed, freeing, hi i hio] using h'.enter hb i
  | evict i _ =>
      -- the frame enters before the victim's frames leave; the order does not matter
      have hl := h.leave (hd i) (fun j e => hu j i e) (.freed .evicted)
      have hl' := hl.congr_key (K := Function.update key i k) fun j hj => by
        have e : j ≠ i := by
          rintro rfl
          simp at hj
        simp [e]
      have hb' : ∀ j, b ∉ Function.update chains i [] j := by
        intro j
        by_cases e : j = i
        · simp [e]
        · simpa [e] using hb j
      have he := hl'.enter hb' i
      simp only [Function.update_self, Function.update_idem] at he
      intro c
      obtain ⟨f, hf, hk⟩ := he c
      refine ⟨f, ?_, hk⟩
      rw [← hf]
      simp only [Enqueued.freed, freeing, List.flatMap_cons, List.flatMap_nil, List.append_nil,
        Custody.fate]
      rw [List.append_assoc, Custody.run_append, Custody.run_append]
      exact congrArg _ (funext fun g => Custody.run_enter_comm (hb i))

end Agrees

namespace Parking

variable {s s' : PendState} {order : List Slot} {chains : Slot → List Block} {k : Key} {b : Block}

theorem init (m : Mem) : Parking (.init m) [] fun _ => [] :=
  ⟨.init m, .init _, by simp [PendState.init]⟩

theorem parked_iff (h : Parking s order chains) :
    s.parked k b ↔ ∃ i, b ∈ chains i ∧ (s.table.node i).key = k :=
  h.rep.parked_iff

theorem parked_of_mem (h : Parking s order chains) {i : Slot} (hb : b ∈ chains i) :
    s.parked (s.table.node i).key b :=
  h.parked_iff.mpr ⟨i, hb, rfl⟩

theorem nodup (h : Parking s order chains) (i : Slot) : (chains i).Nodup := (h.rep.chain i).nodup

/-- Memory changes off the chains, and the held blocks keep a null `next`. -/
theorem remember (h : Parking s order chains) {m : Mem} (held : Set Block)
    (hm : ∀ i, ∀ b ∈ chains i, m.next b = s.mem.next b)
    (hh : ∀ b ∈ held, m.next b = none ∧ ∀ i, b ∉ chains i) :
    Parking { s with mem := m, held := held } order chains :=
  ⟨h.rep.congr_mem hm, h.agrees, hh⟩

theorem alloc (h : Parking s order chains) (hb : ∀ k, ¬ s.parked k b) :
    Parking (s.alloc b) order chains := by
  have hbc : ∀ i, b ∉ chains i := fun i hi => hb _ (h.parked_of_mem hi)
  refine h.remember _ (fun i c hc => ?_) fun c hc => ?_
  · have e : c ≠ b := fun e => hbc i (e ▸ hc)
    simp [Mem.next, e]
  · by_cases e : c = b
    · subst e
      exact ⟨by simp [Mem.next, FwdFrame.fresh], hbc⟩
    · have hc : c ∈ s.held := (Set.mem_insert_iff.mp hc).resolve_left e
      obtain ⟨hn, hcc⟩ := h.held c hc
      exact ⟨by simpa [Mem.next, e] using hn, hcc⟩

theorem enqueue (h : Parking s order chains) (now : ℕ) (k : Key) (hb : b ∈ s.held) :
    ∃ order' chains', Parking (s.enqueue now k b) order' chains' := by
  obtain ⟨hn, hbc⟩ := h.held b hb
  have hs := enqueue_step now k b s.mem s.table
  obtain ⟨order', chains', hr, he⟩ := enqueue_rep h.rep hbc hn hs
  refine ⟨order', chains', hr, h.agrees.enqueue h.nodup h.rep.disjoint h.rep.idle hbc he, ?_⟩
  rintro c ⟨hc, hcb⟩
  obtain ⟨hcn, hcc⟩ := h.held c hc
  exact ⟨(hs.next_ne hcb).trans hcn, he.notMem hcb hcc⟩

theorem flush (h : Parking s order chains) (k : Key) :
    ∃ order' chains', Parking (s.flush k) order' chains' := by
  cases hf : findPend s.table k with
  | none =>
      have e : s.flush k = s := by simp [PendState.flush, PendState.detached, pendDetach, hf]
      exact ⟨_, _, e ▸ h⟩
  | some i =>
      obtain ⟨hi, rfl⟩ := h.rep.findPend_eq_some.mp hf
      have hl := h.agrees.leave (h.nodup i) (fun j e => h.rep.disjoint j i e) .sent
      refine ⟨order.erase i, Function.update chains i [], ?_, ?_, fun c hc => ?_⟩
      · simpa [PendState.flush, pendDetach, hf] using h.rep.release_rep
      · have e : s.detached (s.table.node i).key = chains i := by
          simp only [PendState.detached, pendDetach, hf]
          exact h.rep.frames_eq i
        simpa [PendState.flush, pendDetach, hf, e] using hl
      · obtain ⟨hn, hcc⟩ := h.held c hc
        refine ⟨hn, fun j => ?_⟩
        by_cases e : j = i
        · simp [e]
        · simpa [e] using hcc j

theorem tick (h : Parking s order chains) (now : ℕ) :
    ∃ order' chains', Parking (s.tick now) order' chains' := by
  have hs := sweep_spec h.rep now
  refine ⟨_, _, hs.rep, ?_, fun c hc => ?_⟩
  · have hl := h.agrees.leaves (h.rep.list.nodup.filter s.table.expired) h.nodup h.rep.disjoint
      .retries
    have hk := hl.congr_key (K := fun i => ((pendSweep now s.mem s.table).table.node i).key)
      fun i _ => hs.key i
    simpa [PendState.tick, Sweep.freed, hs.dead, List.mem_filter, Function.comp_def] using hk
  · obtain ⟨hn, hcc⟩ := h.held c hc
    refine ⟨hn, fun i => ?_⟩
    split
    · simp
    · exact hcc i

/-- **One step keeps the invariant.** -/
theorem step (h : Parking s order chains) (hs : PendStep s s') :
    ∃ order' chains', Parking s' order' chains' := by
  cases hs with
  | alloc b hb => exact ⟨_, _, h.alloc hb⟩
  | write m hp hh =>
      refine ⟨_, _, h.remember s.held (fun i c hc => ?_) fun c hc => ?_⟩
      · rw [Mem.next, Mem.next, hp _ c (h.parked_of_mem hc)]
      · rw [hh c hc]
        exact h.held c hc
  | enqueue now k b hb => exact h.enqueue now k hb
  | flush k => exact h.flush k
  | flushMiss => exact ⟨_, _, h⟩
  | tick now => exact h.tick now

end Parking

/-- **Every run keeps the invariant.** -/
theorem PendRun.parking {m : Mem} {s : PendState} (h : PendRun m s) :
    ∃ order chains, Parking s order chains := by
  induction h with
  | init => exact ⟨_, _, .init m⟩
  | step _ hs ih =>
      obtain ⟨_, _, ih⟩ := ih
      exact ih.step hs

/-! ### What holds in every state -/

/-- The pending table is well formed. -/
structure PendState.WellFormed (s : PendState) : Prop where
  /-- the list from the head visits exactly the used slots, each once, and ends -/
  list : ∃ order, IsChain s.table.links.next s.table.head order ∧ order.Nodup ∧
    ∀ i, i ∈ order ↔ (s.table.node i).used = true
  /-- no two used slots have one key -/
  key : ∀ i j, (s.table.node i).used = true → (s.table.node j).used = true →
    (s.table.node i).key = (s.table.node j).key → i = j
  /-- a used slot has a chain of the length it records, from 1 to `PEND_CHAIN_MAX`, with no frame
  twice -/
  chain : ∀ i, (s.table.node i).used = true → ∃ bs, IsChain s.mem.next (s.table.node i).chain bs ∧
    bs.length = (s.table.node i).chainLen ∧ 1 ≤ bs.length ∧ bs.length ≤ pendChainMax ∧ bs.Nodup
  /-- no frame is in two chains -/
  disjoint : ∀ i j bs cs, i ≠ j → (s.table.node i).used = true → (s.table.node j).used = true →
    IsChain s.mem.next (s.table.node i).chain bs → IsChain s.mem.next (s.table.node j).chain cs →
    bs.Disjoint cs

/-- A frame has a history, and by it is parked exactly under the key whose chain it is in; every
time it was handed over it was sent once, or freed once for one reason, or is parked now. -/
def PendState.Accounted (s : PendState) (b : Block) : Prop :=
  ∃ f, Custody.fate b s.ledger = some f ∧ (∀ k, f = .held k ↔ s.parked k b) ∧
    Custody.entries b s.ledger =
      Custody.exits .sent b s.ledger + (∑ why, Custody.exits (.freed why) b s.ledger) + f.count

theorem Parking.wellFormed {s : PendState} {order : List Slot} {chains : Slot → List Block}
    (h : Parking s order chains) : s.WellFormed where
  list := ⟨order, h.rep.list, h.rep.list.nodup, fun i => (h.rep.used i).symm⟩
  key := fun i j hi hj => h.rep.key_inj i ((h.rep.used i).mp hi) j ((h.rep.used j).mp hj)
  chain := by
    intro i hi
    have hi := (h.rep.used i).mp hi
    exact ⟨chains i, h.rep.chain i, (h.rep.len i hi).symm,
      List.length_pos_iff.mpr (h.rep.ne_nil i hi), h.rep.le_max i, h.nodup i⟩
  disjoint := by
    intro i j bs cs e _ _ hb hc
    rw [hb.unique (h.rep.chain i), hc.unique (h.rep.chain j)]
    exact h.rep.disjoint i j e

theorem Parking.accounted {s : PendState} {order : List Slot} {chains : Slot → List Block}
    (h : Parking s order chains) (b : Block) : s.Accounted b := by
  obtain ⟨f, hf, hk⟩ := h.agrees b
  refine ⟨f, hf, fun k => (hk k).trans h.parked_iff.symm, ?_⟩
  have hb := Custody.balance hf
  rwa [Exit.sum_eq] at hb

/-- **Frames are conserved.**  In every state of every run the pending table is well formed, and every
frame is accounted for: every time that it was handed over it has been sent once, or freed once for the
reason that the ledger names, or is parked now, under the key whose chain it is in. -/
theorem pending_conserved {m : Mem} {s : PendState} (h : PendRun m s) :
    s.WellFormed ∧ ∀ b, s.Accounted b := by
  obtain ⟨_, _, hp⟩ := h.parking
  exact ⟨hp.wellFormed, hp.accounted⟩

/-- A run: a block is handed over, and flushed. -/
theorem pending_conserved_flush :
    let b := Block.heap 0
    let m : Mem := fun _ => { next := none, len := 0, outIfidx := 0, nexthop := 0, data := [] }
    let s := (((PendState.init m).alloc b).enqueue 5 (7, 1) b).flush (7, 1)
    s.WellFormed ∧ ∀ c, s.Accounted c := by
  intro b m s
  refine pending_conserved (m := m)
    (.step (.step (.step .init (.alloc b ?_)) (.enqueue 5 (7, 1) b (Set.mem_insert _ _))) (.flush _))
  rintro k ⟨i, hu, -⟩
  cases hu

end LinuxRouter
