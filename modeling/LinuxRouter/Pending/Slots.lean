import Mathlib.Tactic.Simps.Basic
import LinuxRouter.Model.Pending

/-!
# Pending — the shape of the table, and what each operation does to it

`PendRep t m order chains` says that the slot list of `t` is `order`, that it holds exactly the
used slots, that no two of them have one key, and that the chain of slot `i` in memory is
`chains i`: non-empty, at most `PEND_CHAIN_MAX` long, of the length the slot records, and disjoint
from every other.

Each operation keeps the shape, and says what becomes of `order` and `chains`:

* `findPend_eq_some`, `findPend_eq_none`: the lookup;
* `release_rep`: a slot given up, by a flush or an expiry;
* `join_rep`, `create_rep`: a frame pushed onto a chain, a slot filled;
* `enqueue_cases`: what `pend_enqueue` can do;
* `sweep_spec`: the walk of `pend_tick`, which unlinks slots of the list it follows.

Two linked structures share one array, so that a write to a slot may touch the list, the chain, or
both.  The lemmas on fields come first and say which; after them a proof never looks into a node
again.  The hard one is the walk of `pend_tick`, which gives up slots of the list it is following.
It reads a slot's `next` before it touches the slot, and unlinking a slot changes the `next` of the
slot before it only, so that the rest of the list is still there; the induction is on that rest,
with the slots already passed kept beside it.
-/

namespace LinuxRouter

open Linked (IsChain)

/-! ### The fields after an update -/

namespace PendTable

variable (t : PendTable) (i : Slot) (n : PendNode) (L : Linked.Links Slot)

@[simp] theorem head_setNode : (t.setNode i n).head = t.head := rfl

@[simp] theorem node_setNode : (t.setNode i n).node = Function.update t.node i n := rfl

@[simp] theorem head_setLinks : (t.setLinks L).head = L.head := rfl

@[simp] theorem links_setLinks : (t.setLinks L).links = L := rfl

@[simp] theorem links_head : t.links.head = t.head := rfl

theorem links_next (j : Slot) : t.links.next j = (t.node j).next := rfl

/-- Overwriting a slot without its `next` leaves the slot list. -/
@[simp] theorem links_setNode (h : n.next = (t.node i).next) : (t.setNode i n).links = t.links := by
  unfold links
  congr 1
  funext j
  by_cases e : j = i
  · subst e
    simp [h]
  · simp [e]

end PendTable

/-- `unlink_node_locked` writes only `next` fields. -/
theorem node_unlinkNode (t : PendTable) (i j : Slot) :
    (unlinkNode t i).node j =
      { t.node j with next := (t.links.unlink (· == i) pendMax).next j } := rfl

/-- What a slot given up leaves: only `next` fields change elsewhere. -/
theorem node_releaseNode (t : PendTable) (i j : Slot) :
    (releaseNode t i).node j =
      if j = i then
        { t.node i with
          chain := none, chainLen := 0, used := false
          next := (t.links.unlink (· == i) pendMax).next i }
      else { t.node j with next := (t.links.unlink (· == i) pendMax).next j } := by
  have hl : (t.setNode i { t.node i with chain := none, chainLen := 0 }).links = t.links :=
    t.links_setNode i _ rfl
  unfold releaseNode
  by_cases e : j = i
  · subst e
    simp [node_unlinkNode, hl]
  · simp [node_unlinkNode, hl, e]

@[simp] theorem key_releaseNode (t : PendTable) (i j : Slot) :
    ((releaseNode t i).node j).key = (t.node j).key := by
  rw [node_releaseNode]
  split
  · rename_i e
    rw [e]
    rfl
  · rfl

theorem links_releaseNode (t : PendTable) (i : Slot) :
    (releaseNode t i).links = t.links.unlink (· == i) pendMax := by
  unfold releaseNode
  simp only [PendTable.links_setNode, unlinkNode, PendTable.links_setLinks]

theorem head_releaseNode (t : PendTable) (i : Slot) :
    (releaseNode t i).head = (unlinkNode t i).head := by
  rw [← PendTable.links_head, links_releaseNode]
  rfl

/-! ### The slots `pend_enqueue` writes -/

/-- The slot `pend_enqueue` fills. -/
@[simps] def PendNode.filled (now : ℕ) (k : Key) (b : Block) (next : Option Slot) : PendNode where
  nexthop := k.1
  ifidx := k.2
  retries := 0
  lastSent := now
  chain := some b
  chainLen := 1
  next := next
  used := true

/-- The table with slot `i` filled and in front of the list. -/
def PendTable.fill (t : PendTable) (now : ℕ) (k : Key) (b : Block) (i : Slot) : PendTable :=
  { t.setNode i (.filled now k b t.head) with head := some i }

@[simp] theorem PendTable.node_fill (t : PendTable) (now : ℕ) (k : Key) (b : Block) (i : Slot) :
    (t.fill now k b i).node = Function.update t.node i (.filled now k b t.head) := rfl

@[simp] theorem PendNode.key_filled (now : ℕ) (k : Key) (b : Block) (next : Option Slot) :
    (PendNode.filled now k b next).key = k := rfl

/-- The slot a frame is pushed onto. -/
@[simps] def PendNode.pushed (n : PendNode) (now : ℕ) (b : Block) : PendNode :=
  { n with chain := some b, chainLen := n.chainLen + 1, lastSent := now }

@[simp] theorem PendNode.key_pushed (n : PendNode) (now : ℕ) (b : Block) :
    (n.pushed now b).key = n.key := rfl

/-! ### The shape -/

/-- The slot list of `t` is `order`, and the chain of slot `i` is `chains i`. -/
structure PendRep (t : PendTable) (m : Mem) (order : List Slot) (chains : Slot → List Block) :
    Prop where
  list : IsChain t.links.next t.head order
  used : ∀ i, (t.node i).used = true ↔ i ∈ order
  key_inj : ∀ i ∈ order, ∀ j ∈ order, (t.node i).key = (t.node j).key → i = j
  chain : ∀ i, IsChain m.next (t.node i).chain (chains i)
  len : ∀ i ∈ order, (t.node i).chainLen = (chains i).length
  ne_nil : ∀ i ∈ order, chains i ≠ []
  le_max : ∀ i, (chains i).length ≤ pendChainMax
  idle : ∀ i, i ∉ order → chains i = []
  disjoint : ∀ i j, i ≠ j → (chains i).Disjoint (chains j)

/-- The frame `b` is in the chain of a used slot with key `k`. -/
def PendTable.parked (t : PendTable) (m : Mem) (k : Key) (b : Block) : Prop :=
  ∃ i, (t.node i).used = true ∧ (t.node i).key = k ∧ b ∈ t.frames m i

theorem PendRep.init (m : Mem) : PendRep .init m [] fun _ => [] where
  list := .nil
  used := by simp [PendTable.init]
  key_inj := by simp
  chain := fun _ => .nil
  len := by simp
  ne_nil := by simp
  le_max := by simp
  idle := by simp
  disjoint := by simp

namespace PendRep

variable {t t' : PendTable} {m m' : Mem} {order : List Slot} {chains : Slot → List Block}
  {k : Key} {b : Block} {i j : Slot} {now : ℕ}

theorem length_le (h : PendRep t m order chains) : order.length ≤ pendMax := by
  simpa using h.list.nodup.length_le_card

/-- A slot on the list holds its own chain. -/
theorem frames_eq (h : PendRep t m order chains) (i : Slot) : t.frames m i = chains i :=
  Linked.toList_eq (h.chain i) (h.le_max i)

/-- The parked frames are those of the chains. -/
theorem parked_iff (h : PendRep t m order chains) :
    t.parked m k b ↔ ∃ i, b ∈ chains i ∧ (t.node i).key = k := by
  refine exists_congr fun i => ?_
  rw [h.frames_eq]
  constructor
  · exact fun ⟨_, hk, hb⟩ => ⟨hb, hk⟩
  · refine fun ⟨hb, hk⟩ => ⟨(h.used i).mpr ?_, hk, hb⟩
    by_contra e
    rw [h.idle i e] at hb
    cases hb

/-- A frame is in at most one chain. -/
theorem slot_unique (h : PendRep t m order chains) (hi : b ∈ chains i) (hj : b ∈ chains j) :
    i = j := by
  by_contra e
  exact h.disjoint i j e hi hj

theorem mem_order (h : PendRep t m order chains) (hi : b ∈ chains i) : i ∈ order := by
  by_contra e
  rw [h.idle i e] at hi
  cases hi

/-- The shape reads memory only at the frames of the chains. -/
theorem congr_mem (h : PendRep t m order chains)
    (hm : ∀ i, ∀ b ∈ chains i, m'.next b = m.next b) : PendRep t m' order chains :=
  { h with chain := fun i => (h.chain i).congr (hm i) }

/-! ### Lookup -/

theorem findPend_eq (h : PendRep t m order chains) (k : Key) :
    findPend t k = order.find? fun i => (t.node i).matches k :=
  Linked.find_eq h.list h.length_le

theorem matches_iff (h : PendRep t m order chains) (hi : i ∈ order) :
    (t.node i).matches k = true ↔ (t.node i).key = k := by
  have hu := (h.used i).mpr hi
  simp [PendNode.matches, PendNode.key, hu, Prod.ext_iff]

theorem findPend_eq_some (h : PendRep t m order chains) :
    findPend t k = some i ↔ i ∈ order ∧ (t.node i).key = k := by
  rw [h.findPend_eq]
  constructor
  · intro e
    have hi := List.mem_of_find?_eq_some e
    exact ⟨hi, (h.matches_iff hi).mp (List.find?_some (p := fun i => (t.node i).matches k) e)⟩
  · rintro ⟨hi, hk⟩
    cases e : order.find? fun i => (t.node i).matches k with
    | none =>
        have := List.find?_eq_none.mp e i hi
        exact absurd ((h.matches_iff hi).mpr hk) this
    | some j =>
        have hj := List.mem_of_find?_eq_some e
        have hjk := (h.matches_iff hj).mp (List.find?_some (p := fun i => (t.node i).matches k) e)
        rw [h.key_inj j hj i hi (hjk.trans hk.symm)]

theorem findPend_eq_none (h : PendRep t m order chains) :
    findPend t k = none ↔ ∀ i ∈ order, (t.node i).key ≠ k := by
  constructor
  · intro e i hi hk
    rw [h.findPend_eq_some.mpr ⟨hi, hk⟩] at e
    cases e
  · intro hn
    by_contra e
    obtain ⟨i, e⟩ := Option.ne_none_iff_exists'.mp e
    obtain ⟨hi, hk⟩ := h.findPend_eq_some.mp e
    exact hn i hi hk

/-! ### Giving a slot up -/

/-- A slot given up leaves the list, and its chain is no longer the table's. -/
theorem release_rep (h : PendRep t m order chains) :
    PendRep (releaseNode t i) m (order.erase i) (Function.update chains i []) := by
  have hnd := h.list.nodup
  have hmem : ∀ j, j ∈ order.erase i ↔ j ≠ i ∧ j ∈ order := fun j => hnd.mem_erase_iff
  -- the walk of `release_node` finds the slot it is called for
  have hlist := Linked.Links.unlink_chain (p := (· == i)) h.list h.length_le
  constructor
  case list =>
    rw [links_releaseNode, List.erase_eq_eraseP']
    rw [head_releaseNode]
    exact hlist
  case used =>
    intro j
    rw [hmem, node_releaseNode]
    by_cases e : j = i
    · simp [e]
    · simp [e, h.used j]
  case key_inj =>
    intro a ha c hc
    rw [key_releaseNode, key_releaseNode]
    exact h.key_inj a ((hmem a).mp ha).2 c ((hmem c).mp hc).2
  case chain =>
    intro j
    rw [node_releaseNode]
    by_cases e : j = i
    · subst e
      simp
    · simpa [e] using h.chain j
  case len =>
    intro j hj
    obtain ⟨e, hj⟩ := (hmem j).mp hj
    simpa [node_releaseNode, e] using h.len j hj
  case ne_nil =>
    intro j hj
    obtain ⟨e, hj⟩ := (hmem j).mp hj
    simpa [e] using h.ne_nil j hj
  case le_max =>
    intro j
    by_cases e : j = i
    · simp [e]
    · simpa [e] using h.le_max j
  case idle =>
    intro j hj
    by_cases e : j = i
    · simp [e]
    · simpa [e] using h.idle j fun hj' => hj ((hmem j).mpr ⟨e, hj'⟩)
  case disjoint =>
    intro a c e
    by_cases ea : a = i
    · simp [ea]
    · by_cases ec : c = i
      · simp [ec]
      · simpa [ea, ec] using h.disjoint a c e

/-! ### Taking a frame in -/

/-- A frame pushed onto the chain of slot `i`. -/
theorem join_rep (h : PendRep t m order chains) (hi : i ∈ order) (hb : ∀ j, b ∉ chains j)
    (hl : (chains i).length < pendChainMax) :
    PendRep
      (t.setNode i ((t.node i).pushed now b))
      (m.setNext b (t.node i).chain) order (Function.update chains i (b :: chains i)) := by
  have hk : ∀ j, ((t.setNode i ((t.node i).pushed now b)).node j).key = (t.node j).key := by
    intro j
    by_cases e : j = i
    · subst e
      simp
    · simp [e]
  constructor
  case list =>
    rw [PendTable.links_setNode _ _ _ (PendNode.pushed_next _ _ _)]
    exact h.list
  case used =>
    intro j
    by_cases e : j = i
    · subst e
      simpa using h.used j
    · simpa [e] using h.used j
  case key_inj =>
    intro a ha c hc
    rw [hk, hk]
    exact h.key_inj a ha c hc
  case chain =>
    intro j
    rw [Mem.next_setNext]
    by_cases e : j = i
    · subst e
      -- the frame is pushed on its own chain; no other chain goes through it
      simpa using (h.chain j).push (hb j)
    · simpa [e] using (h.chain j).update (hb j)
  case len =>
    intro j hj
    by_cases e : j = i
    · subst e
      simpa using h.len j hj
    · simpa [e] using h.len j hj
  case ne_nil =>
    intro j hj
    by_cases e : j = i
    · subst e
      simp
    · simpa [e] using h.ne_nil j hj
  case le_max =>
    intro j
    by_cases e : j = i
    · subst e
      simpa using Nat.succ_le_of_lt hl
    · simpa [e] using h.le_max j
  case idle =>
    intro j hj
    have e : j ≠ i := fun e => hj (e ▸ hi)
    simpa [e] using h.idle j hj
  case disjoint =>
    intro a c e
    by_cases ea : a = i
    · subst ea
      have ec : c ≠ a := Ne.symm e
      simp only [Function.update_self, Function.update_of_ne ec, List.disjoint_cons_left]
      exact ⟨hb c, h.disjoint a c e⟩
    · by_cases ec : c = i
      · subst ec
        simp only [Function.update_self, Function.update_of_ne ea, List.disjoint_cons_right]
        exact ⟨hb a, h.disjoint a c e⟩
      · simpa [ea, ec] using h.disjoint a c e

/-- A slot off the list, filled with one frame and pushed in front of the list.  The frame's own
`next` must be null: the source does not write it. -/
theorem create_rep (h : PendRep t m order chains) (hi : i ∉ order) (hb : ∀ j, b ∉ chains j)
    (hn : m.next b = none) (hk : ∀ j ∈ order, (t.node j).key ≠ k) :
    PendRep (t.fill now k b i) m (i :: order) (Function.update chains i [b]) := by
  constructor
  case list =>
    -- the new slot goes in front
    have e : (t.fill now k b i).links = ⟨some i, Function.update t.links.next i t.head⟩ := by
      unfold PendTable.links
      congr 1
      funext j
      by_cases e : j = i
      · subst e
        simp
      · simp [e]
    rw [e]
    exact h.list.push hi
  case used =>
    intro j
    by_cases e : j = i
    · subst e
      simp
    · simpa [e] using h.used j
  case key_inj =>
    intro a ha c hc
    -- no old slot has the new key
    by_cases ea : a = i <;> by_cases ec : c = i
    · exact fun _ => ea.trans ec.symm
    · replace hc : c ∈ order := (List.mem_cons.mp hc).resolve_left ec
      subst ea
      simp only [PendTable.node_fill, Function.update_self, Function.update_of_ne ec]
      exact fun e => absurd e.symm (hk c hc)
    · replace ha : a ∈ order := (List.mem_cons.mp ha).resolve_left ea
      subst ec
      simp only [PendTable.node_fill, Function.update_self, Function.update_of_ne ea]
      exact fun e => absurd e (hk a ha)
    · have ha : a ∈ order := (List.mem_cons.mp ha).resolve_left ea
      have hc : c ∈ order := (List.mem_cons.mp hc).resolve_left ec
      simp only [PendTable.node_fill, Function.update_of_ne ea, Function.update_of_ne ec]
      exact h.key_inj a ha c hc
  case chain =>
    intro j
    by_cases e : j = i
    · subst e
      simpa [IsChain.cons_iff, IsChain.nil_iff] using hn
    · simpa [e] using h.chain j
  case len =>
    intro j hj
    by_cases e : j = i
    · subst e
      simp
    · have hj : j ∈ order := (List.mem_cons.mp hj).resolve_left e
      simpa [e] using h.len j hj
  case ne_nil =>
    intro j hj
    by_cases e : j = i
    · subst e
      simp
    · have hj : j ∈ order := (List.mem_cons.mp hj).resolve_left e
      simpa [e] using h.ne_nil j hj
  case le_max =>
    intro j
    by_cases e : j = i
    · subst e
      simp [pendChainMax]
    · simpa [e] using h.le_max j
  case idle =>
    intro j hj
    simp only [List.mem_cons, not_or] at hj
    simpa [hj.1] using h.idle j hj.2
  case disjoint =>
    intro a c e
    by_cases ea : a = i
    · subst ea
      have ec : c ≠ a := Ne.symm e
      simpa [ec] using hb c
    · by_cases ec : c = i
      · subst ec
        simpa [ea] using hb a
      · simpa [ea, ec] using h.disjoint a c e

end PendRep

/-! ### What `pend_enqueue` can do -/

theorem scanPend_free {t : PendTable} {is : List Slot} {v : Option Slot} {o : ℕ} {i : Slot}
    (h : scanPend t is v o = .free i) : (t.node i).used = false := by
  induction is generalizing v o with
  | nil => cases v <;> cases h
  | cons j is ih =>
      rw [scanPend] at h
      split at h
      · rename_i hu
        cases h
        simpa using hu
      · split at h
        · exact ih h
        · exact ih h

theorem scanPend_victim {t : PendTable} {is : List Slot} {v : Option Slot} {o : ℕ} {i : Slot}
    (h : scanPend t is v o = .victim i) : v = some i ∨ (t.node i).used = true := by
  induction is generalizing v o with
  | nil =>
      cases v with
      | none => cases h
      | some j =>
          cases h
          exact .inl rfl
  | cons j is ih =>
      rw [scanPend] at h
      split at h
      · cases h
      · rename_i hu
        split at h
        · rcases ih h with e | e
          · cases e
            exact .inr (by simpa using hu)
          · exact .inr e
        · exact ih h

/-- The scan stops at a free slot, if there is one. -/
theorem scanPend_of_free {t : PendTable} {is : List Slot} {v : Option Slot} {o : ℕ} {i : Slot}
    (hi : i ∈ is) (hu : (t.node i).used = false) : ∃ j, scanPend t is v o = .free j := by
  induction is generalizing v o with
  | nil => cases hi
  | cons j is ih =>
      rw [scanPend]
      split
      · exact ⟨j, rfl⟩
      · rename_i hj
        have hi : i ∈ is := (List.mem_cons.mp hi).resolve_left fun e => hj (by simp [← e, hu])
        split
        · exact ih hi
        · exact ih hi

/-- The outcomes of `pend_enqueue`, with its guards. -/
inductive EnqueueStep (now : ℕ) (k : Key) (b : Block) (m : Mem) (t : PendTable) :
    Enqueued → Mem → PendTable → Prop where
  | joined (i : Slot) (hf : findPend t k = some i) (hl : (t.node i).chainLen < pendChainMax) :
      EnqueueStep now k b m t .joined (m.setNext b (t.node i).chain)
        (t.setNode i ((t.node i).pushed now b))
  | full (i : Slot) (hf : findPend t k = some i) (hl : pendChainMax ≤ (t.node i).chainLen) :
      EnqueueStep now k b m t .full m t
  | noSlot (hf : findPend t k = none) : EnqueueStep now k b m t .noSlot m t
  | free (i : Slot) (hf : findPend t k = none) (hu : (t.node i).used = false) :
      EnqueueStep now k b m t (.created none) m (t.fill now k b i)
  | evict (i : Slot) (hf : findPend t k = none) (hu : (t.node i).used = true) :
      EnqueueStep now k b m t
        (.created (some { key := (t.node i).key, frames := t.frames m i })) m
        ((releaseNode t i).fill now k b i)

/-- Only the frame handed over is written. -/
theorem EnqueueStep.mem_ne {now : ℕ} {k : Key} {b c : Block} {m m' : Mem} {t t' : PendTable}
    {r : Enqueued} (h : EnqueueStep now k b m t r m' t') (hc : c ≠ b) : m' c = m c := by
  cases h with
  | joined => exact Function.update_of_ne hc _ _
  | full => rfl
  | noSlot => rfl
  | free => rfl
  | evict => rfl

theorem EnqueueStep.next_ne {now : ℕ} {k : Key} {b c : Block} {m m' : Mem} {t t' : PendTable}
    {r : Enqueued} (h : EnqueueStep now k b m t r m' t') (hc : c ≠ b) : m'.next c = m.next c :=
  congrArg FwdFrame.next (h.mem_ne hc)

/-- Of the frame handed over, only `next` is written. -/
theorem EnqueueStep.mem_self {now : ℕ} {k : Key} {b : Block} {m m' : Mem} {t t' : PendTable}
    {r : Enqueued} (h : EnqueueStep now k b m t r m' t') : ∃ p, m' b = { m b with next := p } := by
  cases h with
  | joined i => exact ⟨(t.node i).chain, Function.update_self _ _ _⟩
  | full => exact ⟨_, rfl⟩
  | noSlot => exact ⟨_, rfl⟩
  | free => exact ⟨_, rfl⟩
  | evict => exact ⟨_, rfl⟩

/-- A frame that is refused is not written. -/
theorem EnqueueStep.mem_eq {now : ℕ} {k : Key} {b : Block} {m m' : Mem} {t t' : PendTable}
    {r : Enqueued} (h : EnqueueStep now k b m t r m' t') (hr : r = .full ∨ r = .noSlot) :
    m' = m := by
  cases h with
  | joined => simp at hr
  | full => rfl
  | noSlot => rfl
  | free => rfl
  | evict => rfl

/-- The victim of `alloc_pend_locked` is overwritten: what is left is the table without it. -/
theorem fill_victim (t : PendTable) (now : ℕ) (k : Key) (b : Block) (i : Slot) :
    ((unlinkNode t i).setNode i
        { (unlinkNode t i).node i with chain := none, chainLen := 0 }).fill now k b i =
      (releaseNode t i).fill now k b i := by
  unfold PendTable.fill
  simp only [head_releaseNode, PendTable.setNode, PendTable.mk.injEq, true_and]
  funext j
  by_cases e : j = i
  · subst e
    simp
  · simp [e, node_releaseNode, node_unlinkNode]

theorem enqueue_step (now : ℕ) (k : Key) (b : Block) (m : Mem) (t : PendTable) :
    EnqueueStep now k b m t (pendEnqueue now k b m t).1 (pendEnqueue now k b m t).2.1
      (pendEnqueue now k b m t).2.2 := by
  unfold pendEnqueue
  cases hf : findPend t k with
  | some i =>
      dsimp only
      split
      · exact .full i hf (by assumption)
      · exact .joined i hf (by omega)
  | none =>
      dsimp only
      cases hs : scanPend t (List.finRange pendMax) none (2 ^ 64 - 1) with
      | free i =>
          simp only [allocPend, hs]
          exact .free i hf (scanPend_free hs)
      | none =>
          simp only [allocPend, hs]
          exact .noSlot hf
      | victim i =>
          simp only [allocPend, hs]
          have hu := (scanPend_victim hs).resolve_left (by simp)
          have he : EnqueueStep now k b m t _ m _ := .evict i hf hu
          rw [← fill_victim] at he
          exact he

/-- A frame for a new key takes a free slot, if there is one. -/
theorem pendEnqueue_of_free {t : PendTable} {k : Key} (hf : findPend t k = none) {i : Slot}
    (hu : (t.node i).used = false) (now : ℕ) (b : Block) (m : Mem) :
    (pendEnqueue now k b m t).1 = .created none := by
  obtain ⟨j, hs⟩ := scanPend_of_free (v := none) (o := 2 ^ 64 - 1) (List.mem_finRange i) hu
  simp only [pendEnqueue, hf, allocPend, hs]

/-- How the keys, the slot list and the chains follow an outcome of `pend_enqueue`. -/
inductive EnqueueRep (k : Key) (b : Block) (key : Slot → Key) (order : List Slot)
    (chains : Slot → List Block) :
    Enqueued → (Slot → Key) → List Slot → (Slot → List Block) → Prop where
  | joined (i : Slot) (hi : i ∈ order) (hk : key i = k) :
      EnqueueRep k b key order chains .joined key order (Function.update chains i (b :: chains i))
  | full : EnqueueRep k b key order chains .full key order chains
  | noSlot : EnqueueRep k b key order chains .noSlot key order chains
  | free (i : Slot) (hi : i ∉ order) :
      EnqueueRep k b key order chains (.created none) (Function.update key i k) (i :: order)
        (Function.update chains i [b])
  | evict (i : Slot) (hi : i ∈ order) :
      EnqueueRep k b key order chains (.created (some { key := key i, frames := chains i }))
        (Function.update key i k) (i :: order.erase i) (Function.update chains i [b])

/-- Only the frame handed over is new in a chain. -/
theorem EnqueueRep.notMem {k : Key} {b c : Block} {key key' : Slot → Key} {order order' : List Slot}
    {chains chains' : Slot → List Block} {r : Enqueued}
    (h : EnqueueRep k b key order chains r key' order' chains') (hc : c ≠ b)
    (hcc : ∀ i, c ∉ chains i) : ∀ i, c ∉ chains' i := by
  intro j
  cases h with
  | joined i =>
      by_cases e : j = i
      · subst e
        simp [hc, hcc]
      · simpa [e] using hcc j
  | full => exact hcc j
  | noSlot => exact hcc j
  | free i =>
      by_cases e : j = i
      · simp [e, hc]
      · simpa [e] using hcc j
  | evict i =>
      by_cases e : j = i
      · simp [e, hc]
      · simpa [e] using hcc j

/-- A frame of a chain was in it before, under the same key, or is the one handed over. -/
theorem EnqueueRep.mem {k : Key} {b c : Block} {key key' : Slot → Key} {order order' : List Slot}
    {chains chains' : Slot → List Block} {r : Enqueued} {j : Slot}
    (h : EnqueueRep k b key order chains r key' order' chains') (hc : c ∈ chains' j) :
    c ∈ chains j ∧ key' j = key j ∨ c = b ∧ key' j = k := by
  cases h with
  | joined i _ hk =>
      by_cases e : j = i
      · subst e
        rw [Function.update_self, List.mem_cons] at hc
        exact hc.symm.imp (fun hc => ⟨hc, rfl⟩) fun hc => ⟨hc, hk⟩
      · rw [Function.update_of_ne e] at hc
        exact .inl ⟨hc, rfl⟩
  | full => exact .inl ⟨hc, rfl⟩
  | noSlot => exact .inl ⟨hc, rfl⟩
  | free i =>
      by_cases e : j = i
      · subst e
        rw [Function.update_self] at hc ⊢
        exact .inr ⟨List.mem_singleton.mp hc, rfl⟩
      · rw [Function.update_of_ne e] at hc ⊢
        exact .inl ⟨hc, rfl⟩
  | evict i =>
      by_cases e : j = i
      · subst e
        rw [Function.update_self] at hc ⊢
        exact .inr ⟨List.mem_singleton.mp hc, rfl⟩
      · rw [Function.update_of_ne e] at hc ⊢
        exact .inl ⟨hc, rfl⟩

theorem PendTable.key_fill (t : PendTable) (now : ℕ) (k : Key) (b : Block) (i : Slot) :
    (fun j => ((t.fill now k b i).node j).key) =
      Function.update (fun j => (t.node j).key) i k := by
  funext j
  by_cases e : j = i
  · subst e
    simp
  · simp [e]

/-- **`pend_enqueue` keeps the shape**, for a frame that is in no chain and whose `next` is null. -/
theorem enqueue_rep {t t' : PendTable} {m m' : Mem} {order : List Slot}
    {chains : Slot → List Block} {now : ℕ} {k : Key} {b : Block} {r : Enqueued}
    (h : PendRep t m order chains) (hb : ∀ j, b ∉ chains j) (hn : m.next b = none)
    (hs : EnqueueStep now k b m t r m' t') :
    ∃ order' chains', PendRep t' m' order' chains' ∧
      EnqueueRep k b (fun i => (t.node i).key) order chains r (fun i => (t'.node i).key)
        order' chains' := by
  cases hs with
  | joined i hf hl =>
      obtain ⟨hi, hk⟩ := h.findPend_eq_some.mp hf
      rw [h.len i hi] at hl
      have e : (fun j => ((t.setNode i ((t.node i).pushed now b)).node j).key) =
          fun j => (t.node j).key := by
        funext j
        by_cases e : j = i
        · subst e
          simp
        · simp [e]
      rw [e]
      exact ⟨_, _, h.join_rep hi hb hl, .joined i hi hk⟩
  | full => exact ⟨_, _, h, .full⟩
  | noSlot => exact ⟨_, _, h, .noSlot⟩
  | free i hf hu =>
      have hi : i ∉ order := fun hi => by simp [(h.used i).mpr hi] at hu
      rw [PendTable.key_fill]
      exact ⟨_, _, h.create_rep hi hb hn (h.findPend_eq_none.mp hf), .free i hi⟩
  | evict i hf hu =>
      have hi := (h.used i).mp hu
      have hne : ∀ j ∈ order.erase i, j ≠ i ∧ j ∈ order :=
        fun j hj => h.list.nodup.mem_erase_iff.mp hj
      have hk : ∀ j ∈ order.erase i, ((releaseNode t i).node j).key ≠ k := by
        intro j hj
        rw [key_releaseNode]
        exact h.findPend_eq_none.mp hf j (hne j hj).2
      have hb' : ∀ j, b ∉ Function.update chains i [] j := by
        intro j
        by_cases e : j = i
        · simp [e]
        · simpa [e] using hb j
      have hr : PendRep ((releaseNode t i).fill now k b i) m _ _ :=
        h.release_rep.create_rep (fun hi => (hne i hi).1 rfl) hb' hn hk
      rw [Function.update_idem] at hr
      rw [h.frames_eq, PendTable.key_fill]
      simp only [key_releaseNode]
      exact ⟨_, _, hr, .evict i hi⟩

/-! ### The walk of `pend_tick` -/

/-- The walk gives the slot up. -/
def PendTable.expired (t : PendTable) (i : Slot) : Bool := arpRetryMax ≤ (t.node i).retries

/-- The slot the walk keeps. -/
@[simps] def PendNode.retried (n : PendNode) (now : ℕ) : PendNode :=
  { n with retries := n.retries + 1, lastSent := now }

@[simp] theorem PendNode.key_retried (n : PendNode) (now : ℕ) : (n.retried now).key = n.key := rfl

theorem retry_rep {t : PendTable} {m : Mem} {order : List Slot} {chains : Slot → List Block}
    (h : PendRep t m order chains) (i : Slot) (now : ℕ) :
    PendRep (t.setNode i ((t.node i).retried now)) m order chains := by
  have hf : ∀ j, ∃ r l, (t.setNode i ((t.node i).retried now)).node j =
      { t.node j with retries := r, lastSent := l } := by
    intro j
    by_cases e : j = i
    · subst e
      exact ⟨(t.node j).retries + 1, now, by simp [PendNode.retried]⟩
    · exact ⟨(t.node j).retries, (t.node j).lastSent, by simp [e]⟩
  constructor
  case list =>
    rw [PendTable.links_setNode _ _ _ (PendNode.retried_next _ _)]
    exact h.list
  case used =>
    intro j
    obtain ⟨_, _, e⟩ := hf j
    rw [e]
    exact h.used j
  case key_inj =>
    intro a ha c hc
    obtain ⟨_, _, ea⟩ := hf a
    obtain ⟨_, _, ec⟩ := hf c
    rw [ea, ec]
    exact h.key_inj a ha c hc
  case chain =>
    intro j
    obtain ⟨_, _, e⟩ := hf j
    rw [e]
    exact h.chain j
  case len =>
    intro j hj
    obtain ⟨_, _, e⟩ := hf j
    rw [e]
    exact h.len j hj
  case ne_nil => exact h.ne_nil
  case le_max => exact h.le_max
  case idle => exact h.idle
  case disjoint => exact h.disjoint

/-- One round of the walk. -/
def Sweep.visit (w : Sweep) (now : ℕ) (m : Mem) (i : Slot) : Sweep :=
  if w.table.expired i then
    { w with
      table := releaseNode w.table i
      dead := w.dead ++ [{ key := (w.table.node i).key, frames := w.table.frames m i }] }
  else
    { w with
      table := w.table.setNode i ((w.table.node i).retried now)
      keys := if w.keys.length < pendMax then w.keys ++ [(w.table.node i).key] else w.keys }

theorem sweepFrom_some (now : ℕ) (m : Mem) (n : ℕ) (i : Slot) (w : Sweep) :
    sweepFrom now m (n + 1) (some i) w =
      sweepFrom now m n (w.table.node i).next (w.visit now m i) := by
  simp only [sweepFrom, Sweep.visit, PendTable.expired, decide_eq_true_eq]
  split <;> rfl

/-- What the walk over the slots `rest`, with `done` before them, makes of `w`. -/
structure SweepSpec (m : Mem) (done rest : List Slot) (chains : Slot → List Block)
    (w w' : Sweep) : Prop where
  rep : PendRep w'.table m (done ++ rest.filter fun i => !w.table.expired i)
    fun i => if i ∈ rest ∧ w.table.expired i then [] else chains i
  dead : w'.dead = w.dead ++ (rest.filter w.table.expired).map
    fun i => { key := (w.table.node i).key, frames := chains i }
  keys : w'.keys = w.keys ++ (rest.filter fun i => !w.table.expired i).map
    fun i => (w.table.node i).key
  key : ∀ i, (w'.table.node i).key = (w.table.node i).key
  retries : ∀ i, (w'.table.node i).retries =
    if i ∈ rest ∧ !w.table.expired i then (w.table.node i).retries + 1 else (w.table.node i).retries

theorem retries_releaseNode (t : PendTable) (i j : Slot) :
    ((releaseNode t i).node j).retries = (t.node j).retries := by
  rw [node_releaseNode]
  split
  · rename_i e
    rw [e]
  · rfl

theorem expired_releaseNode (t : PendTable) (i : Slot) : (releaseNode t i).expired = t.expired := by
  funext j
  simp only [PendTable.expired, retries_releaseNode]

theorem expired_retried (t : PendTable) (now : ℕ) {i j : Slot} (h : j ≠ i) :
    (t.setNode i ((t.node i).retried now)).expired j = t.expired j := by
  simp [PendTable.expired, h]

theorem key_retried (t : PendTable) (now : ℕ) (i j : Slot) :
    ((t.setNode i ((t.node i).retried now)).node j).key = (t.node j).key := by
  by_cases e : j = i
  · simp [e]
  · simp [e]

section Step

variable {now : ℕ} {m : Mem} {done rest : List Slot} {chains : Slot → List Block} {w w' : Sweep}
  {i : Slot}

/-- A slot that is given up leaves the list, and its frames are freed. -/
theorem SweepSpec.drop (hi : i ∉ rest) (hexp : w.table.expired i = true)
    (hs : SweepSpec m done rest (Function.update chains i [])
      { w with
        table := releaseNode w.table i
        dead := w.dead ++ [{ key := (w.table.node i).key, frames := chains i }] } w') :
    SweepSpec m done (i :: rest) chains w w' := by
  have hex := expired_releaseNode w.table i
  constructor
  case rep =>
    have hrep := hs.rep
    simp only [hex] at hrep
    simp only [List.filter_cons, hexp, Bool.not_true, Bool.false_eq_true, if_false]
    convert hrep using 1
    funext j
    by_cases e : j = i
    · simp [e, hexp]
    · simp [e]
  case dead =>
    -- the frames of the others are where they were
    have hm := List.map_congr_left (l := rest.filter w.table.expired)
      (f := fun j => Evicted.mk (w.table.node j).key (Function.update chains i [] j))
      (g := fun j => Evicted.mk (w.table.node j).key (chains j))
      fun j hj => by rw [Function.update_of_ne (ne_of_mem_of_not_mem (List.mem_of_mem_filter hj) hi)]
    rw [hs.dead]
    simp only [hex, key_releaseNode, List.filter_cons, hexp, if_true, List.map_cons, hm,
      List.append_assoc, List.singleton_append]
  case keys =>
    rw [hs.keys]
    simp [hex, hexp]
  case key => simpa using hs.key
  case retries =>
    intro j
    rw [hs.retries, hex, retries_releaseNode]
    by_cases e : j = i
    · simp [e, hexp]
    · simp [e]

/-- A slot that is kept is asked for again. -/
theorem SweepSpec.keep (hi : i ∉ rest) (hexp : w.table.expired i = false)
    (hs : SweepSpec m (done ++ [i]) rest chains
      { w with
        table := w.table.setNode i ((w.table.node i).retried now)
        keys := w.keys ++ [(w.table.node i).key] } w') :
    SweepSpec m done (i :: rest) chains w w' := by
  have hex : ∀ j ∈ rest, (w.table.setNode i ((w.table.node i).retried now)).expired j =
      w.table.expired j := fun j hj => expired_retried w.table now (ne_of_mem_of_not_mem hj hi)
  have hkey := key_retried w.table now i
  have hdead : rest.filter (w.table.setNode i ((w.table.node i).retried now)).expired =
      rest.filter w.table.expired := List.filter_congr fun j hj => hex j hj
  have hkept : (rest.filter fun j => !(w.table.setNode i ((w.table.node i).retried now)).expired j) =
      rest.filter fun j => !w.table.expired j := List.filter_congr fun j hj => by rw [hex j hj]
  constructor
  case rep =>
    have hrep := hs.rep
    simp only [hkept, List.append_assoc, List.singleton_append] at hrep
    simp only [List.filter_cons, hexp, Bool.not_false, if_true]
    convert hrep using 1
    funext j
    by_cases e : j = i
    · simp [e, hexp, hi]
    · by_cases hj : j ∈ rest
      · simp [e, hj, hex j hj]
      · simp [e, hj]
  case dead =>
    rw [hs.dead]
    simp only [hdead, hkey, List.filter_cons, hexp, Bool.false_eq_true, if_false]
  case keys =>
    rw [hs.keys]
    simp only [hkept, hkey, List.filter_cons, hexp, Bool.not_false, if_true, List.map_cons,
      List.append_assoc, List.singleton_append]
  case key =>
    intro j
    rw [hs.key, hkey]
  case retries =>
    intro j
    rw [hs.retries]
    by_cases e : j = i
    · simp [e, hexp, hi]
    · by_cases hj : j ∈ rest
      · simp [e, hj, hex j hj]
      · simp [e, hj]

end Step

theorem sweepFrom_spec {now n : ℕ} {m : Mem} {done rest : List Slot} {chains : Slot → List Block}
    {w : Sweep} (h : PendRep w.table m (done ++ rest) chains) (hn : rest.length ≤ n)
    (hk : w.keys.length + rest.length ≤ pendMax) :
    SweepSpec m done rest chains w (sweepFrom now m n rest.head? w) := by
  induction rest generalizing n done chains w with
  | nil =>
      have e : sweepFrom now m n ([] : List Slot).head? w = w := by cases n <;> rfl
      rw [e]
      exact ⟨by simpa using h, by simp, by simp, fun _ => rfl, by simp⟩
  | cons i rest ih =>
      obtain ⟨n, rfl⟩ : ∃ n', n = n' + 1 := ⟨n - 1, by simp at hn; omega⟩
      simp only [List.length_cons] at hn hk
      have hnd := h.list.nodup
      have hi : i ∉ done ∧ i ∉ rest := by
        rw [List.nodup_append] at hnd
        exact ⟨fun hd => hnd.2.2 i hd i (by simp) rfl, (List.nodup_cons.mp hnd.2.1).1⟩
      have hnext : (w.table.node i).next = rest.head? :=
        (Linked.IsChain.cons_iff.mp h.list.append_right).2.head?_eq
      rw [List.head?_cons, sweepFrom_some, hnext]
      cases hexp : w.table.expired i with
      | true =>
          have hv : w.visit now m i = { w with
              table := releaseNode w.table i
              dead := w.dead ++ [{ key := (w.table.node i).key, frames := chains i }] } := by
            simp [Sweep.visit, hexp, h.frames_eq]
          have hr : PendRep (releaseNode w.table i) m (done ++ rest)
              (Function.update chains i []) := by
            have hrel := h.release_rep (i := i)
            rwa [List.erase_append_right _ hi.1, List.erase_cons_head] at hrel
          rw [hv]
          exact .drop hi.2 hexp (ih hr (by omega) (by simp; omega))
      | false =>
          have hlen : w.keys.length < pendMax := by omega
          have hv : w.visit now m i = { w with
              table := w.table.setNode i ((w.table.node i).retried now)
              keys := w.keys ++ [(w.table.node i).key] } := by
            simp [Sweep.visit, hexp, hlen]
          have hr : PendRep (w.table.setNode i ((w.table.node i).retried now)) m
              ((done ++ [i]) ++ rest) chains := by
            simpa using retry_rep h i now
          rw [hv]
          exact .keep hi.2 hexp (ih hr (by omega) (by simp; omega))

/-- **The walk of `pend_tick`.**  The slots out of retries are given up, with their frames; every
other slot is kept, asked for, and has one retry more. -/
theorem sweep_spec {t : PendTable} {m : Mem} {order : List Slot} {chains : Slot → List Block}
    (h : PendRep t m order chains) (now : ℕ) :
    SweepSpec m [] order chains { table := t, dead := [], keys := [] } (pendSweep now m t) := by
  have e : t.head = order.head? := h.list.head?_eq
  unfold pendSweep
  rw [e]
  have h' : PendRep t m ([] ++ order) chains := h
  exact sweepFrom_spec h' h.length_le (by simpa using h.length_le)

end LinuxRouter
