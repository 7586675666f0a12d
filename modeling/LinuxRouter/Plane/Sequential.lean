import LinuxRouter.Plane.Ownership

/-!
# Plane — the functions one at a time

What a function of the data plane does when no other thread runs in between, as `Program.wp` facts.

`Leaves B es s s'`: from `s` to `s'` the events `es` were recorded, newest first, and neither a table
nor the `next` field of a block of `B` was touched; nor has the allocator a block of `B` to give.
`B` stands for the frames that are parked: a function that allocates must not be given one of them.

* `forwardSend_leaves`, `sendChain_leaves`, `arpRequest_leaves`, `drop_leaves`: each records what it
  says, and leaves the tables;
* `forwardFlushPending_spec`: nothing happens, or a slot is given up and its frames are sent;
* `retryKeys_induct`: the loop of `pend_tick`, by an invariant of the keys still to do.

Proofs about one call would have to carry the whole state through every command of it.  Most
commands of a function have no part in what the function is for: they read, count, take a block and
give it back.  `Leaves` is what they all have in common, and composes; a function's own lemma then
says only which events it adds and which table it changes.
-/

namespace LinuxRouter

open Linked (IsChain)
open Program (Prog wp wp_ret wp_cmd wp_bind wp_mono)

/-! ### What the allocator has -/

/-- The allocator has the block to give. -/
def Pool.has (p : Pool) : Block → Prop
  | .pool i => i ∈ p.freeStack
  | .heap a => a ∉ p.live

/-- It has no block of `B`. -/
def Pool.Spares (p : Pool) (B : Set Block) : Prop := ∀ b ∈ B, ¬ p.has b

/-- What the allocator has, by the owners. -/
theorem PoolOwns.has_iff {p : Pool} {owner : Block → Place} {b : Block} (h : PoolOwns p owner) :
    p.has b ↔ owner b = .free := by
  cases b with
  | pool i => exact h.free i
  | heap a => exact (not_congr (h.live a)).trans not_not

/-- `mp_alloc` gives a block that the allocator has, with a null `next`, and takes none in. -/
theorem mpAlloc_spec (heap : Option ℕ) (p : Pool) (m : Mem) :
    (∀ c, (mpAlloc heap p m).2.1.has c → p.has c) ∧
      ∀ c, (mpAlloc heap p m).1 ≠ some c → (mpAlloc heap p m).2.2 c = m c := by
  unfold mpAlloc
  cases hs : p.freeStack with
  | cons i st =>
      refine ⟨fun c hc => ?_, fun c hc => ?_⟩
      · cases c with
        | pool j => simp [Pool.has, hs, show j ∈ st from hc]
        | heap a => exact hc
      · have e : c ≠ .pool i := fun e => hc (congrArg some e.symm)
        exact Function.update_of_ne e _ _
  | nil =>
      cases heap with
      | none =>
          refine ⟨fun c hc => ?_, fun _ _ => rfl⟩
          cases c with
          | pool j => exact absurd hc (by simp [Pool.has])
          | heap a => exact hc
      | some a =>
          dsimp only
          split
          · refine ⟨fun c hc => ?_, fun _ _ => rfl⟩
            cases c with
            | pool j => exact absurd hc (by simp [Pool.has])
            | heap a => exact hc
          · refine ⟨fun c hc => ?_, fun c hc => ?_⟩
            · cases c with
              | pool j => exact absurd hc (by simp [Pool.has])
              | heap a' => exact fun h => hc (List.mem_cons_of_mem _ h)
            · have e : c ≠ .heap a := fun e => hc (congrArg some e.symm)
              exact Function.update_of_ne e _ _

theorem mpAlloc_has {heap : Option ℕ} {p : Pool} {m : Mem} {b : Block}
    (h : (mpAlloc heap p m).1 = some b) : p.has b := by
  unfold mpAlloc at h
  split at h
  · rename_i i st hs
    cases h
    simp [Pool.has, hs]
  · dsimp only at h
    split at h
    · cases h
    · split at h
      · cases h
      · cases h
        assumption

/-- `mp_free` takes in no other block. -/
theorem mpFree_has {p : Pool} {b c : Block} (h : (mpFree b p).has c) : c = b ∨ p.has c := by
  cases b with
  | pool i =>
      cases c with
      | pool j =>
          simp only [mpFree, Pool.has] at h
          split at h
          · rcases List.mem_cons.mp h with e | h
            · exact .inl (congrArg Block.pool e)
            · exact .inr h
          · exact .inr h
      | heap a => exact .inr h
  | heap a =>
      cases c with
      | pool j => exact .inr h
      | heap a' =>
          by_cases e : a' = a
          · exact .inl (congrArg Block.heap e)
          · exact .inr fun hl => h ((List.mem_erase_of_ne e).mpr hl)

theorem Pool.Spares.alloc {p : Pool} {B : Set Block} (h : p.Spares B) (heap : Option ℕ) (m : Mem) :
    (mpAlloc heap p m).2.1.Spares B :=
  fun b hb hc => h b hb ((mpAlloc_spec heap p m).1 b hc)

theorem Pool.Spares.free {p : Pool} {B : Set Block} (h : p.Spares B) {b : Block} (hb : b ∉ B) :
    (mpFree b p).Spares B := by
  intro c hc hf
  rcases mpFree_has hf with rfl | hf
  · exact hb hc
  · exact h c hc hf

theorem Pool.Spares.freeAll {p : Pool} {B : Set Block} {bs : List Block} (h : p.Spares B)
    (hb : ∀ b ∈ bs, b ∉ B) : (mpFreeAll bs p).Spares B := by
  induction bs generalizing p with
  | nil => exact h
  | cons b bs ih => exact ih (h.free (hb b (by simp))) fun c hc => hb c (by simp [hc])

/-! ### The frame -/

/-- From `s` to `s'` the events `es` were recorded; the tables and the blocks of `B` were left. -/
structure Leaves (B : Set Block) (es : List Event) (s s' : Plane) : Prop where
  trace : s'.trace = es ++ s.trace
  pend : s'.pend = s.pend
  arp : s'.arp = s.arp
  next : ∀ b ∈ B, s'.mem.next b = s.mem.next b
  spares : s'.pool.Spares B

namespace Leaves

variable {B B' : Set Block} {es es' : List Event} {s s' s'' : Plane}

theorem refl (h : s.pool.Spares B) : Leaves B [] s s := ⟨rfl, rfl, rfl, fun _ _ => rfl, h⟩

theorem trans (h : Leaves B es s s') (h' : Leaves B es' s' s'') : Leaves B (es' ++ es) s s'' where
  trace := by rw [h'.trace, h.trace, List.append_assoc]
  pend := h'.pend.trans h.pend
  arp := h'.arp.trans h.arp
  next := fun b hb => (h'.next b hb).trans (h.next b hb)
  spares := h'.spares

theorem mono (h : Leaves B es s s') (hB : B' ⊆ B) : Leaves B' es s s' :=
  ⟨h.trace, h.pend, h.arp, fun b hb => h.next b (hB hb), fun b hb => h.spares b (hB hb)⟩

/-- The pending table keeps its shape. -/
theorem rep {order : List Slot} {chains : Slot → List Block} (h : Leaves B es s s')
    (hr : PendRep s.pend s.mem order chains) (hB : ∀ i, ∀ b ∈ chains i, b ∈ B) :
    PendRep s'.pend s'.mem order chains := by
  rw [h.pend]
  exact hr.congr_mem fun i b hb => h.next b (hB i b hb)

end Leaves

/-- Commands that touch neither a table, a `next` field, the allocator nor the trace. -/
def Cmd.plain {β : Type} : Cmd β → Bool
  | .load _ => true
  | .write _ _ => true
  | .stop => true
  | .count _ => true
  | .ifaces => true
  | .arpProxy => true
  | .fwCheck _ _ => true
  | .routeLookup _ => true
  | .pktSend _ _ => true
  | _ => false

section Rules

variable {B : Set Block} {es : List Event} {s s₀ : Plane} {α β : Type} {Q : α → Plane → Prop}
  {b : Block}

/-- A command with no part in it. -/
theorem Leaves.plain {c : Cmd β} (hc : c.plain = true) (h : s.pool.Spares B) (e : Env) :
    Leaves B [] s (exec c e s).2 := by
  cases c with
  | write b w => exact ⟨rfl, rfl, rfl, fun c _ => congrFun (next_write s.mem b w) c, h⟩
  | _ => first | exact ⟨rfl, rfl, rfl, fun _ _ => rfl, h⟩ | cases hc

/-- A command that only reads. -/
theorem wp_read {c : Cmd β} {k : β → Act α} {v : β} (h : ∀ e, exec c e s = (v, s))
    (hk : wp exec Q (k v) s) : wp exec Q (.cmd c k) s := by
  intro e
  rw [h e]
  exact hk

/-- Such a command at the front of a program. -/
theorem wp_plain {c : Cmd β} {k : β → Act α} (hc : c.plain = true) (h : Leaves B es s₀ s)
    (hk : ∀ a s', Leaves B es s₀ s' → wp exec Q (k a) s') : wp exec Q (.cmd c k) s :=
  fun e => hk _ _ (h.trans (.plain hc h.spares e))

theorem wp_mark {ev : Event} {k : Unit → Act α} (h : Leaves B es s₀ s)
    (hk : ∀ s', Leaves B (ev :: es) s₀ s' → wp exec Q (k ()) s') :
    wp exec Q (.cmd (.mark ev) k) s := by
  intro e
  have hm : Leaves B [ev] s (exec (.mark ev) e s).2 := ⟨rfl, rfl, rfl, fun _ _ => rfl, h.spares⟩
  exact hk _ (h.trans hm)

theorem wp_free {k : Unit → Act α} (hb : b ∉ B) (h : Leaves B es s₀ s)
    (hk : ∀ s', Leaves B es s₀ s' → wp exec Q (k ()) s') :
    wp exec Q (.cmd (.mpFree b) k) s := by
  intro e
  have hf : Leaves B [] s (exec (.mpFree b) e s).2 :=
    ⟨rfl, rfl, rfl, fun _ _ => rfl, h.spares.free hb⟩
  exact hk _ (h.trans hf)

theorem wp_alloc {k : Option Block → Act α} (h : Leaves B es s₀ s)
    (hn : ∀ s', Leaves B es s₀ s' → wp exec Q (k none) s')
    (hk : ∀ b s', b ∉ B → Leaves B es s₀ s' → wp exec Q (k (some b)) s') :
    wp exec Q (.cmd .mpAlloc k) s := by
  intro e
  have hm := (mpAlloc_spec e.heap s.pool s.mem).2
  have hsp : ∀ b, (mpAlloc e.heap s.pool s.mem).1 = some b → b ∉ B :=
    fun b hb hB => h.spares b hB (mpAlloc_has hb)
  have ha : Leaves B [] s (exec .mpAlloc e s).2 := by
    refine ⟨rfl, rfl, rfl, fun c hc => ?_, h.spares.alloc e.heap s.mem⟩
    exact congrArg FwdFrame.next (hm c fun e => hsp c e hc)
  change wp exec Q (k (mpAlloc e.heap s.pool s.mem).1) _
  cases hb : (mpAlloc e.heap s.pool s.mem).1 with
  | none => exact hn _ (h.trans ha)
  | some b => exact hk b _ (hsp b hb) (h.trans ha)

end Rules

/-- A run of an action, with the outside world always the same. -/
theorem replay_act (e : Env) (p : Act Unit) (s : Plane) :
    Program.Runs exec p s () (Program.replay exec e p s).2 :=
  Program.replay_runs e p s

/-! ### The functions that leave the tables -/

section Functions

variable {B : Set Block} {s : Plane} {b : Block} {mac : Mac} {k : Key}

/-- `g_x++; g_drop++; mp_free(b)`. -/
theorem drop_leaves (c : Counter) (h : s.pool.Spares B) (hb : b ∉ B) :
    wp exec (fun _ s' => Leaves B [] s s') (drop c b) s := by
  refine wp_plain rfl (.refl h) fun _ _ h => wp_plain rfl h fun _ _ h => ?_
  exact wp_free hb h fun _ h => h

/-- `forward_send` records that it was called, and frees the frame. -/
theorem forwardSend_leaves (h : s.pool.Spares B) (hb : b ∉ B) :
    wp exec (fun _ s' => Leaves B [.send b mac] s s') (forwardSend b mac) s := by
  simp only [forwardSend, Prog.perform, Prog.cmd_bind, Prog.ret_bind]
  refine wp_mark (.refl h) fun _ h => wp_plain rfl h fun f _ h => wp_plain rfl h fun ifs _ h => ?_
  cases ifaceByIndex ifs (Int32.ofNat f.outIfidx.toNat) with
  | none => exact wp_free hb h fun _ h => h
  | some out =>
      refine wp_plain rfl h fun _ _ h => wp_plain rfl h fun _ _ h => wp_plain rfl h fun _ _ h => ?_
      exact wp_free hb h fun _ h => h

/-- `arp_request` sends one request or none. -/
theorem arpRequest_leaves (h : s.pool.Spares B) :
    wp exec (fun _ s' => Leaves B [] s s' ∨ Leaves B [.request k] s s') (arpRequest k) s := by
  simp only [arpRequest, Prog.perform, Prog.cmd_bind, Prog.ret_bind, Prog.pure_eq]
  refine wp_plain rfl (.refl h) fun ifs _ h => ?_
  cases ifaceByIndex ifs k.2 with
  | none => exact .inl h
  | some it =>
      refine wp_alloc h (fun _ h => .inl h) fun b _ hb h => ?_
      refine wp_plain rfl h fun f _ h => wp_plain rfl h fun _ _ h => wp_plain rfl h fun _ _ h => ?_
      refine wp_mark h fun _ h => wp_plain rfl h fun ok _ h => wp_plain rfl h fun _ _ h => ?_
      exact wp_free hb h fun _ h => .inr h

/-- The rewrite of a request leaves the tables. -/
theorem arpRespond_leaves {i : CInt} {it : Iface} (h : s.pool.Spares B) :
    wp exec (fun _ s' => Leaves B [] s s') (arpRespond b i it) s := by
  simp only [arpRespond, Prog.perform, Prog.cmd_bind, Prog.ret_bind]
  refine wp_plain rfl (.refl h) fun f _ h => wp_plain rfl h fun _ _ h => ?_
  exact wp_plain rfl h fun ok _ h => wp_plain rfl h fun _ _ h => h

theorem countExpired_leaves (evs : List Evicted) (h : s.pool.Spares B) :
    wp exec (fun _ s' => Leaves B [] s s') (countExpired evs) s := by
  have hgo : ∀ s', Leaves B [] s s' → wp exec (fun _ s' => Leaves B [] s s') (countExpired evs) s' := by
    induction evs with
    | nil => exact fun _ h => h
    | cons ev evs ih =>
        intro s' h
        exact wp_plain rfl h fun _ _ h => wp_plain rfl h fun _ _ h => ih _ h
  exact hgo s (.refl h)

/-- The loop of `forward_flush_pending` sends the chain, in order. -/
theorem sendChain_leaves {n : ℕ} {h : Option Block} {cs : List Block}
    (hc : IsChain s.mem.next h cs) (hn : cs.length ≤ n) (hs : s.pool.Spares (B ∪ {b | b ∈ cs}))
    (hB : ∀ b ∈ cs, b ∉ B) :
    wp exec (fun _ s' => Leaves B (cs.map (Event.send · mac)).reverse s s') (sendChain mac n h) s := by
  induction cs generalizing n h s with
  | nil =>
      obtain rfl := IsChain.nil_iff.mp hc
      cases n <;> exact .refl fun b hb => hs b (.inl hb)
  | cons b cs ih =>
      obtain ⟨rfl, ht⟩ := IsChain.cons_iff.mp hc
      have hd := (List.nodup_cons.mp hc.nodup).1
      cases n with
      | zero => simp at hn
      | succ n =>
          -- what comes after `b` in the chain is left by its `forward_send`
          have hs' : s.pool.Spares (B ∪ {c | c ∈ cs}) := by
            rintro c (hc | hc)
            · exact hs c (.inl hc)
            · exact hs c (.inr (List.mem_cons_of_mem _ hc))
          have hb : b ∉ B ∪ {c | c ∈ cs} := by
            rintro (hc | hc)
            · exact hB b (by simp) hc
            · exact hd hc
          simp only [sendChain, Prog.perform_bind]
          intro e
          change wp exec _ (forwardSend b mac >>= fun _ => sendChain mac n (s.mem b).next) s
          refine wp_bind.mpr (wp_mono (forwardSend_leaves hs' hb) fun _ s' h => ?_)
          have hcs : IsChain s'.mem.next (s.mem.next b) cs :=
            ht.congr fun c hc => h.next c (.inr hc)
          refine wp_mono (ih hcs (by simpa using hn) h.spares fun c hc => hB c (by simp [hc]))
            fun _ s'' h' => ?_
          simpa using (h.mono Set.subset_union_left).trans h'

end Functions

/-! ### The functions that change the pending table -/

/-- The frames that are parked. -/
def parked (chains : Slot → List Block) : Set Block := {b | ∃ i, b ∈ chains i}

/-- The pending table has its shape, and the allocator has no frame of it. -/
structure Parked (s : Plane) (order : List Slot) (chains : Slot → List Block) : Prop where
  rep : PendRep s.pend s.mem order chains
  spares : s.pool.Spares (parked chains)

/-- A state of a run has its tables in order. -/
theorem PlaneInv.parked {s : Plane} {g : Tid → List Block} (h : PlaneInv s g) :
    ∃ order chains, Parked s order chains ∧ ArpSane s.arp := by
  obtain ⟨owner, order, chains, tasks, h⟩ := h
  refine ⟨order, chains, ⟨h.rep, ?_⟩, h.arp⟩
  rintro b ⟨i, hb⟩ hf
  rw [h.pool.has_iff, h.mem_chain.mp hb] at hf
  cases hf

/-- And so has what a function leaves of it. -/
theorem Leaves.parked {s s' : Plane} {es : List Event} {order : List Slot}
    {chains : Slot → List Block} (hl : Leaves (parked chains) es s s')
    (h : Parked s order chains) : Parked s' order chains :=
  ⟨hl.rep h.rep fun i _ hb => ⟨i, hb⟩, hl.spares⟩

/-- How `forward_flush_pending` ends: the events it records, and what becomes of the slots. -/
inductive Flushed (k : Key) (s s' : Plane) (order : List Slot) (chains : Slot → List Block) :
    List Event → List Slot → (Slot → List Block) → Prop where
  | miss (h : s.arp.resolve k = none ∨ findPend s.pend k = none) (hp : s'.pend = s.pend) :
      Flushed k s s' order chains [] order chains
  | hit (i : Slot) (mac : Mac) (hm : s.arp.resolve k = some mac) (hi : i ∈ order)
      (hk : (s.pend.node i).key = k) (hp : s'.pend = releaseNode s.pend i) :
      Flushed k s s' order chains
        (((chains i).map (Event.send · mac)).reverse ++ [.removed k])
        (order.erase i) (Function.update chains i [])

/-- A slot given up parks nothing. -/
theorem parked_update (chains : Slot → List Block) (i : Slot) :
    parked (Function.update chains i []) ⊆ parked chains := by
  rintro b ⟨j, hb⟩
  by_cases e : j = i
  · simp [e] at hb
  · exact ⟨j, by simpa [e] using hb⟩

/-- **`forward_flush_pending`.**  If the key resolves, its slot is given up and its frames are sent,
in the order of the chain. -/
theorem forwardFlushPending_spec {k : Key} {s : Plane} {order : List Slot}
    {chains : Slot → List Block} (h : Parked s order chains) :
    wp exec (fun _ s' => ∃ es order' chains', Flushed k s s' order chains es order' chains' ∧
        Parked s' order' chains' ∧ s'.trace = es ++ s.trace ∧
        ∃ now : Fin (2 ^ 63), s'.arp = (arpLookup now k s.arp).2)
      (forwardFlushPending k) s := by
  simp only [forwardFlushPending, Prog.perform, Prog.cmd_bind, Prog.ret_bind, Prog.pure_eq]
  intro e
  have ha : (exec (.arpLookup k) e s).1 = s.arp.resolve k := s.arp.arpLookup_fst e.clock k
  rw [ha]
  have hl : Parked { s with arp := (arpLookup e.clock k s.arp).2 } order chains :=
    ⟨h.rep, h.spares⟩
  cases hm : s.arp.resolve k with
  | none => exact ⟨[], _, _, .miss (.inl hm) rfl, hl, rfl, e.clock, rfl⟩
  | some mac =>
      dsimp only
      intro e'
      simp only [exec]
      cases hf : findPend s.pend k with
      | none =>
          simp only [pendDetach, hf]
          exact ⟨[], _, _, .miss (.inr hf) rfl, hl, rfl, e.clock, rfl⟩
      | some i =>
          simp only [pendDetach, hf]
          obtain ⟨hi, hk⟩ := h.rep.findPend_eq_some.mp hf
          have hB : ∀ b ∈ chains i, b ∉ LinuxRouter.parked (Function.update chains i []) := by
            rintro b hb ⟨j, hj⟩
            by_cases e : j = i
            · simp [e] at hj
            · exact e (h.rep.slot_unique (by simpa [e] using hj) hb)
          have hs : s.pool.Spares
              (LinuxRouter.parked (Function.update chains i []) ∪ {b | b ∈ chains i}) := by
            rintro b (hb | hb)
            · exact h.spares b (parked_update chains i hb)
            · exact h.spares b ⟨i, hb⟩
          refine wp_mono (sendChain_leaves (B := LinuxRouter.parked (Function.update chains i []))
            (h.rep.chain i) (h.rep.le_max i) hs hB) fun _ s' hl => ?_
          refine ⟨_, _, _, .hit i mac hm hi hk hl.pend, hl.parked ⟨h.rep.release_rep, ?_⟩, ?_, ?_⟩
          · exact fun b hb => hs b (.inl hb)
          · rw [hl.trace]
            simp
          · exact ⟨e.clock, hl.arp⟩

/-- The walk of `pend_tick`: the slots out of retries are given up, their frames go to the
allocator, and every other slot has one retry more. -/
theorem pendSweep_parked {s : Plane} {order : List Slot} {chains : Slot → List Block}
    (h : Parked s order chains) (e : Env) :
    Parked (exec .pendSweep e s).2 (order.filter fun i => !s.pend.expired i)
      fun i => if i ∈ order ∧ s.pend.expired i then [] else chains i := by
  have hs := sweep_spec h.rep e.clock
  refine ⟨hs.rep, ?_⟩
  have hsub : s.pool.Spares
      (LinuxRouter.parked fun i => if i ∈ order ∧ s.pend.expired i then [] else chains i) := by
    rintro b ⟨i, hb⟩
    dsimp only at hb
    split at hb
    · cases hb
    · exact h.spares b ⟨i, hb⟩
  refine hsub.freeAll ?_
  rintro b hb ⟨j, hj⟩
  simp only [hs.dead, List.nil_append, List.mem_flatMap, List.mem_map, List.mem_filter] at hb
  obtain ⟨_, ⟨i, ⟨hi, hx⟩, rfl⟩, hb⟩ := hb
  dsimp only at hb hj
  split at hj
  · cases hj
  · rename_i hn
    rw [h.rep.slot_unique hb hj] at hi hx
    exact hn ⟨hi, hx⟩

/-- **The loop of `pend_tick`**, by an invariant of the keys still to do. -/
theorem wp_retryKeys {I : List Key → Plane → Prop}
    (hstep : ∀ k ks s, I (k :: ks) s → wp exec
      (fun _ s' => wp exec (fun _ s'' => I ks s'') (forwardFlushPending k) s') (arpRequest k) s)
    {ks : List Key} {s : Plane} (h : I ks s) : wp exec (fun _ s' => I [] s') (retryKeys ks) s := by
  induction ks generalizing s with
  | nil => exact h
  | cons k ks ih =>
      refine wp_bind.mpr (wp_mono (hstep k ks s h) fun _ s' h' => ?_)
      exact wp_bind.mpr (wp_mono h' fun _ s'' h'' => ih h'')

/-- **`pend_tick`**: its walk, and then the loop with an invariant. -/
theorem wp_pendTick {I : List Key → Plane → Prop} {s : Plane} {order : List Slot}
    {chains : Slot → List Block} (h : Parked s order chains)
    (hinit : ∀ e s', Leaves ∅ [] (exec .pendSweep e s).2 s' →
      Parked s' (order.filter fun i => !s.pend.expired i)
        (fun i => if i ∈ order ∧ s.pend.expired i then [] else chains i) →
      I ((order.filter fun i => !s.pend.expired i).map fun i => (s.pend.node i).key) s')
    (hstep : ∀ k ks s, I (k :: ks) s → wp exec
      (fun _ s' => wp exec (fun _ s'' => I ks s'') (forwardFlushPending k) s') (arpRequest k) s) :
    wp exec (fun _ s' => I [] s') pendTick s := by
  simp only [pendTick, Prog.perform_bind]
  intro e
  have hp := pendSweep_parked h e
  have hk : (exec .pendSweep e s).1.2 = _ := (sweep_spec h.rep e.clock).keys
  refine wp_bind.mpr (wp_mono (countExpired_leaves _ hp.spares) fun _ s' hl => ?_)
  rw [hk]
  exact wp_retryKeys hstep (hinit e s' (hl.mono (Set.empty_subset _)) (hl.parked hp))

end LinuxRouter
