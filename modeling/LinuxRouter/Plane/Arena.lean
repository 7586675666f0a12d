import LinuxRouter.Model.Arena

/-!
# Plane — the arena

The allocator, by addresses.

* `indexOf_ptrOf`: the range test and the division give back the index that a block was made of.
* `ArenaInv`: the indices on the stack and those popped are all of them, once.  `ArenaInv.step` keeps it.
* `arena_exact`: in every state that calls of `mp_alloc` and `mp_free` lead to, from any threads.
* `arena_pop` and `arena_free`: the blocks of `Mempool` are those of the arena.

`mp_free` is given a pointer and has to tell a block of the arena from one of the heap, and which
block it is.  The range test is on 64-bit addresses, and the index is a division that must come out
exactly; both are settled once, for the pointers that `mp_alloc` can have made (`indexOf_ptrOf`) and
for those that it cannot (`indexOf_outside`).  What is left is a stack of indices with a list beside
it of those given out, each with its holder: a call moves one index from the one to the other, so
that together they stay all indices, once each.
-/

namespace LinuxRouter

variable {T : Type} {a a' : Arena} {p : Ptr} {i : BitVec 32}

namespace Arena

/-! ### Pointers and indices -/

theorem toNat_ptrOf (a : Arena) (h : i.toNat < mpCount) :
    (a.ptrOf i).toNat = a.base.toNat + i.toNat * mpBlock := by
  have hroom := a.room
  have hmul : i.toNat * mpBlock + mpBlock ≤ mpCount * mpBlock := by
    rw [← Nat.succ_mul]
    exact Nat.mul_le_mul_right _ h
  have hoff : (i.setWidth 64 * BitVec.ofNat 64 mpBlock).toNat = i.toNat * mpBlock := by
    have hi : i.toNat % 2 ^ 64 = i.toNat := Nat.mod_eq_of_lt (i.isLt.trans (by decide))
    have hblock : mpBlock % 2 ^ 64 = mpBlock := by decide
    rw [BitVec.toNat_mul, BitVec.toNat_setWidth, BitVec.toNat_ofNat, hi, hblock]
    exact Nat.mod_eq_of_lt (by omega)
  rw [ptrOf, BitVec.toNat_add, hoff]
  exact Nat.mod_eq_of_lt (by omega)

theorem toNat_end (a : Arena) :
    (a.base + BitVec.ofNat 64 (mpCount * mpBlock)).toNat = a.base.toNat + mpCount * mpBlock := by
  have hroom := a.room
  have hsize : mpCount * mpBlock < 2 ^ 64 := by decide
  rw [BitVec.toNat_add, BitVec.toNat_ofNat, Nat.mod_eq_of_lt hsize, Nat.mod_eq_of_lt hroom]

/-- **The index of a block** is the one it was made of. -/
theorem indexOf_ptrOf (a : Arena) (h : i.toNat < mpCount) : a.indexOf (a.ptrOf i) = some i := by
  have hp := toNat_ptrOf a h
  have hmul : i.toNat * mpBlock + mpBlock ≤ mpCount * mpBlock := by
    rw [← Nat.succ_mul]
    exact Nat.mul_le_mul_right _ h
  have hin : a.base ≤ a.ptrOf i ∧ a.ptrOf i < a.base + BitVec.ofNat 64 (mpCount * mpBlock) := by
    rw [BitVec.le_def, BitVec.lt_def, toNat_end, hp]
    have hpos : 0 < mpBlock := by decide
    omega
  rw [indexOf, if_pos hin]
  refine congrArg some (BitVec.eq_of_toNat_eq ?_)
  have hsub : (a.ptrOf i - a.base).toNat = i.toNat * mpBlock := by
    rw [BitVec.toNat_sub_of_le hin.1, hp, Nat.add_sub_cancel_left]
  rw [BitVec.toNat_setWidth, BitVec.toNat_udiv, hsub, BitVec.toNat_ofNat,
    Nat.mod_eq_of_lt (by decide : mpBlock < 2 ^ 64), Nat.mul_div_cancel _ (by decide : 0 < mpBlock),
    Nat.mod_eq_of_lt i.isLt]

/-- A pointer outside the arena has no index. -/
theorem indexOf_outside (a : Arena)
    (h : p.toNat + mpBlock ≤ a.base.toNat ∨ a.base.toNat + mpCount * mpBlock ≤ p.toNat) :
    a.indexOf p = none := by
  refine if_neg ?_
  rw [BitVec.le_def, BitVec.lt_def, toNat_end]
  have hpos : 0 < mpBlock := by decide
  omega

/-- No block is at the null pointer. -/
theorem ptrOf_ne (a : Arena) (h : i.toNat < mpCount) : a.ptrOf i ≠ 0 := by
  intro e
  have hp := toNat_ptrOf a h
  rw [e] at hp
  have hb : a.base.toNat = 0 := by
    have : (0 : Ptr).toNat = 0 := rfl
    omega
  exact a.base_ne (BitVec.eq_of_toNat_eq hb)

/-! ### The stack -/

@[simp] theorem length_free (a : Arena) : a.free.length = a.top := Rows.length_rows _ _

/-- An index put back lies on top. -/
theorem free_put (i : BitVec 32) (a : Arena) : (a.put i).free = a.free ++ [i] := Rows.rows_push _ _ _

/-- What `mp_alloc` takes is the top of the stack. -/
theorem pop_eq_some (h : a.pop = some (p, i, a')) :
    a.free = a'.free ++ [i] ∧ p = a.ptrOf i ∧ a'.base = a.base := by
  unfold pop at h
  split at h
  · rename_i htop
    cases h
    refine ⟨?_, rfl, rfl⟩
    obtain ⟨n, hn⟩ : ∃ n, a.top = n + 1 := ⟨a.top - 1, by omega⟩
    simp only [free, hn, Nat.add_sub_cancel, Rows.rows_succ]
  · cases h

theorem pop_eq_none : a.pop = none ↔ a.free = [] := by
  rw [pop, ← List.length_eq_zero_iff, length_free]
  split
  · rename_i h
    exact iff_of_false (fun e => nomatch e) (by omega)
  · rename_i h
    exact iff_of_true rfl (by omega)

/-- What `mp_free` gives back comes on top. -/
theorem free_mpFree (hi : i.toNat < mpCount) (htop : a.top < mpCount) :
    (a.mpFree (a.ptrOf i)).free = a.free ++ [i] := by
  rw [mpFree, if_neg (a.ptrOf_ne hi), a.indexOf_ptrOf hi]
  simp only [push, if_pos htop, free_put]

/-- A free leaves the arena where it is. -/
theorem base_mpFree (p : Ptr) (a : Arena) : (a.mpFree p).base = a.base := by
  rw [mpFree]
  split
  · rfl
  · split
    · rw [push]
      split
      · rfl
      · rfl
    · rfl

/-- A block of the heap leaves the stack as it is. -/
theorem mpFree_outside (h : a.indexOf p = none) : a.mpFree p = a := by
  rw [mpFree]
  split
  · rfl
  · rw [h]

/-- `mp_init` stacks all the indices. -/
theorem free_init (a : Arena) :
    a.init.free = (List.range mpCount).map (BitVec.ofNat 32) ∧ a.init.base = a.base := by
  have hfold : ∀ n, ∀ b : Arena, b.free = [] →
      ((List.range n).foldl (fun a i => a.put (BitVec.ofNat 32 i)) b).free =
        (List.range n).map (BitVec.ofNat 32) ∧
      ((List.range n).foldl (fun a i => a.put (BitVec.ofNat 32 i)) b).base = b.base := by
    intro n b hb
    induction n with
    | zero => exact ⟨hb, rfl⟩
    | succ n ih =>
        rw [List.range_succ, List.foldl_append, List.map_append]
        refine ⟨?_, ih.2⟩
        rw [List.foldl_cons, List.foldl_nil, free_put, ih.1]
        rfl
  exact hfold mpCount _ rfl

end Arena

/-! ### The invariant -/

/-- A block that `malloc` gave. -/
def Lease.fallback (x : Lease T) : Option Ptr := if x.popped = none then some x.ptr else none

/-- All indices. -/
def indices : List (BitVec 32) := (List.range mpCount).map (BitVec.ofNat 32)

/-- What holds between two steps: the stack and the indices popped are all indices, each once; every
held pointer is the block of its index, or one that `malloc` gave, outside the arena. -/
structure ArenaInv (s : ArenaState T) : Prop where
  all : (s.arena.free ++ s.held.filterMap Lease.popped).Perm indices
  pool : ∀ x ∈ s.held, ∀ i, x.popped = some i → x.ptr = s.arena.ptrOf i
  heap : (s.held.filterMap Lease.fallback).Perm s.heap
  outside : ∀ q ∈ s.heap, s.arena.indexOf q = none
  nodup : s.heap.Nodup

variable {s s' : ArenaState T} {x : Lease T}

theorem mem_indices : i ∈ indices ↔ i.toNat < mpCount := by
  rw [indices, List.mem_map]
  constructor
  · rintro ⟨n, hn, rfl⟩
    rw [List.mem_range] at hn
    rw [BitVec.toNat_ofNat]
    exact (Nat.mod_le _ _).trans_lt hn
  · intro h
    exact ⟨i.toNat, List.mem_range.mpr h, by simp⟩

theorem nodup_indices : indices.Nodup := by
  refine List.Nodup.map_on (fun m hm n hn e => ?_) List.nodup_range
  rw [List.mem_range] at hm hn
  have hlt : mpCount < 2 ^ 32 := by decide
  have htoNat := congrArg BitVec.toNat e
  rwa [BitVec.toNat_ofNat, BitVec.toNat_ofNat, Nat.mod_eq_of_lt (hm.trans hlt),
    Nat.mod_eq_of_lt (hn.trans hlt)] at htoNat

/-- At the start all are on the stack. -/
theorem ArenaInv.init (a : Arena) : ArenaInv (ArenaState.init T a) where
  all := by
    rw [ArenaState.init, List.filterMap_nil, List.append_nil, a.free_init.1]
    exact List.Perm.refl _
  pool x hx := nomatch hx
  heap := List.Perm.nil
  outside q hq := nomatch hq
  nodup := List.nodup_nil

/-- A popped index is one of the arena. -/
theorem ArenaInv.lt (h : ArenaInv s) (hx : x ∈ s.held) (hi : x.popped = some i) :
    i.toNat < mpCount :=
  mem_indices.mp (h.all.subset (List.mem_append_right _ (List.mem_filterMap.mpr ⟨x, hx, hi⟩)))

/-- **The index of a held pointer** is the one popped for it. -/
theorem ArenaInv.index (h : ArenaInv s) (hx : x ∈ s.held) : s.arena.indexOf x.ptr = x.popped := by
  cases hi : x.popped with
  | none =>
      have hm : x.ptr ∈ s.held.filterMap Lease.fallback :=
        List.mem_filterMap.mpr ⟨x, hx, if_pos hi⟩
      exact h.outside _ (h.heap.subset hm)
  | some i =>
      rw [h.pool x hx i hi]
      exact s.arena.indexOf_ptrOf (h.lt hx hi)

/-- While a block of the pool is held, the stack is not full. -/
theorem ArenaInv.room (h : ArenaInv s) (hx : x ∈ s.held) (hi : x.popped = some i) :
    s.arena.top < mpCount := by
  have hlen := h.all.length_eq
  have hpos := List.length_pos_of_mem (List.mem_filterMap.mpr ⟨x, hx, hi⟩)
  rw [List.length_append, Arena.length_free, indices, List.length_map, List.length_range] at hlen
  omega

/-- **What `mp_free` gives back** is the index that was popped, or nothing for another block. -/
theorem ArenaInv.gives_back (h : ArenaInv s) (hx : x ∈ s.held) :
    (s.arena.mpFree x.ptr).free = s.arena.free ++ x.popped.toList := by
  have hindex := h.index hx
  cases hi : x.popped with
  | none =>
      rw [hi] at hindex
      rw [Arena.mpFree_outside hindex]
      exact (List.append_nil _).symm
  | some i =>
      rw [h.pool x hx i hi, Arena.free_mpFree (h.lt hx hi) (h.room hx hi)]
      rfl

/-- The pointers and the indices of an arena depend on where it is. -/
theorem ptrOf_congr (h : a'.base = a.base) : a'.ptrOf = a.ptrOf ∧ a'.indexOf = a.indexOf := by
  constructor
  · funext i
    rw [Arena.ptrOf, Arena.ptrOf, h]
  · funext p
    rw [Arena.indexOf, Arena.indexOf, h]

variable {l r : List (Lease T)} {t : T}

theorem ArenaInv.pop (h : ArenaInv s) (t : T) (hpop : s.arena.pop = some (p, i, a)) :
    ArenaInv { s with arena := a, held := ⟨t, p, some i⟩ :: s.held } := by
  obtain ⟨hfree, hp, hbase⟩ := Arena.pop_eq_some hpop
  obtain ⟨hptr, hindex⟩ := ptrOf_congr hbase
  refine ⟨?_, ?_, h.heap, ?_, h.nodup⟩
  · have hall := h.all
    rw [hfree, List.append_assoc] at hall
    exact hall
  · rintro y hy j hj
    rw [hptr]
    rcases List.mem_cons.mp hy with rfl | hy
    · cases hj
      exact hp
    · exact h.pool y hy j hj
  · rw [hindex]
    exact h.outside

/-- A block of the heap given out. -/
theorem ArenaInv.malloc (h : ArenaInv s) (hp : s.Fresh p) (t : T) (starved : List T) :
    ArenaInv { s with heap := p :: s.heap, starved := starved, held := ⟨t, p, none⟩ :: s.held } := by
  refine ⟨h.all, ?_, h.heap.cons p, ?_, ?_⟩
  · rintro y hy j hj
    rcases List.mem_cons.mp hy with rfl | hy
    · cases hj
    · exact h.pool y hy j hj
  · rintro q hq
    rcases List.mem_cons.mp hq with rfl | hq
    · exact s.arena.indexOf_outside hp.arena
    · exact h.outside q hq
  · refine List.nodup_cons.mpr ⟨fun hm => ?_, h.nodup⟩
    have hapart := hp.heap p hm
    have hpos : 0 < mpBlock := by decide
    omega

/-- **A block given back**, of the arena or of the heap. -/
theorem ArenaInv.free (h : ArenaInv s) (hheld : s.held = l ++ x :: r) :
    ArenaInv
      { s with
        arena := s.arena.mpFree x.ptr
        heap := if (s.arena.indexOf x.ptr).isSome then s.heap else s.heap.erase x.ptr
        held := l ++ r } := by
  have hx : x ∈ s.held := by
    rw [hheld]
    exact List.mem_append_right _ List.mem_cons_self
  have hsub : ∀ y ∈ l ++ r, y ∈ s.held := fun y hy => by
    rw [hheld]
    rcases List.mem_append.mp hy with hy | hy
    · exact List.mem_append_left _ hy
    · exact List.mem_append_right _ (List.mem_cons_of_mem x hy)
  obtain ⟨hptr, hindex⟩ := ptrOf_congr (Arena.base_mpFree x.ptr s.arena)
  have hall := h.all
  have hheap := h.heap
  rw [hheld, List.filterMap_append] at hall hheap
  rw [h.index hx]
  have hpool : ∀ y ∈ l ++ r, ∀ i, y.popped = some i → y.ptr = (s.arena.mpFree x.ptr).ptrOf i :=
    fun y hy i hi => hptr ▸ h.pool y (hsub y hy) i hi
  cases hi : x.popped with
  | some i =>
      -- a block of the pool: its index goes back on the stack
      have hfall : x.fallback = none := if_neg (by rw [hi]; exact Option.some_ne_none i)
      have hback := h.gives_back hx
      rw [hi] at hback
      rw [List.filterMap_cons_some hi] at hall
      rw [List.filterMap_cons_none hfall, ← List.filterMap_append] at hheap
      refine ⟨?_, hpool, hheap, fun q hq => hindex ▸ h.outside q hq, h.nodup⟩
      simp only [hback, Option.toList_some, List.filterMap_append, List.append_assoc,
        List.singleton_append]
      exact (List.Perm.append_left _ List.perm_middle.symm).trans hall
  | none =>
      -- a fallback block: it goes back to the heap, the stack is what it was
      have hfall : x.fallback = some x.ptr := if_pos hi
      have hback := h.gives_back hx
      rw [hi, Option.toList_none, List.append_nil] at hback
      rw [List.filterMap_cons_none hi, ← List.filterMap_append] at hall
      rw [List.filterMap_cons_some hfall] at hheap
      refine ⟨?_, hpool, ?_, fun q hq => hindex ▸ h.outside q (List.mem_of_mem_erase hq),
        h.nodup.erase _⟩
      · simp only [hback]
        exact hall
      · have herase := (List.perm_middle.symm.trans hheap).erase x.ptr
        rw [List.erase_cons_head, ← List.filterMap_append] at herase
        exact herase

/-- A block handed to another thread. -/
theorem ArenaInv.pass (h : ArenaInv s) (hheld : s.held = l ++ x :: r) (t : T) :
    ArenaInv { s with held := l ++ { x with owner := t } :: r } := by
  have hsame : ∀ {β : Type} (f : Lease T → Option β), f { x with owner := t } = f x →
      (l ++ { x with owner := t } :: r).filterMap f = s.held.filterMap f := fun f hf => by
    rw [hheld, List.filterMap_append, List.filterMap_append, List.filterMap_cons, List.filterMap_cons, hf]
  refine ⟨?_, ?_, ?_, h.outside, h.nodup⟩
  · simp only [hsame Lease.popped rfl]
    exact h.all
  · intro y hy j hj
    rcases List.mem_append.mp hy with hy | hy
    · exact h.pool y (by rw [hheld]; exact List.mem_append_left _ hy) j hj
    · rcases List.mem_cons.mp hy with rfl | hy
      · exact h.pool x (by rw [hheld]; exact List.mem_append_right _ List.mem_cons_self) j hj
      · exact h.pool y (by rw [hheld]; exact List.mem_append_right _ (List.mem_cons_of_mem x hy)) j hj
  · simp only [hsame Lease.fallback rfl]
    exact h.heap

/-- **A step keeps the invariant.** -/
theorem ArenaInv.step (h : ArenaInv s) (hs : ArenaStep s s') : ArenaInv s' := by
  cases hs with
  | pop t hpop => exact h.pop t hpop
  | empty t hpop => exact ⟨h.all, h.pool, h.heap, h.outside, h.nodup⟩
  | malloc hs hp => exact h.malloc hp _ _
  | exhausted hs => exact ⟨h.all, h.pool, h.heap, h.outside, h.nodup⟩
  | free hheld => exact h.free hheld
  | pass t hheld => exact h.pass hheld t

/-- **Every sequence of calls** keeps it. -/
theorem ArenaInv.reach (h : ArenaInv s) (hs : ArenaReach s s') : ArenaInv s' := by
  induction hs with
  | refl => exact h
  | step _ hstep ih => exact ih.step hstep

/-! ### What follows -/

/-- The blocks of the pool that are held: the indices of the held pointers, by the code's own test. -/
def ArenaState.taken (s : ArenaState T) : List (BitVec 32) :=
  s.held.filterMap fun x => s.arena.indexOf x.ptr

/-- The stack and the blocks that are held are the pool, and `mp_free` gives back what `mp_alloc`
took. -/
structure ArenaState.Exact (s : ArenaState T) : Prop where
  free : s.arena.free.Nodup
  taken : s.taken.Nodup
  disjoint : ∀ i ∈ s.arena.free, i ∉ s.taken
  all : ∀ i : BitVec 32, i ∈ s.arena.free ∨ i ∈ s.taken ↔ i.toNat < mpCount
  once : (s.held.map Lease.ptr).Nodup
  index : ∀ x ∈ s.held, s.arena.indexOf x.ptr = x.popped
  guard : ∀ x ∈ s.held, x.popped.isSome → s.arena.top < mpCount
  back : ∀ x ∈ s.held, (s.arena.mpFree x.ptr).free = s.arena.free ++ x.popped.toList

theorem nodup_ptr {held : List (Lease T)} (hindex : ∀ x ∈ held, a.indexOf x.ptr = x.popped)
    (hpool : (held.filterMap Lease.popped).Nodup) (hheap : (held.filterMap Lease.fallback).Nodup) :
    (held.map Lease.ptr).Nodup := by
  induction held with
  | nil => exact List.nodup_nil
  | cons x held ih =>
      rw [List.forall_mem_cons] at hindex
      have hrest := ih hindex.2 (hpool.sublist ((List.sublist_cons_self x held).filterMap _))
        (hheap.sublist ((List.sublist_cons_self x held).filterMap _))
      refine List.nodup_cons.mpr ⟨fun hm => ?_, hrest⟩
      obtain ⟨y, hy, hptr⟩ := List.mem_map.mp hm
      have hsame : y.popped = x.popped := by rw [← hindex.1, ← hindex.2 y hy, hptr]
      cases hi : x.popped with
      | some i =>
          rw [List.filterMap_cons_some hi] at hpool
          exact (List.nodup_cons.mp hpool).1 (List.mem_filterMap.mpr ⟨y, hy, hsame.trans hi⟩)
      | none =>
          have hfall : ∀ z : Lease T, z.popped = none → z.fallback = some z.ptr := fun z hz => if_pos hz
          rw [List.filterMap_cons_some (hfall x hi)] at hheap
          refine (List.nodup_cons.mp hheap).1 (List.mem_filterMap.mpr ⟨y, hy, ?_⟩)
          rw [hfall y (hsame.trans hi), hptr]

/-- What the invariant says of a state. -/
theorem ArenaInv.exact (h : ArenaInv s) : s.Exact := by
  have htaken : s.taken = s.held.filterMap Lease.popped :=
    List.filterMap_congr fun x hx => h.index hx
  have hnodup := h.all.nodup_iff.mpr nodup_indices
  obtain ⟨hfree, hpopped, hdisj⟩ := List.nodup_append.mp hnodup
  refine ⟨hfree, htaken ▸ hpopped, ?_, ?_, ?_, fun x hx => h.index hx, ?_, fun x hx => h.gives_back hx⟩
  · intro i hi ht
    rw [htaken] at ht
    exact hdisj i hi i ht rfl
  · intro i
    rw [htaken, ← List.mem_append, h.all.mem_iff, mem_indices]
  · exact nodup_ptr (fun x hx => h.index hx) hpopped (h.heap.nodup_iff.mpr h.nodup)
  · intro x hx hs
    obtain ⟨i, hi⟩ := Option.isSome_iff_exists.mp hs
    exact h.room hx hi

/-- **The allocator never hands out a block twice**, over every run of its calls, from any addresses of
the arena and whatever `malloc` gives when it is empty.  What is on the free stack and what is held are
together the pool, each block once; and what `mp_free` computes from a pointer is the index that
`mp_alloc` took from the stack. -/
theorem arena_exact (a : Arena) (s : ArenaState T) (h : ArenaReach (ArenaState.init T a) s) :
    s.Exact :=
  ((ArenaInv.init a).reach h).exact

/-- An arena at the address 65536. -/
def lowArena : Arena where
  base := 65536
  base_ne := by decide
  room := by decide
  stack := fun _ => 0
  top := 0

/-- The whole arena is on the stack. -/
theorem top_init (a : Arena) : a.init.top = mpCount := by
  rw [← Arena.length_free, a.free_init.1, List.length_map, List.length_range]

/-- Calls of `mp_alloc` by one thread, as long as the stack lasts. -/
theorem ArenaReach.pops {s₀ : ArenaState T} (t : T) {n m : ℕ} (h : ArenaReach s₀ s)
    (htop : s.arena.top = n + m) :
    ∃ s' l, ArenaReach s₀ s' ∧ s'.arena.top = m ∧ s'.arena.base = s.arena.base ∧ s'.heap = s.heap ∧
      s'.held = l ++ s.held ∧ l.length = n ∧ ∀ x ∈ l, x.popped.isSome := by
  induction n generalizing s with
  | zero => exact ⟨s, [], h, htop.trans (Nat.zero_add m), rfl, rfl, rfl, rfl, fun x hx => nomatch hx⟩
  | succ n ih =>
      obtain ⟨⟨p, i, a⟩, hpop⟩ : ∃ x, s.arena.pop = some x := ⟨_, if_pos (by omega)⟩
      obtain ⟨hfree, -, hbase⟩ := Arena.pop_eq_some hpop
      have hlen := congrArg List.length hfree
      rw [List.length_append, Arena.length_free, Arena.length_free, List.length_singleton] at hlen
      obtain ⟨s', l, hreach, htop', hbase', hheap, hheld, hl, hall⟩ :=
        ih (h.step (.pop t hpop)) (by simp only; omega)
      refine ⟨s', l ++ [⟨t, p, some i⟩], hreach, htop', hbase'.trans hbase, hheap, ?_, ?_, ?_⟩
      · rw [hheld, List.append_assoc]
        rfl
      · rw [List.length_append, hl]
        rfl
      · rw [List.forall_mem_append]
        exact ⟨hall, List.forall_mem_singleton.mpr rfl⟩

/-- A call of `mp_alloc` that finds the stack empty, with what `malloc` gives. -/
theorem ArenaReach.fallback {s₀ : ArenaState T} (t : T) (h : ArenaReach s₀ s) (htop : s.arena.top = 0)
    (hp : s.Fresh p) :
    ArenaReach s₀ { s with heap := p :: s.heap, held := ⟨t, p, none⟩ :: s.held } := by
  have hpop : s.arena.pop = none := if_neg (by omega)
  exact (h.step (.empty t hpop)).step (.malloc (l := []) rfl ⟨hp.ne, hp.arena, hp.heap⟩)

/-- A call of `mp_free` with a block of the pool. -/
theorem ArenaReach.gives (h : ArenaReach (ArenaState.init T a) s) (hheld : s.held = l ++ x :: r)
    (hx : x.popped.isSome) :
    ∃ s', ArenaReach (ArenaState.init T a) s' ∧ s'.arena.top = s.arena.top + 1 ∧ s'.heap = s.heap ∧
      s'.held = l ++ r := by
  have hinv := (ArenaInv.init a).reach h
  have hm : x ∈ s.held := by
    rw [hheld]
    exact List.mem_append_right _ List.mem_cons_self
  obtain ⟨i, hi⟩ := Option.isSome_iff_exists.mp hx
  have hback := congrArg List.length (hinv.gives_back hm)
  rw [hi, Arena.length_free, List.length_append, Arena.length_free] at hback
  refine ⟨_, h.step (.free hheld), hback, if_pos ?_, rfl⟩
  rw [hinv.index hm]
  exact hx

/-- One thread takes the whole pool, another gets a block of `malloc`; then the first one gives two
blocks back and takes one of them again, while the other keeps its own. -/
theorem arena_exact_one :
    ∃ s : ArenaState Bool, ArenaReach (ArenaState.init Bool lowArena) s ∧ s.arena.top = 1 ∧
      s.heap = [8388608] ∧ s.held.length = mpCount ∧ s.Exact := by
  have htop : lowArena.init.top = mpCount + 0 := top_init lowArena
  have h₀ : ArenaReach (ArenaState.init Bool lowArena) _ := .refl
  obtain ⟨s₁, l, h₁, htop₁, hbase, hheap₁, hheld₁, hlen, hall⟩ := h₀.pops false htop
  have hfresh : s₁.Fresh 8388608 := by
    refine ⟨by decide, .inr ?_, fun q hq => ?_⟩
    · rw [hbase, ArenaState.init, lowArena.free_init.2]
      decide
    · rw [hheap₁] at hq
      cases hq
  obtain ⟨x, y, r, rfl⟩ : ∃ x y r, l = x :: y :: r := by
    cases l with
    | nil => cases hlen
    | cons x l =>
        cases l with
        | nil =>
            rw [List.length_singleton] at hlen
            exact absurd hlen (by decide)
        | cons y r => exact ⟨x, y, r, rfl⟩
  have h₂ := h₁.fallback true htop₁ hfresh
  obtain ⟨s₃, h₃, htop₃, hheap₃, hheld₃⟩ :=
    h₂.gives (l := [_]) (congrArg (_ :: ·) hheld₁) (hall x List.mem_cons_self)
  obtain ⟨s₄, h₄, htop₄, hheap₄, hheld₄⟩ :=
    h₃.gives (l := [_]) hheld₃ (hall y (List.mem_cons_of_mem x List.mem_cons_self))
  have htop₄' : s₄.arena.top = 1 + 1 := by
    rw [htop₄, htop₃, htop₁]
  obtain ⟨s₅, l₅, h₅, htop₅, -, hheap₅, hheld₅, hlen₅, -⟩ := h₄.pops false htop₄'
  refine ⟨s₅, h₅, htop₅, ?_, ?_, arena_exact lowArena s₅ h₅⟩
  · rw [hheap₅, hheap₄, hheap₃, hheap₁]
    rfl
  · rw [hheld₅, List.length_append, hlen₅, hheld₄, ← hlen]
    simp [ArenaState.init]
    omega

/-! ### The pool of blocks -/

/-- The index of a block of the pool, as `uint32_t`. -/
def blockIndex (k : Fin mpCount) : BitVec 32 := BitVec.ofNat 32 k

/-- The stack of the arena is that of the pool. -/
def Arena.Stands (a : Arena) (q : Pool) : Prop := a.free = (q.freeStack.map blockIndex).reverse

/-- The arena and the pool of the other modules, at the start. -/
theorem stands_init (a : Arena) : a.init.Stands Pool.init := by
  rw [Arena.Stands, a.free_init.1, Pool.init, ← List.map_reverse, List.reverse_reverse]
  refine List.ext_getElem (by simp) fun n h₁ h₂ => ?_
  simp [blockIndex]

/-- **`mp_alloc` on the arena** pops what `mpAlloc` does on the pool, and leaves it alike. -/
theorem arena_pop {q : Pool} (h : a.Stands q) (addr : Option ℕ) (m : Mem) :
    (a.pop = none ∧ q.freeStack = []) ∨
      ∃ k a', a.pop = some (a.ptrOf (blockIndex k), blockIndex k, a') ∧
        (mpAlloc addr q m).1 = some (.pool k) ∧ a'.Stands (mpAlloc addr q m).2.1 := by
  cases hq : q.freeStack with
  | nil =>
      refine .inl ⟨Arena.pop_eq_none.mpr ?_, rfl⟩
      rw [h, hq]
      rfl
  | cons k st =>
      have hfree : a.free = (st.map blockIndex).reverse ++ [blockIndex k] := by
        rw [h, hq, List.map_cons, List.reverse_cons]
      right
      cases hpop : a.pop with
      | none =>
          rw [Arena.pop_eq_none.mp hpop] at hfree
          exact absurd hfree.symm (by simp)
      | some x =>
          obtain ⟨p, i, a'⟩ := x
          obtain ⟨hsplit, rfl, -⟩ := Arena.pop_eq_some hpop
          obtain ⟨hrest, hlast⟩ := List.append_inj' (hsplit.symm.trans hfree) rfl
          obtain rfl := List.singleton_inj.mp hlast
          rw [mpAlloc, hq]
          exact ⟨k, a', rfl, rfl, hrest⟩

/-- **`mp_free` on the arena** gives back what `mpFree` does on the pool. -/
theorem arena_free {q : Pool} (h : a.Stands q) (k : Fin mpCount) :
    (a.mpFree (a.ptrOf (blockIndex k))).Stands (mpFree (.pool k) q) := by
  have hk : (blockIndex k).toNat < mpCount :=
    mem_indices.mp (List.mem_map.mpr ⟨k, List.mem_range.mpr k.2, rfl⟩)
  have htop : a.top = q.freeStack.length := by
    rw [← Arena.length_free, h, List.length_reverse, List.length_map]
  by_cases hfull : a.top < mpCount
  · rw [Arena.Stands, Arena.free_mpFree hk hfull, h, mpFree, if_pos (htop ▸ hfull), List.map_cons,
      List.reverse_cons]
  · have hsame : a.mpFree (a.ptrOf (blockIndex k)) = a := by
      rw [Arena.mpFree, if_neg (a.ptrOf_ne hk), a.indexOf_ptrOf hk]
      exact if_neg hfull
    rw [hsame, Arena.Stands, mpFree, if_neg (htop ▸ hfull)]
    exact h

end LinuxRouter
