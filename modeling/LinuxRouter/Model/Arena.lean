import LinuxRouter.Support.Rows
import LinuxRouter.Model.Mempool

/-!
# Model — Arena

`mempool.c`, by addresses: the arena, the stack of indices, and the arithmetic between a pointer and
an index.  `Mempool` has the same pool by blocks.

`ArenaStep` are the calls of `mp_alloc` and `mp_free` from any threads, a critical section at a time;
every held pointer is kept with the index that was popped for it, which the code does not keep.

A pointer is a 64-bit number, and where the arena lies is a parameter; the fallback gives a pointer
that is outside it and held by nobody.
-/

namespace LinuxRouter

/-- `MP_BLOCK`. -/
def mpBlock : ℕ := 2048

/-- `uintptr_t`. -/
abbrev Ptr := BitVec 64

/-- `g_arena`, `g_free_stack` and `g_free_top`.  The arena is what `malloc` gave: not null, and it ends
below the end of the addresses. -/
structure Arena where
  base : Ptr
  base_ne : base ≠ 0
  room : base.toNat + mpCount * mpBlock < 2 ^ 64
  stack : ℕ → BitVec 32
  top : ℕ

namespace Arena

/-- The block of an index: `g_arena + (size_t)idx * MP_BLOCK`. -/
def ptrOf (a : Arena) (i : BitVec 32) : Ptr := a.base + i.setWidth 64 * BitVec.ofNat 64 mpBlock

/-- `g_free_stack[g_free_top++] = idx`. -/
def put (i : BitVec 32) (a : Arena) : Arena :=
  { a with stack := Function.update a.stack a.top i, top := a.top + 1 }

/-- `mp_init`, in an arena. -/
def init (a : Arena) : Arena :=
  (List.range mpCount).foldl (fun a i => a.put (BitVec.ofNat 32 i)) { a with top := 0 }

/-- The critical section of `mp_alloc`: the block and its index, unless the stack is empty. -/
def pop (a : Arena) : Option (Ptr × BitVec 32 × Arena) :=
  if 0 < a.top then
    let idx := a.stack (a.top - 1)
    some (a.ptrOf idx, idx, { a with top := a.top - 1 })
  else none

/-- The range test of `mp_free` and the division: the index of a pointer into the arena. -/
def indexOf (a : Arena) (p : Ptr) : Option (BitVec 32) :=
  if a.base ≤ p ∧ p < a.base + BitVec.ofNat 64 (mpCount * mpBlock) then
    some (((p - a.base) / BitVec.ofNat 64 mpBlock).setWidth 32)
  else none

/-- The critical section of `mp_free`, with its guard. -/
def push (i : BitVec 32) (a : Arena) : Arena := if a.top < mpCount then a.put i else a

/-- `mp_free`, on the arena: a pointer from elsewhere goes to `free`. -/
def mpFree (p : Ptr) (a : Arena) : Arena :=
  if p = 0 then a
  else
    match a.indexOf p with
    | some i => a.push i
    | none => a

/-- The indices on the stack, its top last. -/
def free (a : Arena) : List (BitVec 32) := Rows.rows a.stack a.top

end Arena

/-- A pointer that a thread holds, and the index that `mp_alloc` popped for it: none for a block of
`malloc`. -/
structure Lease (T : Type) where
  owner : T
  ptr : Ptr
  popped : Option (BitVec 32)

/-- The pool with its threads: the blocks that `malloc` gave, the threads that found the stack empty
and have not called `malloc` yet, and the pointers that are held. -/
structure ArenaState (T : Type) where
  arena : Arena
  heap : List Ptr
  starved : List T
  held : List (Lease T)

/-- What `malloc` may return: no null, and a block apart from the arena and from the others. -/
structure ArenaState.Fresh (s : ArenaState T) (p : Ptr) : Prop where
  ne : p ≠ 0
  arena : p.toNat + mpBlock ≤ s.arena.base.toNat ∨ s.arena.base.toNat + mpCount * mpBlock ≤ p.toNat
  heap : ∀ q ∈ s.heap, p.toNat + mpBlock ≤ q.toNat ∨ q.toNat + mpBlock ≤ p.toNat

/-- After `mp_init`. -/
def ArenaState.init (T : Type) (a : Arena) : ArenaState T where
  arena := a.init
  heap := []
  starved := []
  held := []

/-- A step of one thread.  A block is freed by its holder, who does not hold it any more. -/
inductive ArenaStep : ArenaState T → ArenaState T → Prop where
  | pop (t : T) (h : s.arena.pop = some (p, i, a)) :
      ArenaStep s { s with arena := a, held := ⟨t, p, some i⟩ :: s.held }
  | empty (t : T) (h : s.arena.pop = none) : ArenaStep s { s with starved := t :: s.starved }
  | malloc (h : s.starved = l ++ t :: r) (hp : s.Fresh p) :
      ArenaStep s
        { s with heap := p :: s.heap, starved := l ++ r, held := ⟨t, p, none⟩ :: s.held }
  | exhausted (h : s.starved = l ++ t :: r) : ArenaStep s { s with starved := l ++ r }
  | free (h : s.held = l ++ x :: r) :
      ArenaStep s
        { s with
          arena := s.arena.mpFree x.ptr
          heap := if (s.arena.indexOf x.ptr).isSome then s.heap else s.heap.erase x.ptr
          held := l ++ r }
  | pass (t : T) (h : s.held = l ++ x :: r) :
      ArenaStep s { s with held := l ++ { x with owner := t } :: r }

/-- Any number of steps of any threads. -/
inductive ArenaReach (s₀ : ArenaState T) : ArenaState T → Prop where
  | refl : ArenaReach s₀ s₀
  | step (h : ArenaReach s₀ s) (hs : ArenaStep s s') : ArenaReach s₀ s'

end LinuxRouter
