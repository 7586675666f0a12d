import LinuxRouter.Model.Router

/-!
# Model — Mempool

`mempool.c`: the stack of free arena blocks, and the `malloc` fallback.  The pointer test of
`mp_free` is the case split on `Block`.

`mp_alloc` gives the block on top of the stack, or one that `malloc` returns, or nothing; which of
the last two is a parameter.  It clears the header of what it gives out, and the three counters are
kept.

A block of the heap has an address that no live block has, as `malloc` gives it.  `mp_free` pushes a
block of the arena, unless the stack is full, and hands one of the heap back; it clears nothing, so
that what a block held is still there when it is taken again, and only its header is fresh.  `Arena`
is the level below, with the array of indices, its top and the arithmetic on pointers.
-/

namespace LinuxRouter

/-- The free stack, its top first, and the fallback blocks that are allocated; and three counters, which
do not wrap here (`Counter`). -/
structure Pool where
  freeStack : List (Fin mpCount)
  live : List ℕ
  allocs : ℕ
  frees : ℕ
  fallbacks : ℕ

/-- `mp_init`: the indices are pushed in increasing order. -/
def Pool.init : Pool where
  freeStack := (List.finRange mpCount).reverse
  live := []
  allocs := 0
  frees := 0
  fallbacks := 0

/-- The header `mp_alloc` leaves: it does not clear the payload. -/
def FwdFrame.fresh (f : FwdFrame) : FwdFrame :=
  { f with next := none, len := 0, outIfidx := 0, nexthop := 0 }

/-- `mp_alloc`.  `heap` is the address `malloc` would return; it never returns a live block. -/
def mpAlloc (heap : Option ℕ) (p : Pool) (m : Mem) : Option Block × Pool × Mem :=
  match p.freeStack with
  | i :: st =>
      (some (.pool i), { p with freeStack := st, allocs := p.allocs + 1 },
        Function.update m (.pool i) (m (.pool i)).fresh)
  | [] =>
      let p := { p with fallbacks := p.fallbacks + 1, allocs := p.allocs + 1 }
      match heap with
      | none => (none, p, m)
      | some a =>
          if a ∈ p.live then (none, p, m)
          else (some (.heap a), { p with live := a :: p.live },
            Function.update m (.heap a) (m (.heap a)).fresh)

/-- `mp_free` of a non-null block. -/
def mpFree (b : Block) (p : Pool) : Pool :=
  match b with
  | .pool i =>
      { p with
        freeStack := if p.freeStack.length < mpCount then i :: p.freeStack else p.freeStack
        frees := p.frees + 1 }
  | .heap a => { p with live := p.live.erase a, frees := p.frees + 1 }

/-- The loop that frees a chain: each block's `next` is read before the block is freed. -/
def mpFreeAll (bs : List Block) (p : Pool) : Pool := bs.foldl (fun p b => mpFree b p) p

end LinuxRouter
