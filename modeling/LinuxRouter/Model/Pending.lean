import LinuxRouter.Support.Linked
import LinuxRouter.Model.Mempool

/-!
# Model — Pending

The pending table of `forward.c`: static slots, linked by index into one list, each with a chain
of frame blocks linked by pointer.  Every function here is one critical section under
`g_pend_lock`.

A walk over the slot list is bounded by the number of slots, and a walk over a chain by
`PEND_CHAIN_MAX`; on a well-formed table neither bound is met.

`pend_enqueue` says how it has ended, and which slot it has taken from another next hop, with the
frames that were there.
-/

namespace LinuxRouter

/-- An index into `g_pend`; `-1` is `none`. -/
abbrev Slot := Fin pendMax

/-- `pend_node_t`. -/
structure PendNode where
  nexthop : Ip
  ifidx : CInt
  retries : ℕ
  lastSent : ℕ
  chain : Option Block
  chainLen : ℕ
  next : Option Slot
  used : Bool

def PendNode.key (n : PendNode) : Key := (n.nexthop, n.ifidx)

/-- `g_pend_head` and `g_pend`. -/
structure PendTable where
  head : Option Slot
  node : Slot → PendNode

/-- Static storage. -/
def PendTable.init : PendTable where
  head := none
  node := fun _ =>
    { nexthop := 0, ifidx := 0, retries := 0, lastSent := 0, chain := none, chainLen := 0,
      next := some ⟨0, by decide⟩, used := false }

namespace PendTable

def links (t : PendTable) : Linked.Links Slot where
  head := t.head
  next := fun i => (t.node i).next

def setLinks (t : PendTable) (L : Linked.Links Slot) : PendTable where
  head := L.head
  node := fun i => { t.node i with next := L.next i }

def setNode (t : PendTable) (i : Slot) (n : PendNode) : PendTable :=
  { t with node := Function.update t.node i n }

end PendTable

/-- The test of `find_pend_locked`. -/
def PendNode.matches (k : Key) (n : PendNode) : Bool := n.used && n.nexthop == k.1 && n.ifidx == k.2

/-- `find_pend_locked`. -/
def findPend (t : PendTable) (k : Key) : Option Slot :=
  Linked.find t.links.next (fun i => (t.node i).matches k) pendMax t.head

/-- `unlink_node_locked`. -/
def unlinkNode (t : PendTable) (i : Slot) : PendTable :=
  t.setLinks (t.links.unlink (· == i) pendMax)

/-- The frames of a slot's chain. -/
def PendTable.frames (t : PendTable) (m : Mem) (i : Slot) : List Block :=
  Linked.toList m.next pendChainMax (t.node i).chain

/-- What the scan of `alloc_pend_locked` finds. -/
inductive Scan where
  | free (i : Slot)
  | victim (i : Slot)
  | none
  deriving DecidableEq

/-- The scan, over the slots still to look at, with the oldest seen so far. -/
def scanPend (t : PendTable) : List Slot → Option Slot → ℕ → Scan
  | [], some i, _ => .victim i
  | [], none, _ => .none
  | i :: is, victim, oldest =>
      if !(t.node i).used then .free i
      else if (t.node i).lastSent < oldest then scanPend t is (some i) (t.node i).lastSent
      else scanPend t is victim oldest

/-- A slot given up: its key and the frames that were freed with it. -/
structure Evicted where
  key : Key
  frames : List Block
  deriving DecidableEq

/-- `alloc_pend_locked`: a free slot, or the oldest slot, unlinked, its chain taken out and freed.
The victim is still marked used: the caller overwrites it. -/
def allocPend (m : Mem) (t : PendTable) : Option (Slot × Option Evicted) × PendTable :=
  match scanPend t (List.finRange pendMax) none (2 ^ 64 - 1) with
  | .free i => (some (i, none), t)
  | .none => (none, t)
  | .victim i =>
      let ev := { key := (t.node i).key, frames := t.frames m i }
      let t := unlinkNode t i
      (some (i, some ev), t.setNode i { t.node i with chain := none, chainLen := 0 })

/-- How `pend_enqueue` ends. -/
inductive Enqueued where
  /-- pushed onto the chain of a slot that was there -/
  | joined
  /-- a new slot, in place of the evicted one if the table was full -/
  | created (ev : Option Evicted)
  /-- the chain is full: the caller frees the frame -/
  | full
  /-- no slot: the caller frees the frame -/
  | noSlot
  deriving DecidableEq

/-- `pend_enqueue`, up to its unlock. -/
def pendEnqueue (now : ℕ) (k : Key) (b : Block) (m : Mem) (t : PendTable) :
    Enqueued × Mem × PendTable :=
  match findPend t k with
  | some i =>
      let n := t.node i
      if n.chainLen ≥ pendChainMax then (.full, m, t)
      else
        (.joined, m.setNext b n.chain,
          t.setNode i { n with chain := some b, chainLen := n.chainLen + 1, lastSent := now })
  | none =>
      match allocPend m t with
      | (none, t) => (.noSlot, m, t)
      | (some (i, ev), t) =>
          let n : PendNode :=
            { nexthop := k.1, ifidx := k.2, retries := 0, lastSent := now, chain := some b,
              chainLen := 1, next := t.head, used := true }
          (.created ev, m, { t.setNode i n with head := some i })

/-- The statements a flush and an expiry share: the chain and its length are cleared, the slot is
unlinked, and then marked unused. -/
def releaseNode (t : PendTable) (i : Slot) : PendTable :=
  let t := t.setNode i { t.node i with chain := none, chainLen := 0 }
  let t := unlinkNode t i
  t.setNode i { t.node i with used := false }

/-- The critical section of `forward_flush_pending`: the slot's chain, and the table without it. -/
def pendDetach (k : Key) (t : PendTable) : Option (Option Block) × PendTable :=
  match findPend t k with
  | none => (none, t)
  | some i => (some (t.node i).chain, releaseNode t i)

/-- What the walk of `pend_tick` builds: the table, the slots given up, and the keys to ask for. -/
structure Sweep where
  table : PendTable
  dead : List Evicted
  keys : List Key

/-- The walk of `pend_tick`, which reads a slot's `next` before it touches the slot. -/
def sweepFrom (now : ℕ) (m : Mem) : ℕ → Option Slot → Sweep → Sweep
  | _, none, w => w
  | 0, some _, w => w
  | n + 1, some i, w =>
      let t := w.table
      let next := (t.node i).next
      if (t.node i).retries ≥ arpRetryMax then
        let ev := { key := (t.node i).key, frames := t.frames m i }
        sweepFrom now m n next { w with table := releaseNode t i, dead := w.dead ++ [ev] }
      else
        let k := (t.node i).key
        let t := t.setNode i { t.node i with retries := (t.node i).retries + 1, lastSent := now }
        sweepFrom now m n next
          { w with table := t, keys := if w.keys.length < pendMax then w.keys ++ [k] else w.keys }

/-- The critical section of `pend_tick`. -/
def pendSweep (now : ℕ) (m : Mem) (t : PendTable) : Sweep :=
  sweepFrom now m pendMax t.head { table := t, dead := [], keys := [] }

end LinuxRouter
