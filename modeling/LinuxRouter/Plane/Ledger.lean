import LinuxRouter.Plane.Capacity
import LinuxRouter.Support.Accounts

/-!
# Plane — the books of forwarding

Threads that call `forward_task`, `forward_flush_pending` and `pend_tick`, in any order, and keep
books.

* `calling` is the system: a thread has a list of calls, and makes one after the other.  A frame for
  `forward_task` comes from the queue.
* `Account` is what a thread has in its books: the frames in its hands, how many it was given, called
  `pkt_send` for, and freed before, and what it counted in `g_drop`.
* `books` says how they are kept (`Program.Accounting`), with one lemma for each function of the
  source.
* `Ledgered` is the invariant: the books agree with the counter and the pending table.
* `drops_exact`: the count is exact in every run whose steps are `counted`.  `drops_undercounted` is a
  run with a step that is not.

A counter that several threads add to is compared with what became of the frames.  Every thread
keeps an account of its own, by its own commands, and the judgment on a function says that it comes
out even: each frame it was given is sent, parked, or dropped and counted once.  The invariant adds
the accounts up against the shared state (`Ledgered`), where the frames are in the queue, in the
chains or in a thread's hands.  Three steps need not come out even.  An eviction and the walk of
`pend_tick` free whole chains and count one for each, so that the sum is right only if the chain has
one frame; and `forward_send` counts nothing when its interface is gone.
-/

namespace LinuxRouter

open Linked (IsChain)
open Program (Prog Config Discipline Reach Watched By)
open Program.Prog (perform)

/-! ### Calls -/

/-- A call, or something that happens between calls: a frame is queued, the ARP table learns an answer,
or ages. -/
inductive FwdCall where
  | forwardTask
  | forwardFlushPending (k : Key)
  | pendTick
  | frame (f : List Byte) (len : ℕ)
  | arpInsert (k : Key) (mac : Mac)
  | arpTick

/-- A frame is queued. -/
def queueFrame (f : List Byte) (len : ℕ) : Act Unit := do
  match ← perform .mpAlloc with
  | none => pure ()
  | some blk =>
    perform (.write blk (.data f))
    perform (.write blk (.len len))
    let ok ← perform (.tpoolSubmit blk)
    if ok then pure () else perform (.mpFree blk)

def FwdCall.act : FwdCall → Act Unit
  | .forwardTask => do
    let _ ← workerRound
    pure ()
  | .forwardFlushPending k => LinuxRouter.forwardFlushPending k
  | .pendTick => LinuxRouter.pendTick
  | .frame f len => queueFrame f len
  | .arpInsert k mac => perform (.arpInsert k mac)
  | .arpTick => perform .arpTick

/-- The next call. -/
def callRound : Tid → List FwdCall → Act (Option (List FwdCall))
  | _, [] => pure (some [])
  | _, c :: cs => do
    c.act
    pure (some cs)

/-- Threads that make calls, while the configuration may change. -/
def calling : Program.System Cmd Env Plane (List Block) Tid (List FwdCall) :=
  dataPlane.withBody callRound

/-- Every thread before its first call. -/
def Plane.calls (s : Plane) (script : Tid → List FwdCall) :
    Config Cmd Plane (List Block) Tid (List FwdCall) where
  shared := s
  thread := fun t => .idle (script t)
  ghost := fun _ => []

/-- A frame put into the queue keeps the discipline. -/
theorem Goes.queueFrame {strict : Bool} {t : Tid} {ν : Block → Option Block} {g : List Block}
    {f : List Byte} {len : ℕ} : Goes strict t ν g (queueFrame f len) g := by
  simp only [LinuxRouter.queueFrame, Prog.perform_bind, Prog.pure_eq]
  refine alloc (fun _ h => h) (ret _) fun b _ => ?_
  refine quiet rfl (fun _ => by simp [pre]) fun _ => quiet rfl (fun _ => by simp [pre]) fun _ => ?_
  have herase : (b :: g).erase b = g := List.erase_cons_head ..
  refine submit (by simp) (by simp) ?_ ?_
  · rw [herase]
    exact ret _
  · refine free (by simp) ?_
    rw [herase]
    exact ret _

theorem Goes.call {strict : Bool} {t : Tid} {ν : Block → Option Block} {g : List Block}
    (c : FwdCall) : Goes strict t ν g c.act g := by
  cases c with
  | forwardTask => exact Goes.workerRound.bind fun _ => .ret _
  | forwardFlushPending k => exact .forwardFlushPending
  | pendTick => exact .pendTick
  | frame f len => exact .queueFrame
  | arpInsert k mac => exact .quiet rfl (fun _ => trivial) fun _ => .ret _
  | arpTick => exact .quiet rfl (fun _ => trivial) fun _ => .ret _

/-- A round keeps the discipline of the data plane, and nothing in hand. -/
theorem callRound_ok (t : Tid) (cs : List FwdCall) (s : Plane) :
    (discipline false).Ok t (fun r g _ => ∀ cs, r = some cs → g = []) (callRound t cs) [] s := by
  have hgo : Goes false t s.mem.next [] (callRound t cs) [] := by
    cases cs with
    | nil => exact .ret _
    | cons c cs => exact (Goes.call c).bind fun _ => .ret _
  exact (hgo s fun _ _ => rfl).mono fun _ _ _ h _ _ => h.1

section Runs

variable {ifs : Ifaces} {routes : List Route} {rules : List FwRule} {proxy : Bool} {clz0 : CInt}
  {m : Mem} {script : Tid → List FwdCall}

/-- **Every run** of calls keeps it. -/
theorem calling_good {y : Config Cmd Plane (List Block) Tid (List FwdCall)}
    (h : Reach calling Program.anyStep ((Plane.init ifs routes rules proxy clz0 m).calls script) y) :
    ((discipline false).withBody callRound).Good (fun _ _ g _ => g = []) y := by
  refine Discipline.sound (fun _ _ _ _ _ h _ _ => h) ?_ ?_
    (h.mono fun _ t c e s _ => recvOk_false t c e s)
  · rintro t cs _ s rfl
    exact (callRound_ok t cs s).withBody
  · exact ⟨.init .., fun _ => rfl⟩

/-- Whoever watches, every command of a run finds the data plane in order. -/
theorem calling_inOrder {γ : Type} {watch : ∀ ⦃β : Type⦄, Tid → Cmd β → Plane → β → γ → γ} {v : γ}
    {ok : ∀ ⦃β : Type⦄, Tid → By Tid Cmd β → Env → Watched Plane (List Block) Tid γ → Prop}
    {y : Config (By Tid Cmd) (Watched Plane (List Block) Tid γ) Tid Tid (List FwdCall)}
    (h : Reach (calling.watched watch) ok
      (((Plane.init ifs routes rules proxy clz0 m).calls script).shadow v) y) {t : Tid} {β : Type}
    {c : By Tid Cmd β} {k : β → Prog (By Tid Cmd) (Option (List FwdCall))}
    (ht : y.thread t = .running (.cmd c k)) :
    c.thread = t ∧ PlaneInv y.shared.shared y.shared.ghost ∧
      pre t c.cmd (y.shared.ghost t) y.shared.shared := by
  obtain ⟨x, v, rfl, hx⟩ := Program.watched_run (fun _ t c e x _ => recvOk_false t c e x.shared) h
  obtain ⟨c, k, ht', rfl, rfl⟩ := Program.tag_eq_cmd ht
  have hgood := calling_good (hx.mono fun _ _ _ _ _ _ => trivial)
  have hrun := hgood.2 t
  rw [ht'] at hrun
  have hfact := (discipline false).fact_of_inv t hgood.1
  exact ⟨rfl, hgood.1, (hrun _ ((discipline false).rely_refl _ _) hfact).1⟩

end Runs

/-! ### Accounts -/

/-- The books of a thread. -/
structure Account where
  /-- the frames in its hands: given to it or detached by it, and neither sent, freed nor parked -/
  frames : Finset Block
  /-- the frame it sends, with the `out_ifidx` it has read -/
  sending : Option (Block × Option Byte)
  /-- the frames given to `forward_task` -/
  given : ℕ
  /-- the frames that `pkt_send` was called for -/
  attempted : ℕ
  /-- the frames freed without -/
  discarded : ℕ
  /-- what was added to `g_drop` -/
  dropped : ℕ

namespace Account

def start : Account where
  frames := ∅
  sending := none
  given := 0
  attempted := 0
  discarded := 0
  dropped := 0

/-- What a thread enters at a command. -/
def note : ∀ ⦃β : Type⦄, Cmd β → Plane → β → Account → Account
  | _, .mpAlloc, _, some b, l => { l with frames := l.frames.erase b }
  | _, .tpoolTake, _, .task (some b), l =>
      { l with frames := insert b l.frames, given := l.given + 1 }
  | _, .mark (.send b _), _, _, l => { l with sending := some (b, none) }
  | _, .load _, _, f, l => { l with sending := l.sending.map fun x => (x.1, some f.outIfidx) }
  | _, .pktSend _ _, _, _, l =>
      match l.sending with
      | some (b, _) =>
          { l with
            frames := l.frames.erase b
            attempted := l.attempted + if b ∈ l.frames then 1 else 0 }
      | none => l
  | _, .mpFree b, _, _, l =>
      { l with
        frames := l.frames.erase b
        sending := none
        discarded := l.discarded + if b ∈ l.frames then 1 else 0 }
  | _, .count .drop, _, _, l => { l with dropped := l.dropped + 1 }
  | _, .pendEnqueue _ b, _, r, l =>
      { l with
        frames := if r.kept then l.frames.erase b else l.frames
        discarded := l.discarded + r.evicted.length }
  | _, .pendDetach _, s, some h, l =>
      { l with frames := l.frames ∪ (Linked.toList s.mem.next pendChainMax h).toFinset }
  | _, .pendSweep, _, w, l => { l with discarded := l.discarded + (w.1.flatMap (·.frames)).length }
  | _, _, _, _, l => l

/-- A thread queues no frame that it has in its books, and parks none but these. -/
def needs : ∀ ⦃β : Type⦄, Cmd β → Account → Prop
  | _, .tpoolSubmit b, l => b ∉ l.frames
  | _, .pendEnqueue _ b, l => b ∈ l.frames
  | _, _, _ => True

/-- The interface of the frame that a thread sends is in the table. -/
def hasOut (ifs : Ifaces) (l : Account) : Bool :=
  match l.sending with
  | some (_, some out) => (ifaceByIndex ifs (Int32.ofNat out.toNat)).isSome
  | _ => true

/-- A frame that is sent finds its interface, and a slot that is given up has one frame. -/
def expects : ∀ ⦃β : Type⦄, Cmd β → β → Account → Prop
  | _, .ifaces, ifs, l => l.hasOut ifs = true
  | _, .pendEnqueue _ _, r, _ => ∀ ev, r = .created (some ev) → ev.frames.length = 1
  | _, .pendSweep, w, _ => ∀ ev ∈ w.1, ev.frames.length = 1
  | _, _, _, _ => True

/-- The thread sends no frame, and has counted as many as it has discarded. -/
def Even (l : Account) : Prop := l.sending = none ∧ l.dropped = l.discarded

/-- The frames accounted for. -/
def spent (l : Account) : ℕ := l.attempted + l.discarded + l.frames.card

end Account

/-- How the books of forwarding are kept. -/
def books : Program.Accounting Cmd Plane Account where
  note := Account.note
  needs := Account.needs
  expects := Account.expects

/-! ### The functions of the source -/

/-- Commands that a thread enters nothing for, unless it sends a frame. -/
def Cmd.unbooked {β : Type} : Cmd β → Bool
  | .mpAlloc => false
  | .mpFree _ => false
  | .tpoolSubmit _ => false
  | .tpoolTake => false
  | .pendEnqueue _ _ => false
  | .pendDetach _ => false
  | .pendSweep => false
  | .count c => c ≠ .drop
  | .mark (.send _ _) => false
  | _ => true

section Programs

variable {α β : Type} {Q : α → Account → Prop} {l : Account} {b : Block}

/-- A command that no account has. -/
theorem note_unbooked {c : Cmd β} (hc : c.unbooked = true) (hl : l.sending = none) (s : Plane)
    (a : β) : Account.note c s a l = l := by
  obtain ⟨frames, sending, given, attempted, discarded, dropped⟩ := l
  cases hl
  cases c with
  | count c => cases c <;> first | rfl | cases hc
  | mark ev => cases ev <;> first | rfl | cases hc
  | _ => first | rfl | cases hc

/-- It asks nothing of an account. -/
theorem needs_unbooked {c : Cmd β} (hc : c.unbooked = true) (l : Account) : Account.needs c l := by
  cases c <;> trivial

/-- It leaves an account as it is. -/
theorem keeps_step {c : Cmd β} {k : β → Act α} (hc : c.unbooked = true) (hl : l.sending = none)
    (hk : ∀ a, books.Keeps Q (k a) l) : books.Keeps Q (.cmd c k) l := by
  refine ⟨needs_unbooked hc l, fun s a _ => ?_⟩
  have hn : books.note c s a l = l := note_unbooked hc hl s a
  rw [hn]
  exact hk a

/-- A frame in the books that is counted and freed. -/
theorem keeps_count_free (hl : l.Even) (hb : b ∈ l.frames) :
    books.Keeps (fun _ => Account.Even) (.cmd (.count .drop) fun _ => Prog.perform (.mpFree b)) l := by
  refine ⟨trivial, fun s _ _ => ⟨trivial, fun s _ _ => ⟨rfl, ?_⟩⟩⟩
  change l.dropped + 1 = l.discarded + if b ∈ l.frames then 1 else 0
  rw [if_pos hb, hl.2]

/-- A drop that is counted elsewhere. -/
theorem keeps_drop {c : Counter} (hc : c ≠ .drop) (hl : l.Even) (hb : b ∈ l.frames) :
    books.Keeps (fun _ => Account.Even) (drop c b) l :=
  keeps_step (decide_eq_true hc) hl.1 fun _ => keeps_count_free hl hb

/-- A frame that is not in the books is freed. -/
theorem keeps_free {k : Unit → Act α} (hl : l.Even) (hb : b ∉ l.frames)
    (hk : ∀ l, l.Even → books.Keeps Q (k ()) l) : books.Keeps Q (.cmd (.mpFree b) k) l := by
  refine ⟨trivial, fun s _ _ => hk _ ⟨rfl, ?_⟩⟩
  change l.dropped = l.discarded + if b ∈ l.frames then 1 else 0
  rw [if_neg hb, Nat.add_zero, hl.2]

theorem keeps_forwardSend (b : Block) (mac : Mac) (hl : l.Even) :
    books.Keeps (fun _ => Account.Even) (forwardSend b mac) l := by
  simp only [forwardSend, Prog.perform_bind]
  refine ⟨trivial, fun s _ _ => ⟨trivial, fun s f _ => ⟨trivial, fun s ifs hifs => ?_⟩⟩⟩
  have hout : (ifaceByIndex ifs (Int32.ofNat f.outIfidx.toNat)).isSome = true := hifs
  obtain ⟨out, hi⟩ := Option.isSome_iff_exists.mp hout
  simp only [hi]
  refine ⟨trivial, fun s _ _ => ⟨trivial, fun s ok _ => ⟨trivial, fun s _ _ => ?_⟩⟩⟩
  -- `pkt_send` took the frame off the books
  cases ok <;> refine ⟨trivial, fun s _ _ => ⟨rfl, ?_⟩⟩ <;>
    change l.dropped = l.discarded + (if b ∈ l.frames.erase b then 1 else 0) <;>
    rw [if_neg (Finset.notMem_erase b _), Nat.add_zero, hl.2]

/-- So does a chain of frames. -/
theorem keeps_sendChain (mac : Mac) (n : ℕ) (h : Option Block) (hl : l.Even) :
    books.Keeps (fun _ => Account.Even) (sendChain mac n h) l := by
  induction n generalizing h l with
  | zero => cases h <;> exact hl
  | succ n ih =>
      cases h with
      | none => exact hl
      | some b =>
          simp only [sendChain, Prog.perform_bind]
          refine keeps_step rfl hl.1 fun f => ?_
          exact (keeps_forwardSend b mac hl).bind fun _ l hl => ih f.next hl

theorem keeps_forwardFlushPending (k : Key) (hl : l.Even) :
    books.Keeps (fun _ => Account.Even) (forwardFlushPending k) l := by
  simp only [forwardFlushPending, Prog.perform_bind]
  refine keeps_step rfl hl.1 fun mac => ?_
  cases mac with
  | none => exact hl
  | some mac =>
      refine ⟨trivial, fun s chain _ => ?_⟩
      cases chain with
      | none => exact hl
      | some h => exact keeps_sendChain mac pendChainMax h ⟨hl.1, hl.2⟩

theorem keeps_arpRequest (k : Key) (hl : l.Even) :
    books.Keeps (fun _ => Account.Even) (arpRequest k) l := by
  simp only [arpRequest, Prog.perform_bind]
  refine keeps_step rfl hl.1 fun ifs => ?_
  split
  · exact hl
  · refine ⟨trivial, fun s blk _ => ?_⟩
    cases blk with
    | none => exact hl
    | some b =>
        have hl' : (books.note .mpAlloc s (some b) l).Even := hl
        have hb : b ∉ (books.note .mpAlloc s (some b) l).frames := Finset.notMem_erase b _
        refine keeps_step rfl hl'.1 fun f => keeps_step rfl hl'.1 fun _ => ?_
        refine keeps_step rfl hl'.1 fun _ => keeps_step rfl hl'.1 fun _ => ?_
        refine keeps_step rfl hl'.1 fun ok => ?_
        cases ok <;> exact keeps_step rfl hl'.1 fun _ => keeps_free hl' hb fun _ h => h

/-- So does a frame that is parked or refused. -/
theorem keeps_pendEnqueueFrame (k : Key) (hl : l.Even) (hb : b ∈ l.frames) :
    books.Keeps (fun _ => Account.Even) (pendEnqueueFrame k b) l := by
  simp only [pendEnqueueFrame, Prog.perform_bind]
  refine ⟨hb, fun s r hr => ?_⟩
  cases r with
  | joined => exact ⟨hl.1, hl.2⟩
  | created ev =>
      cases ev with
      | none => exact ⟨hl.1, hl.2⟩
      | some ev =>
          have hone : ev.frames.length = 1 := hr ev rfl
          refine ⟨trivial, fun _ _ _ => ⟨trivial, fun _ _ _ => ⟨hl.1, ?_⟩⟩⟩
          change l.dropped + 1 = l.discarded + ev.frames.length
          rw [hone, hl.2]
  | full => exact keeps_drop (by decide) ⟨hl.1, hl.2⟩ hb
  | noSlot => exact keeps_drop (by decide) ⟨hl.1, hl.2⟩ hb

/-- So does a frame for a next hop. -/
theorem keeps_forwardTo {f : List Byte} {k : Key} (hl : l.Even) (hb : b ∈ l.frames) :
    books.Keeps (fun _ => Account.Even) (forwardTo b f k) l := by
  simp only [forwardTo, Prog.perform_bind]
  split
  · exact keeps_drop (by decide) hl hb
  · refine keeps_step rfl hl.1 fun _ => keeps_step rfl hl.1 fun mac => ?_
    cases mac with
    | some mac => exact keeps_forwardSend b mac hl
    | none => exact (keeps_pendEnqueueFrame k hl hb).bind fun _ _ hl => keeps_arpRequest k hl

theorem keeps_forwardTask (hl : l.Even) (hb : b ∈ l.frames) :
    books.Keeps (fun _ => Account.Even) (forwardTask b) l := by
  simp only [forwardTask, Prog.perform_bind]
  refine keeps_step rfl hl.1 fun f => ?_
  split
  · exact keeps_drop (by decide) hl hb
  · refine keeps_step rfl hl.1 fun action => ?_
    split
    · exact keeps_drop (by decide) hl hb
    · refine keeps_step rfl hl.1 fun ifs => ?_
      split
      · exact keeps_count_free hl hb
      · refine keeps_step rfl hl.1 fun ifs => ?_
        split
        · exact keeps_forwardTo hl hb
        · refine keeps_step rfl hl.1 fun rt => ?_
          cases rt with
          | none => exact keeps_drop (by decide) hl hb
          | some rt => exact keeps_forwardTo hl hb

theorem keeps_workerRound (hl : l.Even) : books.Keeps (fun _ => Account.Even) workerRound l := by
  simp only [workerRound, Prog.perform_bind]
  refine ⟨trivial, fun s r _ => ?_⟩
  rcases r with _ | _ | _ | b
  · exact hl
  · exact hl
  · exact hl
  · have hl' : (books.note .tpoolTake s (.task (some b)) l).Even := hl
    have hb : b ∈ (books.note .tpoolTake s (.task (some b)) l).frames := Finset.mem_insert_self b _
    exact (keeps_forwardTask hl' hb).bind fun _ _ hl => hl

/-- The slots that a sweep gave up are counted. -/
theorem keeps_countExpired (evs : List Evicted) (hs : l.sending = none)
    (hd : l.dropped + evs.length = l.discarded) :
    books.Keeps (fun _ => Account.Even) (countExpired evs) l := by
  induction evs generalizing l with
  | nil => exact ⟨hs, hd⟩
  | cons ev evs ih =>
      refine keeps_step rfl hs fun _ => ⟨trivial, fun s _ _ => ih hs ?_⟩
      change l.dropped + 1 + evs.length = l.discarded
      rw [← hd, List.length_cons]
      omega

theorem keeps_retryKeys (ks : List Key) (hl : l.Even) :
    books.Keeps (fun _ => Account.Even) (retryKeys ks) l := by
  induction ks generalizing l with
  | nil => exact hl
  | cons k ks ih =>
      refine (keeps_arpRequest k hl).bind fun _ l hl => ?_
      exact (keeps_forwardFlushPending k hl).bind fun _ l hl => ih hl

/-- So does `pend_tick`, in its own books. -/
theorem keeps_pendTick (hl : l.Even) : books.Keeps (fun _ => Account.Even) pendTick l := by
  simp only [pendTick, Prog.perform_bind]
  refine ⟨trivial, fun s w hw => ?_⟩
  obtain ⟨dead, keys⟩ := w
  have hlen : (dead.flatMap (·.frames)).length = dead.length := by
    rw [List.length_flatMap, List.map_congr_left hw, List.map_const', List.sum_replicate_nat,
      Nat.mul_one]
  refine Program.Accounting.Keeps.bind ?_ fun _ _ hl => keeps_retryKeys keys hl
  refine keeps_countExpired dead hl.1 ?_
  change l.dropped + dead.length = l.discarded + (dead.flatMap (·.frames)).length
  rw [hlen, hl.2]

/-- So does a frame put into the queue. -/
theorem keeps_queueFrame (f : List Byte) (len : ℕ) (hl : l.Even) :
    books.Keeps (fun _ => Account.Even) (queueFrame f len) l := by
  simp only [queueFrame, Prog.perform_bind]
  refine ⟨trivial, fun s blk _ => ?_⟩
  cases blk with
  | none => exact hl
  | some b =>
      have hl' : (books.note .mpAlloc s (some b) l).Even := hl
      have hb : b ∉ (books.note .mpAlloc s (some b) l).frames := Finset.notMem_erase b _
      refine keeps_step rfl hl'.1 fun _ => keeps_step rfl hl'.1 fun _ => ⟨hb, fun s ok _ => ?_⟩
      cases ok with
      | true => exact hl'
      | false => exact keeps_free hl' hb fun _ h => h

theorem keeps_call (c : FwdCall) (hl : l.Even) : books.Keeps (fun _ => Account.Even) c.act l := by
  cases c with
  | forwardTask => exact (keeps_workerRound hl).bind fun _ _ hl => hl
  | forwardFlushPending k => exact keeps_forwardFlushPending k hl
  | pendTick => exact keeps_pendTick hl
  | frame f len => exact keeps_queueFrame f len hl
  | arpInsert k mac => exact keeps_step rfl hl.1 fun _ => hl
  | arpTick => exact keeps_step rfl hl.1 fun _ => hl

/-- **A call counts what it discards.** -/
theorem keeps_callRound (t : Tid) (cs : List FwdCall) (hl : l.Even) :
    books.Keeps (fun _ => Account.Even) (callRound t cs) l := by
  cases cs with
  | nil => exact hl
  | cons c cs => exact (keeps_call c hl).bind fun _ _ hl => hl

end Programs

/-! ### Steps -/

section Step

variable {t : Tid} {β : Type} {c : Cmd β} {e : Env} {s : Plane} {l : Account} {g : List Block}

/-- The frames in a thread's books are in its hands. -/
theorem note_frames (hl : ∀ b ∈ l.frames, b ∈ g) (hn : Account.needs c l) (a : β) {b : Block}
    (hb : b ∈ (Account.note c s a l).frames) : b ∈ hold c s a g := by
  have herase : ∀ {b' : Block}, b ∈ l.frames.erase b' → b ∈ g.erase b' := by
    intro b' hb
    obtain ⟨hne, hb⟩ := Finset.mem_erase.mp hb
    exact (List.mem_erase_of_ne hne).mpr (hl b hb)
  cases c with
  | mpAlloc =>
      cases a with
      | none => exact hl b hb
      | some b' => exact List.mem_cons_of_mem _ (hl b (Finset.mem_of_mem_erase hb))
  | mpFree b' => exact herase hb
  | tpoolSubmit b' =>
      cases a with
      | false => exact hl b hb
      | true =>
          have hne : b ≠ b' := fun e => hn (e ▸ hb)
          exact (List.mem_erase_of_ne hne).mpr (hl b hb)
  | tpoolTake =>
      rcases a with _ | _ | _ | b'
      · exact hl b hb
      · exact hl b hb
      · exact hl b hb
      · rcases Finset.mem_insert.mp hb with rfl | hb
        · exact List.mem_cons_self
        · exact List.mem_cons_of_mem _ (hl b hb)
  | pendEnqueue k b' =>
      cases a with
      | joined => exact herase hb
      | created ev => exact herase hb
      | full => exact hl b hb
      | noSlot => exact hl b hb
  | pendDetach k =>
      cases a with
      | none => exact hl b hb
      | some h =>
          rcases Finset.mem_union.mp hb with hb | hb
          · exact List.mem_append_right _ (hl b hb)
          · exact List.mem_append_left _ (List.mem_toFinset.mp hb)
  | pktSend f i =>
      refine hl b ?_
      simp only [Account.note] at hb
      split at hb
      · exact Finset.mem_of_mem_erase hb
      · exact hb
  | count c => cases c <;> exact hl b hb
  | mark ev => cases ev <;> exact hl b hb
  | _ => exact hl b hb

/-- What is counted in `g_drop` is in the books. -/
theorem note_dropped (a : β) :
    (Account.note c s a l).dropped + s.stats .drop = l.dropped + (exec c e s).2.stats .drop := by
  have hsame : (exec c e s).2.stats = s.stats → (Account.note c s a l).dropped = l.dropped →
      (Account.note c s a l).dropped + s.stats .drop = l.dropped + (exec c e s).2.stats .drop := by
    intro h₁ h₂
    rw [h₁, h₂]
  cases c with
  | count c =>
      have hother : c ≠ .drop → (s.stats.bump c) .drop = s.stats .drop := fun hc =>
        Function.update_of_ne (Ne.symm hc) _ _
      cases c with
      | drop =>
          have hb : (s.stats.bump .drop) .drop = s.stats .drop + 1 := Function.update_self _ _ _
          change l.dropped + 1 + s.stats .drop = l.dropped + (s.stats.bump .drop) .drop
          rw [hb, Nat.add_right_comm, Nat.add_assoc]
      | _ => exact congrArg (l.dropped + ·) (hother (by decide)).symm
  | recvfrom b =>
      refine hsame ?_ rfl
      rw [exec]
      cases e.recv <;> rfl
  | pktSend f i =>
      refine hsame rfl ?_
      simp only [Account.note]
      split <;> rfl
  | mpAlloc => exact hsame rfl (by cases a <;> rfl)
  | tpoolTake => exact hsame rfl (by rcases a with _ | _ | _ | b <;> rfl)
  | pendDetach k => exact hsame rfl (by cases a <;> rfl)
  | mark ev => exact hsame rfl (by cases ev <;> rfl)
  | _ => exact hsame rfl rfl

/-- A frame that goes off the books is counted once. -/
theorem card_erase (F : Finset Block) (b : Block) :
    (F.erase b).card + (if b ∈ F then 1 else 0) = F.card := by
  split
  · rename_i hb
    exact Finset.card_erase_add_one hb
  · rename_i hb
    rw [Finset.erase_eq_of_notMem hb, Nat.add_zero]

/-- What the command gives to the books, takes from them and enters is even. -/
def Account.Balances {β : Type} (c : Cmd β) (s : Plane) (a : β) (l : Account) : Prop :=
  (Account.note c s a l).given + l.spent + (unparks c s a).length =
    l.given + (Account.note c s a l).spent + enters c a

section Balance

variable {g : Tid → List Block} {owner : Block → Place} {order : List Slot}
  {chains : Slot → List Block} {tasks : List Block}

/-- A frame with somebody else is not in the books. -/
theorem notMem_frames (h : Owned s g owner order chains tasks) (hl : ∀ b ∈ l.frames, b ∈ g t)
    {b : Block} (hb : owner b ≠ .thread t) : b ∉ l.frames :=
  fun hm => hb (h.mem_thread.mp (hl b hm))

/-- A block of the arena is fresh. -/
theorem mpAlloc_balances (h : Owned s g owner order chains tasks) (hl : ∀ b ∈ l.frames, b ∈ g t) :
    Account.Balances .mpAlloc s (exec .mpAlloc e s).1 l := by
  rcases ha : (exec .mpAlloc e s).1 with _ | b
  · rfl
  · obtain ⟨hf, -⟩ := h.pool.alloc (x := .queue) (by simp) ha
    have hb : b ∉ l.frames := notMem_frames h hl (by simp [hf])
    change l.given + l.spent + 0 =
      l.given + (l.attempted + l.discarded + (l.frames.erase b).card) + 0
    rw [Finset.erase_eq_of_notMem hb]
    rfl

/-- A task that is taken comes into the books. -/
theorem tpoolTake_balances (h : Owned s g owner order chains tasks) (hl : ∀ b ∈ l.frames, b ∈ g t) :
    Account.Balances .tpoolTake s (exec .tpoolTake e s).1 l := by
  rcases h.queue.take with ⟨-, hne⟩ | ⟨b, bs, rfl, hb, -⟩
  · have hsame : ∀ r, (∀ o, r ≠ Dequeued.task o) → Account.note .tpoolTake s r l = l := by
      intro r hr
      rcases r with _ | _ | o
      · rfl
      · rfl
      · exact absurd rfl (hr o)
    have ha : Account.note .tpoolTake s (exec .tpoolTake e s).1 l = l := hsame _ hne
    rw [Account.Balances, ha]
    rfl
  · have ha : (exec .tpoolTake e s).1 = .task (some b) := hb
    have hnot : b ∉ l.frames := notMem_frames h hl (by simp [h.mem_tasks.mp List.mem_cons_self])
    rw [ha]
    simp only [Account.Balances, Account.note, Account.spent, unparks, enters, List.length_nil,
      Finset.card_insert_of_notMem hnot]
    omega

/-- A frame that is parked leaves them. -/
theorem pendEnqueue_balances {k : Key} {b : Block} {r : Enqueued} (hn : b ∈ l.frames) :
    Account.Balances (.pendEnqueue k b) s r l := by
  have hb := card_erase l.frames b
  rw [if_pos hn] at hb
  cases hk : r.kept with
  | true =>
      simp only [Account.Balances, Account.note, Account.spent, unparks, enters, hk, if_true]
      omega
  | false =>
      simp only [Account.Balances, Account.note, Account.spent, unparks, enters, hk, if_false,
        Bool.false_eq_true]
      omega

/-- A chain that is taken out comes into the books, every frame of it once. -/
theorem pendDetach_balances {k : Key} (h : Owned s g owner order chains tasks)
    (hl : ∀ b ∈ l.frames, b ∈ g t) :
    Account.Balances (.pendDetach k) s (exec (.pendDetach k) e s).1 l := by
  cases hf : findPend s.pend k with
  | none =>
      simp only [Account.Balances, exec, pendDetach, hf]
      rfl
  | some i =>
      have hframes : Linked.toList s.mem.next pendChainMax (s.pend.node i).chain = chains i :=
        h.rep.frames_eq i
      have hdis : Disjoint l.frames (chains i).toFinset := by
        refine Finset.disjoint_left.mpr fun b hb hc => ?_
        have hs := h.mem_chain.mp (List.mem_toFinset.mp hc)
        exact notMem_frames h hl (by simp [hs]) hb
      have hlen : (chains i).toFinset.card = (chains i).length :=
        List.toFinset_card_of_nodup (h.nodup_chain i)
      simp only [Account.Balances, exec, pendDetach, hf, Account.note, Account.spent, unparks, enters,
        hframes, Finset.card_union_of_disjoint hdis, hlen]
      omega

end Balance

/-- **Every command keeps the books**: what is given, taken out of the pending table, sent, discarded
and parked. -/
theorem note_spent {g : Tid → List Block} {owner : Block → Place} {order : List Slot}
    {chains : Slot → List Block} {tasks : List Block} (h : Owned s g owner order chains tasks)
    (hl : ∀ b ∈ l.frames, b ∈ g t) (hn : Account.needs c l) :
    (Account.note c s (exec c e s).1 l).given + l.spent + (unparks c s (exec c e s).1).length =
      l.given + (Account.note c s (exec c e s).1 l).spent + enters c (exec c e s).1 := by
  cases c with
  | mpAlloc => exact mpAlloc_balances h hl
  | mpFree b =>
      have hb := card_erase l.frames b
      simp only [Account.note, Account.spent, unparks, enters, List.length_nil]
      omega
  | tpoolTake => exact tpoolTake_balances h hl
  | pktSend f i =>
      simp only [Account.note, Account.spent, unparks, enters, List.length_nil]
      split
      · rename_i b _ _
        have hb := card_erase l.frames b
        simp only
        omega
      · rfl
  | pendEnqueue k b => exact pendEnqueue_balances hn
  | pendDetach k => exact pendDetach_balances h hl
  | pendSweep =>
      simp only [Account.note, Account.spent, unparks, enters]
      omega
  | count c => cases c <;> rfl
  | mark ev => cases ev <;> rfl
  | _ => rfl

end Step

/-! ### Runs -/

/-- The data plane, with the books of its threads. -/
abbrev Booked := Watched Plane (List Block) Tid (Tid → Account)

/-- Whatever happens in between, the books agree with the counter and the pending table. -/
structure Ledgered (x : Booked) : Prop where
  frames : ∀ t, ∀ b ∈ (x.view t).frames, b ∈ x.ghost t
  dropped : ∑ t, (x.view t).dropped = x.shared.stats .drop
  given : ∑ t, (x.view t).given = ∑ t, (x.view t).spent + x.shared.parkedCount

/-- **One command** keeps the books with the counter. -/
theorem Ledgered.exec {x : Booked} {t : Tid} {β : Type} {c : Cmd β} (h : Ledgered x) (e : Env)
    (ho : PlaneInv x.shared x.ghost) (hn : Account.needs c (x.view t))
    (hp : pre t c (x.ghost t) x.shared) :
    Ledgered (Watched.exec calling books.watch t c e x).2 := by
  let x' := (Watched.exec calling books.watch t c e x).2
  have hview : x'.view t = Account.note c x.shared (LinuxRouter.exec c e x.shared).1 (x.view t) :=
    Function.update_self _ _ _
  have hne : ∀ u, u ≠ t → x'.view u = x.view u := fun u hu => Function.update_of_ne hu _ _
  have hsum : ∀ f : Account → ℕ, ∑ u, f (x'.view u) + f (x.view t) =
      ∑ u, f (x.view u) + f (x'.view t) := fun f =>
    sum_eq_of_ne t fun u hu => congrArg f (hne u hu)
  obtain ⟨owner, order, chains, tasks, ho⟩ := ho
  constructor
  · intro u b hb
    by_cases hu : u = t
    · subst hu
      have hg : x'.ghost u = hold c x.shared (LinuxRouter.exec c e x.shared).1 (x.ghost u) :=
        Function.update_self _ _ _
      rw [hview] at hb
      rw [hg]
      exact note_frames (h.frames u) hn _ hb
    · have hg : x'.ghost u = x.ghost u := Function.update_of_ne hu _ _
      rw [hne u hu] at hb
      rw [hg]
      exact h.frames u b hb
  · have hd := hsum Account.dropped
    have hcount : (x'.view t).dropped + x.shared.stats .drop =
        (x.view t).dropped + x'.shared.stats .drop := by
      rw [hview]
      exact note_dropped _
    have hbefore := h.dropped
    change ∑ u, (x'.view u).dropped = x'.shared.stats .drop
    omega
  · have hg := hsum Account.given
    have hs := hsum Account.spent
    have hcount := note_spent (e := e) ho (h.frames t) hn
    have hparked := parkedCount_exec (e := e) ho hp
    rw [← hview] at hcount
    have hx : x'.shared = (LinuxRouter.exec c e x.shared).2 := rfl
    rw [← hx] at hparked
    have hbefore := h.given
    change ∑ u, (x'.view u).given = ∑ u, (x'.view u).spent + x'.shared.parkedCount
    omega

/-- The slot that a new key would evict has one frame. -/
def PendTable.evictsOne (t : PendTable) (m : Mem) (k : Key) : Bool :=
  match findPend t k, scanPend t (List.finRange pendMax) none (2 ^ 64 - 1) with
  | none, .victim i => (t.frames m i).length == 1
  | _, _ => true

/-- Every slot that is out of retries has one frame. -/
def PendTable.expiresOne (t : PendTable) (m : Mem) : Bool :=
  (List.finRange pendMax).all fun i =>
    !((t.node i).used && t.expired i) || (t.frames m i).length == 1

/-- The steps that `g_drop` counts right: who sends a frame finds its interface in the table, the slot
that a frame evicts has one frame, and so has every slot that is out of retries. -/
def counted : ∀ ⦃β : Type⦄, Tid → By Tid Cmd β → Env → Booked → Prop
  | _, _, ⟨t, .ifaces⟩, _, x => (x.view t).hasOut x.shared.ifaces = true
  | _, _, ⟨_, .pendEnqueue k _⟩, _, x => x.shared.pend.evictsOne x.shared.mem k = true
  | _, _, ⟨_, .pendSweep⟩, _, x => x.shared.pend.expiresOne x.shared.mem = true
  | _, _, _, _, _ => True

instance counted.decidable {β : Type} (t : Tid) (c : By Tid Cmd β) (e : Env) (x : Booked) :
    Decidable (counted t c e x) := by
  obtain ⟨u, c⟩ := c
  cases c <;> unfold counted <;> infer_instance

/-- What `pend_enqueue` evicts. -/
theorem evicted_of_evictsOne {now : ℕ} {k : Key} {b : Block} {m : Mem} {t : PendTable}
    {ev : Evicted} (h : t.evictsOne m k = true) (hr : (pendEnqueue now k b m t).1 = .created (some ev)) :
    ev.frames.length = 1 := by
  unfold pendEnqueue at hr
  unfold PendTable.evictsOne at h
  cases hf : findPend t k with
  | some i =>
      simp only [hf] at hr
      split at hr <;> cases hr
  | none =>
      cases hs : scanPend t (List.finRange pendMax) none (2 ^ 64 - 1) with
      | free i =>
          simp only [hf, allocPend, hs] at hr
          cases hr
      | none =>
          simp only [hf, allocPend, hs] at hr
          cases hr
      | victim i =>
          simp only [hf, allocPend, hs] at hr h
          cases hr
          exact eq_of_beq h

/-- Only expected answers come. -/
theorem expects_of_counted {x : Booked} {t : Tid} {β : Type} {c : Cmd β} {e : Env}
    (h : counted t ⟨t, c⟩ e x) (ho : PlaneInv x.shared x.ghost) :
    Account.expects c (exec c e x.shared).1 (x.view t) := by
  cases c with
  | ifaces => exact h
  | pendEnqueue k b => exact fun ev hr => evicted_of_evictsOne h hr
  | pendSweep =>
      obtain ⟨owner, order, chains, tasks, ho⟩ := ho
      have hdead : (exec .pendSweep e x.shared).1.1 =
          (order.filter x.shared.pend.expired).map fun i =>
            { key := (x.shared.pend.node i).key, frames := chains i } :=
        (sweep_spec ho.rep e.clock).dead
      have hone : x.shared.pend.expiresOne x.shared.mem = true := h
      intro ev hev
      rw [hdead] at hev
      obtain ⟨i, hi, rfl⟩ := List.mem_map.mp hev
      obtain ⟨hin, hexp⟩ := List.mem_filter.mp hi
      have hi := List.all_eq_true.mp hone i (List.mem_finRange i)
      have hframes : x.shared.pend.frames x.shared.mem i = chains i := ho.rep.frames_eq i
      rw [(ho.rep.used i).mpr hin, hexp, hframes] at hi
      exact eq_of_beq hi
  | _ => trivial

/-- **The count is right**: between calls, `g_drop` is the number of frames that were given to
`forward_task` and freed without `pkt_send`, and the frames given are those sent, dropped and
parked. -/
structure Accounted (x : Booked) : Prop where
  drops : x.shared.stats .drop = ∑ t, (x.view t).discarded
  frames : ∑ t, (x.view t).given =
    ∑ t, (x.view t).attempted + x.shared.stats .drop + x.shared.parkedCount

section Accounted

variable {ifs : Ifaces} {routes : List Route} {rules : List FwRule} {proxy : Bool} {clz0 : CInt}
  {m : Mem} {script : Tid → List FwdCall} {y : Config (By Tid Cmd) Booked Tid Tid (List FwdCall)}

/-- The books before the first call. -/
abbrev Plane.booked (s : Plane) (script : Tid → List FwdCall) :
    Config (By Tid Cmd) Booked Tid Tid (List FwdCall) := (s.calls script).shadow fun _ => .start

/-- Every account is in order, in every run. -/
theorem kept_of_reach
    (h : Reach (calling.watched books.watch) counted
      ((Plane.init ifs routes rules proxy clz0 m).booked script) y) (t : Tid) :
    books.InOrder (fun _ _ a => a.Even) t (y.thread t) (y.shared.view t) := by
  have hok : Reach (calling.watched books.watch)
      (fun _ t c e x => counted t c e x ∧ PlaneInv x.shared x.ghost)
      ((Plane.init ifs routes rules proxy clz0 m).booked script) y :=
    Reach.refine (fun y hy β t c k e ht hc => ⟨hc, (calling_inOrder hy ht).2.1⟩) h
  refine Program.Accounting.kept ?_ ?_ ?_ hok t
  · exact fun t cs a ha => (keeps_callRound t cs ha).mono fun _ _ h _ _ => h
  · exact fun β t c e x hc => expects_of_counted hc.1 hc.2
  · exact fun t => ⟨script t, rfl, rfl, rfl⟩

/-- **Every run** keeps the books with the counter. -/
theorem ledgered_of_reach
    (h : Reach (calling.watched books.watch) counted
      ((Plane.init ifs routes rules proxy clz0 m).booked script) y) : Ledgered y.shared := by
  induction h with
  | refl =>
      have hp : (Plane.init ifs routes rules proxy clz0 m).parkedCount = 0 :=
        Finset.sum_eq_zero fun i _ => congrArg List.length ((PendRep.init m).frames_eq i)
      refine ⟨fun t b hb => absurd hb (Finset.notMem_empty b), ?_, ?_⟩
      · exact Finset.sum_const_zero
      · change ∑ _t : Tid, 0 =
          ∑ _t : Tid, 0 + (Plane.init ifs routes rules proxy clz0 m).parkedCount
        rw [hp, Nat.add_zero]
  | @tail y z hy hs ih =>
      cases hs with
      | start t ht => exact ih
      | @exec t β c k e ht hc =>
          obtain ⟨rfl, ho, hp⟩ := calling_inOrder hy ht
          exact ih.exec e ho ((kept_of_reach hy _).needs ht).2 hp
      | finish t ht => exact ih
      | @admin s ha =>
          obtain ⟨s, g, v⟩ := s
          obtain ⟨ha, rfl, rfl⟩ := ha
          refine ⟨ih.frames, ih.dropped.trans ?_, ih.given.trans ?_⟩
          · dsimp only at ha ⊢
            cases ha <;> rfl
          · dsimp only at ha ⊢
            cases ha <;> rfl

/-- A thread between calls has nothing in its hands. -/
theorem idle_hands
    (h : Reach (calling.watched books.watch) counted
      ((Plane.init ifs routes rules proxy clz0 m).booked script) y) {t : Tid} {cs : List FwdCall}
    (ht : y.thread t = .idle cs) : y.shared.ghost t = [] := by
  obtain ⟨x, v, rfl, hx⟩ := Program.watched_run (fun _ t c e x _ => recvOk_false t c e x.shared) h
  have hrest := (calling_good (hx.mono fun _ _ _ _ _ _ => trivial)).2 t
  rw [Program.tag_eq_idle ht] at hrest
  exact hrest

/-- **Drop accounting is exact** between calls, in every run whose steps are all counted right: a step
that frees a chain of more than one frame counts one, and so is not.  `g_drop` is then the number of
frames that were given to `forward_task` and freed without a `pkt_send`. -/
theorem drops_exact
    (h : Reach (calling.watched books.watch) counted
      ((Plane.init ifs routes rules proxy clz0 m).booked script) y)
    (hq : ∀ t, (y.thread t).isIdle = true) : Accounted y.shared := by
  obtain ⟨hframes, hdropped, hgiven⟩ := ledgered_of_reach h
  have hidle : ∀ t, (y.shared.view t).frames.card = 0 ∧
      (y.shared.view t).dropped = (y.shared.view t).discarded := by
    intro t
    obtain ⟨cs, ht⟩ := Program.Thread.isIdle_iff.mp (hq t)
    have heven := kept_of_reach h t
    rw [ht] at heven
    refine ⟨Finset.card_eq_zero.mpr (Finset.eq_empty_of_forall_notMem fun b hb => ?_), heven.2⟩
    have hin := hframes t b hb
    rw [idle_hands h ht] at hin
    cases hin
  have hdrops : y.shared.shared.stats .drop = ∑ t, (y.shared.view t).discarded :=
    hdropped.symm.trans (Finset.sum_congr rfl fun t _ => (hidle t).2)
  have hspent : ∑ t, (y.shared.view t).spent =
      ∑ t, (y.shared.view t).attempted + ∑ t, (y.shared.view t).discarded := by
    rw [← Finset.sum_add_distrib]
    refine Finset.sum_congr rfl fun t _ => ?_
    rw [Account.spent, (hidle t).1, Nat.add_zero]
  exact ⟨hdrops, by rw [hgiven, hspent, hdrops]⟩

end Accounted

/-! ### A silent host -/

/-- The clock stands still, and every send succeeds. -/
def Env.calm : Env where
  clock := 0
  heap := none
  recv := none
  sent := true

/-- `n` datagrams for a host that does not answer, and ticks until they are given up. -/
def silentHost (n : ℕ) : Tid → List FwdCall
  | .worker ⟨0, _⟩ =>
      (List.replicate n [FwdCall.frame datagramFrame 34, .forwardTask]).flatten ++
        List.replicate (arpRetryMax + 1) .pendTick
  | _ => []

/-- The run, in `steps` steps. -/
def givenUp (n steps : ℕ) : Config (By Tid Cmd) Booked Tid Tid (List FwdCall) :=
  Program.play (calling.watched books.watch)
    (List.replicate steps (.worker ⟨0, poolThreads_pos⟩, .calm)) ((Plane.ports 2).booked (silentHost n))

/-- One datagram. -/
theorem drops_exact_one :
    (givenUp 1 69).shared.shared.stats .drop = 1 ∧ Accounted (givenUp 1 69).shared :=
  ⟨by decide +kernel, drops_exact (Program.PlayOk.reach (by decide +kernel)) (by decide +kernel)⟩

/-- **A chain counts as one frame.**  Two datagrams for the silent host are parked in one chain and
freed together by `pend_tick`, which counts each chain once: `g_drop` is 1. -/
theorem drops_undercounted :
    ¬ ∀ y, Reach (calling.watched books.watch) Program.anyStep
      ((Plane.ports 2).booked (silentHost 2)) y →
        (∀ t, (y.thread t).isIdle = true) → Accounted y.shared := by
  intro h
  have hd := (h (givenUp 2 94) (Program.play_reach (fun _ _ _ _ _ => trivial) _)
    (by decide +kernel)).drops
  revert hd
  decide +kernel

end LinuxRouter
