import LinuxRouter.Support.Minds
import LinuxRouter.Plane.Vetting

/-!
# Plane — the firewall is enforced

What `forward_send` passes to `pkt_send`, against what `fw_check` let pass, whatever the threads do
and however often the rules change.

* `Progress` is what a worker has done with its frame.  `round_heeds`: whoever clears a frame has
  judged it.
* `Enforced` and `Onward` are the invariants of the runs.
* `firewall_vets`: in every run, every forwarded frame passes the rules that were in force when a
  worker checked it.
* `forwards_once`: in every run, a received frame is forwarded at most once.

A worker's own history with its frame is a small state machine, `Progress`: the frame taken, its
bytes read, and let pass by `fw_check`.  That whoever clears a frame is at its last state is judged
on the program alone (`Heeds`), whatever the other threads do, and only `forward_task` moves it at
all.  The shared side is the cargo of `Vetting`, with which rules a frame was let pass by noted
beside it; the rules may change afterwards, and the note does not.  At the end stands
`shipped_of_ip`: whoever is about to send an IP frame is at the end of a `forward_send`, so that
nothing rests on the observer's mark alone.
-/

namespace LinuxRouter

open Program (Prog Config Reach Watched By Heeds)

/-! ### What a worker has done with its frame -/

/-- What a worker has done with its frame. -/
inductive Progress where
  | rest
  | taken (b : Block)
  | loaded (b : Block) (f : FwdFrame)
  | judged (b : Block) (f : FwdFrame)

/-- A worker takes a block, reads its frame, and has `fw_check` let the frame pass; whatever else it
does, but for a look at the interfaces and routes, ends that. -/
def Progress.observe : ∀ ⦃β : Type⦄, Cmd β → β → Progress → Progress
  | _, .tpoolTake, .task (some b), _ => .taken b
  | _, .load b', f, .taken b => if b' = b then .loaded b f else .rest
  | _, .fwCheck f len, a, .loaded b f' =>
      if f = f'.data ∧ len = f'.len ∧ a ≠ fwDrop then .judged b f' else .rest
  | _, .ifaces, _, p => p
  | _, .routeLookup _, _, p => p
  | _, _, _, _ => .rest

/-- The block that a command receives into. -/
def Cmd.receives {β : Type} : Cmd β → Option Block
  | .recvfrom b => some b
  | _ => none

/-- The block whose frame `fw_check` has just let pass. -/
def Progress.clears {β : Type} (c : Cmd β) (p : Progress) : Option Block :=
  match c, p with
  | .fwCheck _ _, .judged b _ => some b
  | _, _ => none

/-- What the threads have done with their frames, under which rules each frame has passed `fw_check`
since it was received, and whether it has left. -/
structure Inspection where
  seen : Tid → Progress
  passed : Block → Option (List FwRule)

/-- What the observer sees of it. -/
def inspect ⦃β : Type⦄ (t : Tid) (c : Cmd β) (s : Plane) (a : β) (v : Inspection) : Inspection where
  seen := Function.update v.seen t ((v.seen t).observe c a)
  passed b :=
    if c.receives = some b then none
    else if ((v.seen t).observe c a).clears c = some b then some s.rules
    else v.passed b

/-- Who writes the next hop into a frame's header has judged the frame. -/
def Progress.needs : ∀ ⦃β : Type⦄, Cmd β → Progress → Prop
  | _, .write b (.out _ _), p => ∃ f, p = .judged b f
  | _, _, _ => True

section Heeding

variable {α β : Type} {p : Progress} {b : Block}

/-- Commands that write no next hop. -/
def Cmd.aimless {β : Type} : Cmd β → Bool
  | .write _ (.out _ _) => false
  | _ => true

/-- A command that clears nothing may always come. -/
theorem needs_of_aimless {c : Cmd β} (h : c.aimless = true) (p : Progress) : Progress.needs c p := by
  cases c with
  | write b w =>
      cases w with
      | out i ip => cases h
      | _ => trivial
  | _ => trivial

theorem heeds_of_aimless {q : Act α} (h : q.Every fun _ c => c.aimless = true) (p : Progress) :
    Heeds Progress.observe Progress.needs (fun _ _ => True) q p :=
  Heeds.of_every (P := fun _ => True)
    (h.mono fun _ _ hc p _ => ⟨needs_of_aimless hc p, fun _ => trivial⟩) trivial

theorem drop_aimless (c : Counter) (b : Block) : (drop c b).Every fun _ c => c.aimless = true :=
  ⟨rfl, fun _ => ⟨rfl, fun _ => ⟨rfl, fun _ => trivial⟩⟩⟩

theorem forwardSend_aimless (b : Block) (mac : Mac) :
    (forwardSend b mac).Every fun _ c => c.aimless = true := by
  refine Prog.every_step rfl fun _ => Prog.every_step rfl fun f => Prog.every_step rfl fun ifs => ?_
  split
  · exact Prog.every_last rfl
  · exact Prog.every_step rfl fun _ => Prog.every_step rfl fun _ => Prog.every_step rfl fun _ =>
      Prog.every_last rfl

/-- Nor does a chain of them. -/
theorem sendChain_aimless (mac : Mac) (n : ℕ) (h : Option Block) :
    (sendChain mac n h).Every fun _ c => c.aimless = true := by
  induction n generalizing h with
  | zero => cases h <;> trivial
  | succ n ih =>
      cases h with
      | none => trivial
      | some b =>
          exact Prog.every_step rfl fun f => (forwardSend_aimless b mac).bind fun _ => ih _

theorem forwardFlushPending_aimless (k : Key) :
    (forwardFlushPending k).Every fun _ c => c.aimless = true := by
  refine Prog.every_step rfl fun mac => ?_
  cases mac with
  | none => trivial
  | some mac =>
      refine Prog.every_step rfl fun chain => ?_
      cases chain with
      | none => trivial
      | some chain => exact sendChain_aimless mac _ chain

theorem arpRequest_aimless (k : Key) : (arpRequest k).Every fun _ c => c.aimless = true := by
  refine Prog.every_step rfl fun ifs => ?_
  split
  · trivial
  · refine Prog.every_step rfl fun blk => ?_
    split
    · trivial
    · exact Prog.every_step rfl fun _ => Prog.every_step rfl fun _ => Prog.every_step rfl fun _ =>
        Prog.every_step rfl fun _ => Prog.every_step rfl fun _ => Prog.every_step rfl fun _ =>
        Prog.every_last rfl

theorem arpAnswer_aimless (b : Block) (i : CInt) (spa tpa : Ip) :
    (arpAnswer b i spa tpa).Every fun _ c => c.aimless = true := by
  refine (arpOurs_every rfl rfl (fun _ => rfl) tpa).bind fun it => ?_
  cases it with
  | none => exact Prog.every_last rfl
  | some it =>
      refine Prog.Every.bind ?_ fun _ =>
        (forwardFlushPending_aimless _).bind fun _ => Prog.every_last rfl
      exact Prog.every_step rfl fun _ => Prog.every_step rfl fun _ => Prog.every_step rfl fun _ =>
        Prog.every_last rfl

theorem arpHandleFrame_aimless (b : Block) (i : CInt) :
    (arpHandleFrame b i).Every fun _ c => c.aimless = true := by
  refine Prog.every_step rfl fun f => ?_
  dsimp only
  split
  · exact drop_aimless _ _
  · refine Prog.every_step rfl fun ifs => ?_
    split
    · refine Prog.every_step rfl fun _ => ?_
      split
      · exact Prog.every_last rfl
      · exact arpAnswer_aimless b i _ _
    · split
      · exact Prog.every_last rfl
      · exact arpAnswer_aimless b i _ _

/-- Nor does the reception of a frame. -/
theorem rxFrame_aimless (b : Block) (r : Rx) : (rxFrame b r).Every fun _ c => c.aimless = true := by
  refine Prog.every_step rfl fun _ => Prog.every_step rfl fun _ => Prog.every_step rfl fun ifs => ?_
  split
  · exact drop_aimless _ _
  · split
    · exact drop_aimless _ _
    · refine Prog.every_step rfl fun f => ?_
      dsimp only
      split
      · exact arpHandleFrame_aimless b _
      · split
        · refine Prog.every_step rfl fun ok => ?_
          split
          · trivial
          · exact Prog.every_step rfl fun _ => Prog.every_last rfl
        · exact Prog.every_step rfl fun _ => Prog.every_last rfl

theorem rxRound_aimless : rxRound.Every fun _ c => c.aimless = true := by
  refine Prog.every_step rfl fun stop => ?_
  split
  · trivial
  · refine Prog.every_step rfl fun blk => ?_
    split
    · trivial
    · refine Prog.every_step rfl fun r => ?_
      split
      · exact Prog.every_step rfl fun _ => trivial
      · exact (rxFrame_aimless _ _).bind fun _ => trivial

theorem retryKeys_aimless (ks : List Key) : (retryKeys ks).Every fun _ c => c.aimless = true := by
  induction ks with
  | nil => trivial
  | cons k ks ih =>
      exact (arpRequest_aimless k).bind fun _ => (forwardFlushPending_aimless k).bind fun _ => ih

theorem timerRound_aimless : timerRound.Every fun _ c => c.aimless = true := by
  refine Prog.every_step rfl fun stop => ?_
  split
  · trivial
  · refine Prog.every_step rfl fun stop => ?_
    split
    · trivial
    · refine Prog.every_step rfl fun _ => Prog.Every.bind ?_ fun _ => trivial
      exact Prog.every_step rfl fun w => (countExpired_every (fun _ => rfl) _).bind fun _ =>
        retryKeys_aimless _

theorem pendEnqueueFrame_aimless (k : Key) (b : Block) :
    (pendEnqueueFrame k b).Every fun _ c => c.aimless = true := by
  refine Prog.every_step rfl fun a => ?_
  cases a with
  | joined => trivial
  | created ev =>
      cases ev with
      | none => trivial
      | some ev => exact Prog.every_step rfl fun _ => Prog.every_last rfl
  | full => exact drop_aimless _ _
  | noSlot => exact drop_aimless _ _

/-- Steps 5 and 6 of `forward_task`, for a frame that has been judged. -/
theorem forwardTo_heeds {f : FwdFrame} (k : Key) :
    Heeds Progress.observe Progress.needs (fun _ _ => True) (forwardTo b f.data k)
      (.judged b f) := by
  unfold forwardTo
  split
  · exact heeds_of_aimless (drop_aimless _ _) _
  · refine Program.heeds_step ⟨f, rfl⟩ fun _ => heeds_of_aimless ?_ _
    refine Prog.every_step rfl fun mac => ?_
    cases mac with
    | some mac => exact forwardSend_aimless b mac
    | none => exact (pendEnqueueFrame_aimless k b).bind fun _ => arpRequest_aimless k

/-- **`forward_task`** clears a frame only after `fw_check` has let it pass. -/
theorem forwardTask_heeds :
    Heeds Progress.observe Progress.needs (fun _ _ => True) (forwardTask b) (.taken b) := by
  refine Program.heeds_step trivial fun f => ?_
  rw [show Progress.observe (.load b) f (.taken b) = .loaded b f from if_pos rfl]
  dsimp only
  split
  · exact heeds_of_aimless (drop_aimless _ _) _
  · refine Program.heeds_step trivial fun a => ?_
    by_cases ha : a = fwDrop
    · rw [if_pos ha]
      exact heeds_of_aimless (drop_aimless _ _) _
    · rw [if_neg ha, show Progress.observe (.fwCheck f.data f.len) a (.loaded b f) = .judged b f from
        if_pos ⟨rfl, rfl, ha⟩]
      refine Program.heeds_step trivial fun ifs => ?_
      split
      · exact heeds_of_aimless (Prog.every_step rfl fun _ => Prog.every_last rfl) _
      · refine Program.heeds_step trivial fun ifs => ?_
        cases ifs.find? (·.covers (getBe32 f.data 30)) with
        | some it => exact forwardTo_heeds _
        | none =>
            refine Program.heeds_step trivial fun rt => ?_
            cases rt with
            | none => exact heeds_of_aimless (drop_aimless _ _) _
            | some rt => exact forwardTo_heeds _

/-- **Every round clears only frames that it has judged.** -/
theorem round_heeds (t : Tid) (l : Unit) (p : Progress) :
    Heeds Progress.observe Progress.needs (fun _ _ => True) (round t l) p := by
  cases t with
  | rx => exact heeds_of_aimless rxRound_aimless p
  | timer => exact heeds_of_aimless timerRound_aimless p
  | worker i =>
      refine Program.heeds_step trivial fun a => ?_
      rcases a with _ | _ | _ | b
      · trivial
      · trivial
      · trivial
      · exact Heeds.bind (forwardTask_heeds.mono fun _ _ _ => trivial)

end Heeding

/-! ### What every command keeps -/

/-- The blocks whose frames have left since they were received. -/
def depart ⦃β : Type⦄ (c : Cmd β) (l : Shipment) (gone : Block → Bool) : Block → Bool := fun b =>
  if c.receives = some b then false
  else match c with
    | .pktSend _ _ => gone b || decide (l.wrote = some b)
    | _ => gone b

/-- What is watched: the frames on their way, what the threads have done with them, and which have
left. -/
structure Gate where
  log : Log Shipment Docket
  inspection : Inspection
  gone : Block → Bool

/-- What the threads have done with their frames. -/
def Gate.progress (v : Gate) : Tid → Progress := v.inspection.seen

/-- What is kept of a run: what was checked, and how far each frame has got. -/
def guard ⦃β : Type⦄ (t : Tid) (c : Cmd β) (s : Plane) (a : β) (v : Gate) : Gate where
  log := vetting.watch t c s a v.log
  inspection := inspect t c s a v.inspection
  gone := depart c (v.log.mind t) v.gone

abbrev Inspected := Watched Plane (List Block) Tid Gate

/-- The frame in the block has passed `fw_check` since it was received. -/
def PassedCheck (x : Inspected) (b : Block) : Prop :=
  ∃ rules f, x.view.inspection.passed b = some rules ∧ Holds f (x.view.log.note b).bytes ∧
    fwCheck rules f.data f.len ≠ fwDrop

/-- The progress that the thread `u` has made is real. -/
def Progress.Stands (x : Inspected) (u : Tid) : Progress → Prop
  | .rest => True
  | .taken b => b ∈ x.ghost u ∧ Holds (x.shared.mem b) (x.view.log.note b).bytes
  | .loaded b f => b ∈ x.ghost u ∧ Holds f (x.view.log.note b).bytes
  | .judged b _ => b ∈ x.ghost u ∧ PassedCheck x b

/-- **The invariant**: what is cleared was let pass. -/
structure Enforced (x : Inspected) : Prop where
  stands : ∀ u, (x.view.inspection.seen u).Stands x u
  passed : ∀ b, (x.view.log.note b).leg = .cleared ∨ (x.view.log.note b).leg = .sent →
    PassedCheck x b

/-- The frame is no longer on its way. -/
def Leg.over : Leg → Bool
  | .sent => true
  | .other => true
  | _ => false

/-- No frame has left that is still on its way, and who has rewritten a frame has it in hand. -/
structure Onward (x : Inspected) : Prop where
  here : ∀ b, (x.view.log.note b).leg.over = false → x.view.gone b = false
  wrote : ∀ u b, (x.view.log.mind u).wrote = some b → b ∈ x.ghost u ∧
    (x.view.log.note b).leg.over = true ∧
      ((x.view.log.note b).leg = .sent → x.view.gone b = false)

section Step

variable {β : Type} {x x' : Inspected} {t u : Tid} {c : Cmd β} {e : Env} {b : Block} {p : Progress}

/-- Who receives into a block has it in hand. -/
theorem touches_of_receives (h : c.receives = some b) : c.touches = some b := by
  cases c <;> first | exact h | cases h

/-- A block is noted anew only where it is filled. -/
theorem guard_note (h : c.touches ≠ some b) :
    (Watched.exec dataPlane guard t c e x).2.view.log.note b = x.view.log.note b :=
  if_neg fun h' => h (Cargo.touches_of_fills h')

/-- Only a reception changes what is noted as received. -/
theorem guard_bytes (h : c.receives ≠ some b) :
    ((Watched.exec dataPlane guard t c e x).2.view.log.note b).bytes = (x.view.log.note b).bytes := by
  by_cases hf : c.fills = some b
  · have hn : (Watched.exec dataPlane guard t c e x).2.view.log.note b =
        vetting.note c (exec c e x.shared).1 (x.view.log.note b) := if_pos hf
    rw [hn]
    cases c with
    | write b' w => rfl
    | recvfrom b' => exact absurd hf h
    | _ => cases hf
  · have hn : (Watched.exec dataPlane guard t c e x).2.view.log.note b = x.view.log.note b :=
      if_neg hf
    rw [hn]

/-- The command that clears a frame is a `fw_check` that does not answer DROP, of the frame its
thread has read. -/
theorem loaded_of_clears {a : β} (h : (p.observe c a).clears c = some b) (s : Plane)
    (ha : a = (exec c e s).1) :
    ∃ f, p = .loaded b f ∧ fwCheck s.rules f.data f.len ≠ fwDrop := by
  cases c with
  | fwCheck f len =>
      cases p with
      | loaded b' f' =>
          simp only [Progress.observe] at h
          split at h
          · rename_i hc
            obtain ⟨rfl, rfl, hne⟩ := hc
            obtain rfl := Option.some.inj h
            exact ⟨f', rfl, fun h => hne (ha.trans h)⟩
          · cases h
      | _ => cases h
  | _ =>
      simp only [Progress.clears] at h
      cases h

/-- What is noted of a frame that is cleared. -/
theorem guard_clears (hc : c.receives ≠ some b)
    (hcl : ((x.view.inspection.seen t).observe c (exec c e x.shared).1).clears c = some b) :
    (Watched.exec dataPlane guard t c e x).2.view.inspection.passed b = some x.shared.rules :=
  (if_neg hc).trans (if_pos hcl)

/-- A frame that has passed has passed until the next is received. -/
theorem PassedCheck.exec (h : PassedCheck x b) (hx : Enforced x) (hc : c.receives ≠ some b) :
    PassedCheck (Watched.exec dataPlane guard t c e x).2 b := by
  have hb := guard_bytes (t := t) (e := e) (x := x) hc
  by_cases hcl : ((x.view.inspection.seen t).observe c (LinuxRouter.exec c e x.shared).1).clears c = some b
  · obtain ⟨f, hp, hf⟩ := loaded_of_clears (e := e) hcl x.shared rfl
    have hst := hx.stands t
    rw [hp] at hst
    exact ⟨x.shared.rules, f, guard_clears hc hcl, hb ▸ hst.2, hf⟩
  · obtain ⟨rules, f, hp, hf⟩ := h
    exact ⟨rules, f, ((if_neg hc).trans (if_neg hcl)).trans hp, hb ▸ hf⟩

/-- Nobody touches what another thread has in hand. -/
theorem touches_ne (ho : PlaneInv x.shared x.ghost) (hp : pre t c (x.ghost t) x.shared) (hu : u ≠ t)
    (hb : b ∈ x.ghost u) : c.touches ≠ some b := by
  intro hc
  obtain ⟨owner, order, chains, tasks, ho⟩ := ho
  have := (ho.mem_thread.mp hb).symm.trans (ho.mem_thread.mp (mem_of_touches hp hc))
  exact hu (Place.thread.inj this)

/-- What a worker has done stands as long as its frame is left alone. -/
theorem Progress.Stands.kept (h : p.Stands x u) (hk : ∀ b ∈ x.ghost u, b ∈ x'.ghost u ∧
      x'.view.log.note b = x.view.log.note b ∧ x'.shared.mem b = x.shared.mem b ∧
      (PassedCheck x b → PassedCheck x' b)) : p.Stands x' u := by
  cases p with
  | rest => trivial
  | taken b =>
      obtain ⟨hg, hn, hm, -⟩ := hk b h.1
      refine ⟨hg, ?_⟩
      rw [hn, hm]
      exact h.2
  | loaded b f =>
      obtain ⟨hg, hn, -, -⟩ := hk b h.1
      exact ⟨hg, hn ▸ h.2⟩
  | judged b f =>
      obtain ⟨hg, -, -, hp⟩ := hk b h.1
      exact ⟨hg, hp h.2⟩

/-- Who takes a block finds in it what was received. -/
theorem stands_taken (ho : PlaneInv x.shared x.ghost)
    (hs : vetting.Stowed (x.review Gate.log)) (ha : (tpoolTake x.shared.queue).1 = .task (some b)) :
    (Progress.taken b).Stands (Watched.exec dataPlane guard t .tpoolTake e x).2 t := by
  have hg : (Watched.exec dataPlane guard t .tpoolTake e x).2.ghost t =
      hold .tpoolTake x.shared (tpoolTake x.shared.queue).1 (x.ghost t) := Function.update_self _ _ _
  refine ⟨?_, ?_⟩
  · rw [hg, ha]
    exact List.mem_cons_self
  · have hq : some b ∈ x.shared.queue.tasks := by
      obtain ⟨owner, order, chains, tasks, ho⟩ := ho
      rcases ho.queue.take with ⟨-, hne⟩ | ⟨b', bs, rfl, hb', -⟩
      · exact absurd ha (hne _)
      · obtain rfl : b' = b := by simpa using hb'.symm.trans ha
        simp [ho.queue.tasks]
    have hn : (Watched.exec dataPlane guard t .tpoolTake e x).2.view.log.note b =
        x.view.log.note b := guard_note fun h => by cases h
    rw [hn]
    exact (hs.queued b hq).2

/-- What a thread has in hand, a command that touches no block leaves as it is. -/
theorem Enforced.stands_kept (h : Enforced x) (ho : PlaneInv x.shared x.ghost)
    (hc : c.touches = none) : (x.view.inspection.seen t).Stands
      (Watched.exec dataPlane guard t c e x).2 t := by
  have hg : (Watched.exec dataPlane guard t c e x).2.ghost t =
      hold c x.shared (LinuxRouter.exec c e x.shared).1 (x.ghost t) := Function.update_self _ _ _
  obtain ⟨owner, order, chains, tasks, ho⟩ := ho
  refine (h.stands t).kept fun b hb => ?_
  have hne : c.touches ≠ some b := by simp [hc]
  exact ⟨hg ▸ mem_hold hb hne _ _, guard_note hne, ho.exec_mem e hne (ho.owner_ne_free hb),
    fun h' => h'.exec h fun hr => hne (touches_of_receives hr)⟩

/-- Who has a frame judged has had it pass. -/
theorem Enforced.stands_judged (h : Enforced x) (ho : PlaneInv x.shared x.ghost) {f : List Byte}
    {len : ℕ} : ((x.view.inspection.seen t).observe (.fwCheck f len)
      (exec (.fwCheck f len) e x.shared).1).Stands
        (Watched.exec dataPlane guard t (.fwCheck f len) e x).2 t := by
  have hk := h.stands_kept (t := t) (c := .fwCheck f len) (e := e) ho rfl
  cases hp : x.view.inspection.seen t with
  | loaded b f' =>
      rw [hp] at hk
      simp only [Progress.observe]
      split
      · rename_i hj
        have hcl : ((x.view.inspection.seen t).observe (.fwCheck f len)
            (exec (.fwCheck f len) e x.shared).1).clears (.fwCheck f len) = some b := by
          rw [hp]
          simp only [Progress.observe, if_pos hj]
          rfl
        obtain ⟨g, hg, hd⟩ := loaded_of_clears (e := e) hcl x.shared rfl
        rw [hp] at hg
        cases hg
        have hnr : (Cmd.fwCheck f len).receives ≠ some b := fun h => by cases h
        exact ⟨hk.1, x.shared.rules, f', guard_clears hnr hcl, hk.2, hd⟩
      · trivial
  | _ => trivial

/-- The progress of the thread that runs the command. -/
theorem Enforced.stands_self (h : Enforced x) (ho : PlaneInv x.shared x.ghost)
    (hs : vetting.Stowed (x.review Gate.log)) :
    ((x.view.inspection.seen t).observe c (exec c e x.shared).1).Stands
      (Watched.exec dataPlane guard t c e x).2 t := by
  cases c with
  | tpoolTake =>
      generalize ha : (exec .tpoolTake e x.shared).1 = a
      rcases a with _ | _ | _ | b
      · trivial
      · trivial
      · trivial
      · exact stands_taken ho hs ha
  | load b' =>
      have hk := h.stands_kept (t := t) (c := .load b') (e := e) ho rfl
      cases hp : x.view.inspection.seen t with
      | taken b =>
          rw [hp] at hk
          simp only [Progress.observe]
          split
          · rename_i e'
            subst e'
            exact hk
          · trivial
      | _ => trivial
  | fwCheck f len => exact h.stands_judged ho
  | ifaces => exact h.stands_kept ho rfl
  | routeLookup d => exact h.stands_kept ho rfl
  | _ => trivial

/-- A frame that a command leaves cleared has passed. -/
theorem Enforced.passed_fills (h : Enforced x) (hn : Progress.needs c (x.view.inspection.seen t))
    (hf : c.fills = some b)
    (hb : (vetting.note c (exec c e x.shared).1 (x.view.log.note b)).leg = .cleared ∨
      (vetting.note c (exec c e x.shared).1 (x.view.log.note b)).leg = .sent) :
    PassedCheck (Watched.exec dataPlane guard t c e x).2 b := by
  cases c with
  | recvfrom b' =>
      generalize (exec (.recvfrom b') e x.shared).1 = a at hb
      cases a <;> rcases hb with hb | hb <;> cases hb
  | write b' w =>
      obtain rfl := Option.some.inj hf
      have hb : (x.view.log.note b').leg.after w = .cleared ∨
          (x.view.log.note b').leg.after w = .sent := hb
      have hnr : (Cmd.write b' w).receives ≠ some b' := fun h => by cases h
      cases w with
      | len n => cases hl : (x.view.log.note b').leg <;> simp [hl, Leg.after] at hb
      | data d =>
          -- it had been cleared
          refine (h.passed b' (.inl ?_)).exec h hnr
          cases hl : (x.view.log.note b').leg <;> simp [hl, Leg.after] at hb ⊢
      | out i ip =>
          obtain ⟨f, hf⟩ := hn
          have hst := h.stands t
          rw [hf] at hst
          exact hst.2.exec h hnr
  | _ => cases hf

/-- **Every command keeps what is known of the frames that have been judged**, if whoever clears a
frame has judged it. -/
theorem Enforced.exec (h : Enforced x) (ho : PlaneInv x.shared x.ghost)
    (hp : pre t c (x.ghost t) x.shared) (hs : vetting.Stowed (x.review Gate.log))
    (hn : Progress.needs c (x.view.inspection.seen t)) :
    Enforced (Watched.exec dataPlane guard t c e x).2 := by
  refine ⟨fun u => ?_, fun b hb => ?_⟩
  · by_cases hu : u = t
    · subst hu
      have hself : (Watched.exec dataPlane guard u c e x).2.view.inspection.seen u =
          (x.view.inspection.seen u).observe c (LinuxRouter.exec c e x.shared).1 :=
        Function.update_self _ _ _
      rw [hself]
      exact h.stands_self ho hs
    · have hsu : (Watched.exec dataPlane guard t c e x).2.view.inspection.seen u =
          x.view.inspection.seen u := Function.update_of_ne hu _ _
      have hgu : (Watched.exec dataPlane guard t c e x).2.ghost u = x.ghost u :=
        Function.update_of_ne hu _ _
      rw [hsu]
      refine (h.stands u).kept fun b hb => ?_
      have hne := touches_ne ho hp hu hb
      exact ⟨hgu ▸ hb, guard_note hne, ho.exec_mem e hp hu hb,
        fun h' => h'.exec h fun hr => hne (touches_of_receives hr)⟩
  · by_cases hf : c.fills = some b
    · have hnote : (Watched.exec dataPlane guard t c e x).2.view.log.note b =
          vetting.note c (LinuxRouter.exec c e x.shared).1 (x.view.log.note b) := if_pos hf
      exact h.passed_fills hn hf (hnote ▸ hb)
    · have hnote : (Watched.exec dataPlane guard t c e x).2.view.log.note b = x.view.log.note b :=
        if_neg hf
      rw [hnote] at hb
      refine (h.passed b hb).exec h fun hr => hf ?_
      cases c <;> first | exact hr | cases hr

/-- What leaves is what its thread has just rewritten. -/
theorem gone_exec (hr : c.receives ≠ some b) (hw : (x.view.log.mind t).wrote ≠ some b) :
    (Watched.exec dataPlane guard t c e x).2.view.gone b = x.view.gone b := by
  refine (if_neg hr).trans ?_
  cases c with
  | pktSend g i => simp [hw]
  | _ => rfl

/-- **Every command keeps the frames on their way.** -/
theorem Onward.exec (h : Onward x) (ho : PlaneInv x.shared x.ghost)
    (hp : pre t c (x.ghost t) x.shared) : Onward (Watched.exec dataPlane guard t c e x).2 := by
  have hself : (Watched.exec dataPlane guard t c e x).2.view.log.mind t =
      vetting.mind c (LinuxRouter.exec c e x.shared).1 (x.view.log.mind t) :=
    Function.update_self _ _ _
  constructor
  · intro b hb
    by_cases hr : c.receives = some b
    · exact if_pos hr
    · by_cases hf : c.fills = some b
      · have hnote : (Watched.exec dataPlane guard t c e x).2.view.log.note b =
            vetting.note c (LinuxRouter.exec c e x.shared).1 (x.view.log.note b) := if_pos hf
        rw [hnote] at hb
        cases c with
        | recvfrom b' => exact absurd hf hr
        | write b' w =>
            obtain rfl := Option.some.inj hf
            have hb : ((x.view.log.note b').leg.after w).over = false := hb
            have hgone : (Watched.exec dataPlane guard t (.write b' w) e x).2.view.gone b' =
                x.view.gone b' := by simp [Watched.exec, guard, depart, hr]
            rw [hgone]
            refine h.here b' ?_
            cases w <;> cases hl : (x.view.log.note b').leg <;>
              simp [hl, Leg.after, Leg.over] at hb ⊢
        | _ => cases hf
      · have hnote : (Watched.exec dataPlane guard t c e x).2.view.log.note b = x.view.log.note b :=
          if_neg hf
        rw [hnote] at hb
        refine (gone_exec hr fun hw => ?_).trans (h.here b hb)
        rw [(h.wrote t b hw).2.1] at hb
        cases hb
  · intro u b hu
    by_cases hut : u = t
    · subst hut
      rw [hself] at hu
      cases c with
      | write b' w =>
          cases w with
          | data d =>
              obtain rfl := Option.some.inj hu
              have hnote : ((Watched.exec dataPlane guard u (.write b' (.data d)) e x).2.view.log.note
                  b').leg = (x.view.log.note b').leg.after (.data d) :=
                congrArg Docket.leg (if_pos rfl)
              have hg : (Watched.exec dataPlane guard u (.write b' (.data d)) e x).2.ghost u =
                  x.ghost u := Function.update_self _ _ _
              rw [hnote, hg]
              refine ⟨hp, ?_, fun hs => h.here b' ?_⟩
              · cases (x.view.log.note b').leg <;> rfl
              · cases hl : (x.view.log.note b').leg <;> simp [hl, Leg.after, Leg.over] at hs ⊢
          | _ => cases hu
      | mark ev => cases ev <;> cases hu
      | _ => cases hu
    · have hm : (Watched.exec dataPlane guard t c e x).2.view.log.mind u = x.view.log.mind u :=
        Function.update_of_ne hut _ _
      have hgu : (Watched.exec dataPlane guard t c e x).2.ghost u = x.ghost u :=
        Function.update_of_ne hut _ _
      rw [hm] at hu
      obtain ⟨hg, hl, hs⟩ := h.wrote u b hu
      have hne := touches_ne ho hp hut hg
      have hgone : (Watched.exec dataPlane guard t c e x).2.view.gone b = x.view.gone b := by
        refine gone_exec (fun hr => hne (touches_of_receives hr)) fun hw => hut ?_
        -- two threads with one block in hand
        obtain ⟨owner, order, chains, tasks, ho⟩ := ho
        exact Place.thread.inj ((ho.mem_thread.mp hg).symm.trans
          (ho.mem_thread.mp (h.wrote t b hw).1))
      rw [hgu, guard_note hne, hgone]
      exact ⟨hg, hl, hs⟩

end Step

/-! ### Runs -/

/-- Nothing sent, nothing received. -/
def Gate.start : Gate where
  log := { mind := fun _ => ⟨none, none⟩, note := fun _ => ⟨[], .other⟩ }
  inspection := { seen := fun _ => .rest, passed := fun _ => none }
  gone := fun _ => false

/-- Every frame that a thread in `forward_send` passes to `pkt_send` passes the rules that were in
force when a worker checked it, since it was received. -/
def SendsVetted (y : Config (By Tid Cmd) Inspected Tid Tid Unit) : Prop :=
  ∀ t b mac, (y.shared.view.log.mind t).frame = some (b, mac) →
    ∀ g i, sendsNext (y.thread t) = some (g, i) →
      ∃ rules, y.shared.view.inspection.passed b = some rules ∧ fwCheck rules g g.length ≠ fwDrop

/-- No frame that a thread in `forward_send` passes to `pkt_send` has left since it was received. -/
def SendsOnce (y : Config (By Tid Cmd) Inspected Tid Tid Unit) : Prop :=
  ∀ t b mac, (y.shared.view.log.mind t).frame = some (b, mac) →
    ∀ g i, sendsNext (y.thread t) = some (g, i) → y.shared.view.gone b = false

section Runs

variable {ifs : Ifaces} {routes : List Route} {rules : List FwRule} {proxy : Bool} {clz0 : CInt}
  {m : Mem} {y : Config (By Tid Cmd) Inspected Tid Tid Unit}

/-- A run seen by the cargo's observer. -/
theorem vetting_reach (h : Reach (dataPlane.watched guard) Program.anyStep
    ((Plane.init ifs routes rules proxy clz0 m).start.shadow .start) y) :
    Reach (dataPlane.watched vetting.watch) Program.anyStep
      ((Plane.init ifs routes rules proxy clz0 m).start.shadow Gate.start.log) (y.review Gate.log) :=
  Program.watched_review (f := Gate.log) (by intros; rfl) (by intros; trivial) h

/-- **Every run** enforces the rules. -/
theorem enforced_of_reach (h : Reach (dataPlane.watched guard) Program.anyStep
    ((Plane.init ifs routes rules proxy clz0 m).start.shadow .start) y) :
    Enforced y.shared ∧ Onward y.shared := by
  induction h with
  | refl =>
      refine ⟨⟨fun u => trivial, fun b hb => ?_⟩, ⟨fun b _ => rfl, fun u b hb => ?_⟩⟩
      · rcases hb with hb | hb <;> cases hb
      · cases hb
  | @tail y z hy hs ih =>
      obtain ⟨he, hw⟩ := ih
      cases hs with
      | start t ht => exact ⟨he, hw⟩
      | @exec t β c k e ht _ =>
          obtain ⟨ho, hp⟩ := watched_inOrder hy ht
          have hbody : ∀ t l p, True → Program.Heeds Progress.observe Progress.needs
              (fun r _ => ∀ l, r = some l → True) (dataPlane.body t l) p := fun t l p _ =>
            (round_heeds t l p).mono fun _ _ _ _ _ => trivial
          have hseen : ∀ ⦃β : Type⦄ t (c : Cmd β) s a v, Gate.progress (guard t c s a v) =
              Function.update (Gate.progress v) t (Progress.observe c a (Gate.progress v t)) :=
            fun _ _ _ _ _ _ => rfl
          have hn : Progress.needs c.cmd (Gate.progress y.shared.view t) :=
            Program.heeds_sound hseen hbody (fun t => ⟨(), rfl, trivial⟩) hy ht
          have hst := vetting_carried.stowed_of_reach (v := Gate.start.log) (fun _ => rfl)
            (vetting_reach hy)
          obtain ⟨x, v, rfl, -⟩ :=
            Program.watched_run (fun _ t c e x _ => recvOk_false t c e x.shared) hy
          obtain ⟨c, k, -, rfl, rfl⟩ := Program.tag_eq_cmd ht
          exact ⟨he.exec ho hp hst hn, hw.exec ho hp⟩
      | finish t ht => exact ⟨he, hw⟩
      | @admin s ha =>
          obtain ⟨ha, hg, hv⟩ := ha
          have hm : s.shared.mem = y.shared.shared.mem := ((watched_inv hy).admin ha).2
          have hp : ∀ b, PassedCheck y.shared b → PassedCheck s b := fun b h => by
            rwa [PassedCheck, hv]
          refine ⟨⟨fun u => ?_, fun b hb => ?_⟩, ⟨fun b hb => ?_, fun u b hb => ?_⟩⟩
          · have hst : (s.view.inspection.seen u).Stands y.shared u := hv ▸ he.stands u
            exact hst.kept fun b hb => ⟨hg ▸ hb, by rw [hv], by rw [hm], hp b⟩
          · exact hp b (he.passed b (hv ▸ hb))
          · have hb : (y.shared.view.log.note b).leg.over = false := hv ▸ hb
            exact hv ▸ hw.here b hb
          · have hb : (y.shared.view.log.mind u).wrote = some b := hv ▸ hb
            exact hv ▸ hg ▸ hw.wrote u b hb

/-- **Whoever transmits an IP frame is in `forward_send`**, and has marked it. -/
theorem shipped_of_ip (h : Reach (dataPlane.watched guard) Program.anyStep
      ((Plane.init ifs routes rules proxy clz0 m).start.shadow .start) y) {t : Tid} {g : List Byte}
    {i : CInt} (hg : sendsNext (y.thread t) = some (g, i)) (hip : getBe16 g 12 = etherTypeIp) :
    ∃ b mac, (y.shared.view.log.mind t).frame = some (b, mac) := by
  cases hm : (y.shared.view.log.mind t).frame with
  | none =>
      have harp := vetting_carried.idle_sends (v := Gate.start.log) (fun _ => rfl) (vetting_reach h) hg hm
      exact absurd (hip.symm.trans harp) (by decide)
  | some x => exact ⟨x.1, x.2, rfl⟩

/-- What a thread in `forward_send` ensures before its `pkt_send`. -/
theorem vetted_send (h : Reach (dataPlane.watched guard) Program.anyStep
      ((Plane.init ifs routes rules proxy clz0 m).start.shadow .start) y) {t : Tid} {b : Block}
    {mac : Mac} (hs : (y.shared.view.log.mind t).frame = some (b, mac)) {g : List Byte} {i : CInt}
    (hg : sendsNext (y.thread t) = some (g, i)) :
    (y.shared.view.log.mind t).wrote = some b ∧ (y.shared.view.log.note b).leg = .sent ∧
      g.length = (y.shared.view.log.note b).bytes.length ∧
        Rerouted (y.shared.view.log.note b).bytes g g.length := by
  obtain ⟨u, k, ht⟩ := sendsNext_eq_some hg
  have hpre := vetting_carried.pre_of_reach (v := Gate.start.log) (fun _ => rfl) (vetting_reach h) ht
  exact hpre.2 b mac hs

/-- **The firewall is enforced.**  In every run, whatever the threads interleave and however often the
rules change: every frame that is forwarded passes the rules that were in force when a worker checked
it, after it was received. -/
theorem firewall_vets (h : Reach (dataPlane.watched guard) Program.anyStep
    ((Plane.init ifs routes rules proxy clz0 m).start.shadow .start) y) : SendsVetted y := by
  intro t b mac hs g i hg
  obtain ⟨-, hleg, hlen, hr⟩ := vetted_send h hs hg
  obtain ⟨rules', f, hp, hh, hd⟩ := (enforced_of_reach h).1.passed b (.inr hleg)
  refine ⟨rules', hp, ?_⟩
  -- the frame that was checked is the one received, with other bytes behind it
  obtain ⟨hl, rest, hf⟩ := hh
  have hfr : Rerouted f.data g g.length := by
    rw [← hf]
    refine ⟨⟨by simp [hlen], le_refl _⟩, fun i h₁₂ hi h₂₂ h₂₄ h₂₅ => ?_⟩
    rw [hr.same i h₁₂ hi h₂₂ h₂₄ h₂₅, byteAt_append (hlen ▸ hi)]
  rw [hfr.fwCheck_eq, hlen, ← hl]
  exact hd

/-- **No frame is forwarded twice.**  In every run, a frame that is passed to `pkt_send` has not been
passed there since it was received. -/
theorem forwards_once (h : Reach (dataPlane.watched guard) Program.anyStep
    ((Plane.init ifs routes rules proxy clz0 m).start.shadow .start) y) : SendsOnce y := by
  intro t b mac hs g i hg
  obtain ⟨hw, hleg, -⟩ := vetted_send h hs hg
  exact ((enforced_of_reach h).2.wrote t b hw).2.2 hleg

end Runs

/-- A datagram is forwarded up to its `pkt_send`. -/
def vetted : Config (By Tid Cmd) Inspected Tid Tid Unit :=
  Program.play (dataPlane.watched guard) (forwards 2) ((Plane.ports 2).start.shadow .start)

/-- A frame between two ports, checked and about to be sent. -/
theorem firewall_vets_ports :
    (sendsNext (vetted.thread (.worker ⟨0, by decide⟩))).isSome = true ∧ SendsVetted vetted :=
  ⟨by decide +kernel, firewall_vets (Program.play_reach (fun _ _ _ _ _ => trivial) _)⟩

/-- The same frame is sent once. -/
theorem forwards_once_ports :
    (sendsNext (vetted.thread (.worker ⟨0, by decide⟩))).isSome = true ∧ SendsOnce vetted :=
  ⟨by decide +kernel, forwards_once (Program.play_reach (fun _ _ _ _ _ => trivial) _)⟩

end LinuxRouter
