import LinuxRouter.Support.Watch
import LinuxRouter.Plane.Ownership
import LinuxRouter.Plane.Routing

/-!
# Plane — the way out

A frame that `forward_task` has chosen a next hop for, until it is sent.

* The observer (`observe`) keeps, for each block, the next hop and interface that were last chosen
  for it, and for each thread what it has read.
* `Aimed` says of a block that its header has what was chosen for it.
* `Addressed` is the invariant: the frames parked under a key were chosen for it.
* `egress` is the discipline of the threads: who parks or sends a frame does so for the key chosen.
* `leaves_right`: as long as the chosen interface indexes fit the `uint8_t` of the header, every frame
  leaves by the interface chosen for it.  `leaves_wrong` is a run in which one does not fit.

`pend_enqueue` is given the interface index beside the frame, but `forward_send` takes it from the
frame's header, where it is a single byte.  The proof therefore follows both: the key that
`forward_task` has chosen, which only an observer sees, and the byte in the header, which is that
key modulo 256.  They are tied together when the header is written (`Aimed`); a parked frame keeps
the tie, since its bytes change only in a thread's hands; and what a flush sends by the header it
sends by the chosen interface if the index fits.  The same discipline says how a thread comes to a
MAC: from an `arp_lookup` of the very key under which the frame was parked.
-/

namespace LinuxRouter

open Program (Prog Config Discipline Reach Watched By)

/-! ### The addresses of a frame -/

/-- Bytes in front of a write stay. -/
theorem prefix_blit {p f s : List Byte} {i : ℕ} (h : p <+: f) (hi : p.length ≤ i) :
    p <+: blit f i s := by
  unfold blit
  rw [List.append_assoc]
  exact (List.prefix_take_iff.mpr ⟨h, hi⟩).trans (List.prefix_append _ _)

/-- A rewritten frame starts with the two addresses it was given. -/
theorem prefix_forwardFrame (mac src : Mac) (f : List Byte) :
    mac.toList ++ src.toList <+: forwardFrame mac src f := by
  have hlen : (mac.toList ++ src.toList).length = 12 := by simp
  have hmac : mac.toList.length = 6 := by simp
  have h₂ : mac.toList ++ src.toList <+: blit (blit f 0 mac.toList) 6 src.toList := by
    have h₁ : (blit f 0 mac.toList).take 6 = mac.toList := by
      rw [blit, List.take_zero, List.nil_append, List.take_append, hmac]
      simp [hmac]
    rw [blit, h₁]
    exact List.prefix_append _ _
  have h₃ := prefix_blit (s := [byteAt (blit (blit f 0 mac.toList) 6 src.toList) 22 - 1]) h₂
    (i := 22) (by omega)
  unfold forwardFrame ipChecksumRecompute
  dsimp only
  split
  · exact h₃
  · exact prefix_blit (prefix_blit h₃ (by omega)) (by omega)

/-- The addresses of a frame that starts with them. -/
theorem macAt_of_prefix {mac src : Mac} {f : List Byte} (h : mac.toList ++ src.toList <+: f) :
    macAt f 0 = mac ∧ macAt f 6 = src := by
  obtain ⟨rest, rfl⟩ := h
  have hmac : mac.toList.length = 6 := by simp
  have hsrc : src.toList.length = 6 := by simp
  constructor
  · refine Vector.ext fun j hj => ?_
    simp only [macAt, Vector.getElem_ofFn, byteAt, Nat.zero_add, List.getD_eq_getElem?_getD]
    rw [List.append_assoc, List.getElem?_append_left (by omega)]
    simp [hj]
  · refine Vector.ext fun j hj => ?_
    simp only [macAt, Vector.getElem_ofFn, byteAt, List.getD_eq_getElem?_getD]
    rw [List.append_assoc, List.getElem?_append_right (by omega), hmac, Nat.add_sub_cancel_left,
      List.getElem?_append_left (by omega)]
    simp [hj]

/-! ### The observer -/

/-- What a thread has read last, and the frame it is sending. -/
structure Local where
  frame : List Byte
  ifaces : Ifaces
  route : Option Route
  /-- the key of the last `arp_lookup` that hit, with its answer -/
  found : Option (Key × Mac)
  sending : Option (Block × Mac)

/-- What step 4 of `forward_task` chooses, of what it has read. -/
def Local.choice (l : Local) : Option Key :=
  let dst := getBe32 l.frame 30
  match l.ifaces.find? (·.covers dst) with
  | some it => some (dst, it.ifindex)
  | none => l.route.map (·.nextHop dst)

structure View where
  seen : Tid → Local
  chosen : Block → Option Key

/-- What a thread remembers of a command. -/
def Local.observe : ∀ ⦃β : Type⦄, Cmd β → β → Local → Local
  | _, .load _, f, l => { l with frame := f.data }
  | _, .ifaces, ifs, l => { l with ifaces := ifs }
  | _, .routeLookup _, rt, l => { l with route := rt }
  | _, .arpLookup k, mac, l => { l with found := mac.map (k, ·) }
  | _, .mark (.send b mac), _, l => { l with sending := some (b, mac) }
  | _, .pktSend _ _, _, l => { l with sending := none }
  | _, .mpFree _, _, l => { l with sending := none }
  | _, _, _, l => l

/-- The block whose header a command writes the choice into. -/
def Cmd.aims {β : Type} : Cmd β → Option Block
  | .write b (.out _ _) => some b
  | _ => none

/-- What it sees of a command. -/
def observe ⦃β : Type⦄ (t : Tid) (c : Cmd β) (_ : Plane) (a : β) (v : View) : View where
  seen := Function.update v.seen t ((v.seen t).observe c a)
  chosen b := if c.aims = some b then (v.seen t).choice else v.chosen b

/-- The data plane, observed. -/
abbrev Observed := Watched Plane (List Block) Tid View

/-! ### What is parked -/

/-- The index fits the header. -/
def Fits (k : Key) : Prop := 0 ≤ k.2.toInt ∧ k.2.toInt < 256

/-- The interface index that the header of a frame with the key `k` gives back. -/
def outIndex (k : Key) : CInt := Int32.ofNat (BitVec.ofInt 8 k.2.toInt).toNat

/-- The frame `f`, of the block `b`, was chosen the key `k`, and its header has it.  `F` is what the
run guarantees of the keys that are chosen. -/
structure Aimed (F : Key → Prop) (v : View) (b : Block) (f : FwdFrame) (k : Key) : Prop where
  chosen : v.chosen b = some k
  out : f.outIfidx = BitVec.ofInt 8 k.2.toInt
  len : 34 ≤ f.len
  fits : F k

/-- Every frame is parked under the key chosen for it. -/
def Addressed (F : Key → Prop) (s : Plane) (v : View) : Prop :=
  ∀ k b, s.pend.parked s.mem k b → Aimed F v b (s.mem b) k

section Parked

variable {s : Plane} {g : Tid → List Block} {owner : Block → Place} {order : List Slot}
  {chains : Slot → List Block} {tasks : List Block} {t : Tid} {β : Type} {c : Cmd β} {k : Key}
  {b : Block}

/-- What a command parks. -/
def Cmd.parks {β : Type} : Cmd β → Option (Key × Block)
  | .pendEnqueue k b => some (k, b)
  | _ => none

/-- A parked frame is not written. -/
theorem Owned.mem_exec_chain (h : Owned s g owner order chains tasks) (e : Env)
    (hp : pre t c (g t) s) {i : Slot} (hb : b ∈ chains i) :
    c.touches ≠ some b ∧ (exec c e s).2.mem b = s.mem b := by
  have ho := h.mem_chain.mp hb
  have hc : c.touches ≠ some b := by
    intro hc
    have := ho.symm.trans (h.mem_thread.mp (mem_of_touches hp hc))
    cases this
  exact ⟨hc, h.exec_mem e hc (by simp [ho])⟩

/-- A parked frame was parked before, or is the one that is being parked. -/
theorem Owned.parked_exec (h : Owned s g owner order chains tasks) (e : Env) (hp : pre t c (g t) s)
    (hq : (exec c e s).2.pend.parked (exec c e s).2.mem k b) :
    s.pend.parked s.mem k b ∨ c.parks = some (k, b) := by
  -- a command that leaves the pending table alone
  have hsame : (exec c e s).2.pend = s.pend → s.pend.parked s.mem k b := by
    intro hpend
    have hm : ∀ i, ∀ b ∈ chains i, (exec c e s).2.mem.next b = s.mem.next b := fun i b hb =>
      congrArg FwdFrame.next (h.mem_exec_chain e hp hb).2
    rw [hpend, (h.rep.congr_mem hm).parked_iff] at hq
    exact h.rep.parked_iff.mpr hq
  cases c with
  | pendEnqueue k' b' =>
      obtain ⟨order', chains', hr, he⟩ :=
        enqueue_rep h.rep (h.notMem_chain hp.1) hp.2 (enqueue_step e.clock k' b' s.mem s.pend)
      obtain ⟨i, hb, hk⟩ := hr.parked_iff.mp hq
      rcases he.mem hb with ⟨hb, hk'⟩ | ⟨rfl, hk'⟩
      · exact .inl (h.rep.parked_iff.mpr ⟨i, hb, hk'.symm.trans hk⟩)
      · obtain rfl : k' = k := hk'.symm.trans hk
        exact .inr rfl
  | pendDetach k' =>
      cases hf : findPend s.pend k' with
      | none => exact .inl (hsame (by simp only [exec, pendDetach, hf]))
      | some j =>
          have hr := h.rep.release_rep (i := j)
          simp only [exec, pendDetach, hf] at hq
          obtain ⟨i, hb, hk⟩ := hr.parked_iff.mp hq
          rw [key_releaseNode] at hk
          by_cases e' : i = j
          · simp [e'] at hb
          · rw [Function.update_of_ne e'] at hb
            exact .inl (h.rep.parked_iff.mpr ⟨i, hb, hk⟩)
  | pendSweep =>
      have hs := sweep_spec h.rep e.clock
      obtain ⟨i, hb, hk⟩ := hs.rep.parked_iff.mp hq
      rw [hs.key] at hk
      split at hb
      · cases hb
      · exact .inl (h.rep.parked_iff.mpr ⟨i, hb, hk⟩)
  | recvfrom b' =>
      refine .inl (hsame ?_)
      rw [exec]
      cases e.recv <;> rfl
  | _ => exact .inl (hsame rfl)

end Parked

/-! ### The discipline -/

/-- The frame `f` is sent as it should be: by the interface chosen for its block, from that
interface's address, to the one found for the next hop there. -/
def SentRight (l : Local) (v : View) (b : Block) (mac : Mac) (f : List Byte) (i : CInt) : Prop :=
  ∃ k out, v.chosen b = some k ∧ l.found = some (k, mac) ∧ i = k.2 ∧
    ifaceByIndex l.ifaces k.2 = some out ∧ macAt f 0 = mac ∧ macAt f 6 = out.mac

/-- The frame is rightly given up: the interface chosen for its block is not in the table. -/
def GivenUpRight (l : Local) (v : View) (b : Block) (mac : Mac) : Prop :=
  ∃ k, v.chosen b = some k ∧ l.found = some (k, mac) ∧ ifaceByIndex l.ifaces k.2 = none

/-- The frame `f` is sent by the interface that its header gives back, from that interface's address,
to the MAC found for the key chosen for its block. -/
def SentFound (F : Key → Prop) (l : Local) (v : View) (b : Block) (mac : Mac) (f : List Byte)
    (i : CInt) : Prop :=
  ∃ k out, F k ∧ v.chosen b = some k ∧ l.found = some (k, mac) ∧ i = outIndex k ∧
    ifaceByIndex l.ifaces (outIndex k) = some out ∧ macAt f 0 = mac ∧ macAt f 6 = out.mac

/-- The frame is given up: the interface that its header gives back is not in the table. -/
def GivenUpFound (F : Key → Prop) (l : Local) (v : View) (b : Block) (mac : Mac) : Prop :=
  ∃ k, F k ∧ v.chosen b = some k ∧ l.found = some (k, mac) ∧ ifaceByIndex l.ifaces (outIndex k) = none

/-- What a thread ensures before a command. -/
def egressPre (F : Key → Prop) : ∀ ⦃β : Type⦄, Tid → Cmd β → Observed → Prop
  | _, _, .pendEnqueue k b, x => Aimed F x.view b (x.shared.mem b) k
  | _, t, .pktSend f i, x => ∀ b mac, (x.view.seen t).sending = some (b, mac) →
      SentFound F (x.view.seen t) x.view b mac f i
  | _, t, .mpFree _, x => ∀ b mac, (x.view.seen t).sending = some (b, mac) →
      GivenUpFound F (x.view.seen t) x.view b mac
  | _, _, _, _ => True

/-- The interface indexes that `forward_task` chooses fit the header. -/
def fitsHeader : ∀ ⦃β : Type⦄, Tid → By Tid Cmd β → Env → Observed → Prop :=
  fun _ t c _ x => c.cmd.aims ≠ none → ∀ k, (x.view.seen t).choice = some k → Fits k

instance (k : Key) : Decidable (Fits k) := inferInstanceAs (Decidable (_ ∧ _))

instance {β : Type} (t : Tid) (c : By Tid Cmd β) (e : Env) (x : Observed) :
    Decidable (fitsHeader t c e x) :=
  have : Decidable (∀ k ∈ (x.view.seen t).choice, Fits k) := Option.decidableForallMem _
  decidable_of_iff (c.cmd.aims ≠ none → ∀ k ∈ (x.view.seen t).choice, Fits k) Iff.rfl

/-- What a run guarantees of the keys that are chosen, when they are written into the header. -/
def aimsOk (F : Key → Prop) : ∀ ⦃β : Type⦄, Tid → By Tid Cmd β → Env → Observed → Prop :=
  fun _ t c _ x => c.cmd.aims ≠ none → ∀ k, (x.view.seen t).choice = some k → F k

/-- What is known of every step of a run: the data plane is in order. -/
def egressOk (F : Key → Prop) : ∀ ⦃β : Type⦄, Tid → By Tid Cmd β → Env → Observed → Prop :=
  fun _ t c e x =>
    PlaneInv x.shared x.ghost ∧ pre t c.cmd (x.ghost t) x.shared ∧ aimsOk F t c e x

/-- What a thread may rely on: its blocks, what was chosen for them, and what it has read. -/
structure Untouched (t : Tid) (x x' : Observed) : Prop where
  seen : x'.view.seen t = x.view.seen t
  hand : x'.ghost t = x.ghost t
  mem : ∀ b ∈ x.ghost t, x'.shared.mem b = x.shared.mem b
  chosen : ∀ b ∈ x.ghost t, x'.view.chosen b = x.view.chosen b

section Step

variable {F : Key → Prop} {t t' : Tid} {β : Type} {c : Cmd β} {e : Env} {x : Observed}

/-- Who writes a header has its block in hand. -/
theorem touches_of_aims {b : Block} (h : c.aims = some b) : c.touches = some b := by
  cases c with
  | write b' w => cases w <;> first | exact h | cases h
  | _ => cases h

/-- What is chosen for a block changes only where its header is written. -/
theorem chosen_exec {b : Block} (h : c.touches ≠ some b) :
    (Watched.exec dataPlane observe t c e x).2.view.chosen b = x.view.chosen b :=
  if_neg fun h' => h (touches_of_aims h')

/-- **One command** keeps the parked frames under their keys. -/
theorem Addressed.exec (h : Addressed F x.shared x.view) (ho : PlaneInv x.shared x.ghost)
    (hp : pre t c (x.ghost t) x.shared) (hq : egressPre F t c x) :
    Addressed F (Watched.exec dataPlane observe t c e x).2.shared
      (Watched.exec dataPlane observe t c e x).2.view := by
  obtain ⟨owner, order, chains, tasks, ho⟩ := ho
  intro k b hk
  rcases ho.parked_exec e hp hk with hk | hk
  · have ha := h k b hk
    obtain ⟨i, hb, -⟩ := ho.rep.parked_iff.mp hk
    obtain ⟨hc, hm⟩ := ho.mem_exec_chain e hp hb
    have hm : (Watched.exec dataPlane observe t c e x).2.shared.mem b = x.shared.mem b := hm
    exact hm ▸ ⟨(chosen_exec hc).trans ha.chosen, ha.out, ha.len, ha.fits⟩
  · cases c with
    | pendEnqueue k' b' =>
        cases hk
        obtain ⟨p, hm⟩ := (enqueue_step e.clock k b x.shared.mem x.shared.pend).mem_self
        have hm : (Watched.exec dataPlane observe t (.pendEnqueue k b) e x).2.shared.mem b =
            { x.shared.mem b with next := p } := hm
        rw [hm]
        have ha : Aimed F x.view b (x.shared.mem b) k := hq
        exact ⟨ha.chosen, ha.out, ha.len, ha.fits⟩
    | _ => cases hk

/-- A command leaves alone what the other threads rely on. -/
theorem untouched_exec (ho : PlaneInv x.shared x.ghost) (hp : pre t c (x.ghost t) x.shared)
    (ht : t' ≠ t) : Untouched t' x (Watched.exec dataPlane observe t c e x).2 where
  seen := Function.update_of_ne ht _ _
  hand := Function.update_of_ne ht _ _
  mem _ hb := ho.exec_mem e hp ht hb
  chosen b hb := by
    refine chosen_exec fun hc => ?_
    obtain ⟨owner, order, chains, tasks, ho⟩ := ho
    have := (ho.mem_thread.mp hb).symm.trans (ho.mem_thread.mp (mem_of_touches hp hc))
    exact ht (Place.thread.inj this)

end Step

/-- The discipline of the way out.  A thread's ghost value is its number. -/
def egress (F : Key → Prop) : Discipline (dataPlane.watched observe) (egressOk F) where
  inv x g := (∀ t, g t = t) ∧ Addressed F x.shared x.view
  fact _ x := Addressed F x.shared x.view
  pre _ t c _ x := c.thread = t ∧ egressPre F t c.cmd x
  rely t x x' := Untouched t x x'
  rely_refl _ _ := ⟨rfl, rfl, fun _ _ => rfl, fun _ _ => rfl⟩
  rely_trans h h' :=
    ⟨h'.seen.trans h.seen, h'.hand.trans h.hand,
      fun b hb => (h'.mem b (h.hand ▸ hb)).trans (h.mem b hb),
      fun b hb => (h'.chosen b (h.hand ▸ hb)).trans (h.chosen b hb)⟩
  fact_of_inv _ h := h.2
  exec_inv := by
    rintro x g t β ⟨u, c⟩ e ⟨hg, ha⟩ ⟨rfl, hq⟩ ⟨ho, hp, -⟩
    refine ⟨fun t => ?_, ha.exec ho hp hq⟩
    by_cases ht : t = u
    · subst ht
      rw [Function.update_self]
      exact hg _
    · rw [Function.update_of_ne ht]
      exact hg t
  exec_rely := by
    rintro x g t β ⟨u, c⟩ e ⟨hg, -⟩ ⟨rfl, -⟩ ⟨ho, hp, -⟩ t' ht
    rw [hg]
    exact untouched_exec ho hp ht
  admin_inv := by
    rintro x ⟨s, gs, v⟩ g ⟨hg, ha⟩ ⟨hadmin, rfl, rfl⟩
    refine ⟨hg, ?_⟩
    dsimp only at hadmin
    cases hadmin <;> exact ha
  admin_rely := by
    rintro x ⟨s, gs, v⟩ g t - ⟨hadmin, rfl, rfl⟩
    refine ⟨rfl, rfl, fun b _ => ?_, fun _ _ => rfl⟩
    dsimp only at hadmin ⊢
    cases hadmin <;> rfl

/-! ### Programs -/

/-- What the thread has read satisfies `L`; it has `B` in hand, with the headers `μ`, and `χ` was
chosen for them. -/
structure Carrying (t : Tid) (L : Local → Prop) (B : List Block) (μ : Block → FwdFrame)
    (χ : Block → Option Key) (x : Observed) : Prop where
  seen : L (x.view.seen t)
  hand : ∀ b ∈ B, b ∈ x.ghost t
  mem : ∀ b ∈ B, x.shared.mem b = μ b
  chosen : ∀ b ∈ B, x.view.chosen b = χ b

/-- From `P` on, the program keeps the discipline, and ends in `Q`. -/
def Does (F : Key → Prop) (t : Tid) (P : Observed → Prop) (p : Act α) (Q : α → Observed → Prop) : Prop :=
  ∀ x, P x → (egress F).Ok t (fun a u x => u = t ∧ Q a x) (p.tag t) t x

section Rules

variable {α β : Type} {F : Key → Prop} {t : Tid} {L : Local → Prop} {B : List Block} {μ : Block → FwdFrame}
  {χ : Block → Option Key} {P : Observed → Prop} {Q : α → Observed → Prop} {x x' : Observed}

/-- What a thread has in hand is left alone by the others. -/
theorem Carrying.untouched (h : Carrying t L B μ χ x) (hu : Untouched t x x') :
    Carrying t L B μ χ x' where
  seen := hu.seen ▸ h.seen
  hand b hb := hu.hand ▸ h.hand b hb
  mem b hb := (hu.mem b (h.hand b hb)).trans (h.mem b hb)
  chosen b hb := (hu.chosen b (h.hand b hb)).trans (h.chosen b hb)

theorem Carrying.mono {M : Local → Prop} {B' : List Block} (h : Carrying t L B μ χ x)
    (hL : ∀ l, L l → M l) (hb : ∀ b ∈ B', b ∈ B) : Carrying t M B' μ χ x :=
  ⟨hL _ h.seen, fun b hb' => h.hand b (hb b hb'), fun b hb' => h.mem b (hb b hb'),
    fun b hb' => h.chosen b (hb b hb')⟩

theorem Does.pre {K : Observed → Prop} {p : Act α} (h : Does F t P p Q) (hP : ∀ x, K x → P x) :
    Does F t K p Q :=
  fun x hx => h x (hP x hx)

theorem Does.post {Q' : α → Observed → Prop} {p : Act α} (h : Does F t P p Q)
    (hQ : ∀ a x, Q a x → Q' a x) : Does F t P p Q' :=
  fun x hx => (h x hx).mono fun a _ x hq => ⟨hq.1, hQ a x hq.2⟩

theorem Does.bind {R : β → Observed → Prop} {p : Act β} {f : β → Act α} (hp : Does F t P p R)
    (hf : ∀ b, Does F t (R b) (f b) Q) : Does F t P (p >>= f) Q := by
  intro x hx
  rw [Prog.tag_bind]
  refine Discipline.Ok.bind ((hp x hx).mono ?_)
  rintro b _ x ⟨rfl, hr⟩
  exact hf b x hr

theorem does_ret {a : α} (h : ∀ x, Carrying t L B μ χ x → Q a x) :
    Does F t (Carrying t L B μ χ) (.ret a) Q :=
  fun _ hx _ hu _ => ⟨rfl, h _ (hx.untouched hu)⟩

/-- A command. -/
theorem does_cmd {c : Cmd β} {k : β → Act α} {K : β → Observed → Prop}
    (hq : ∀ x, Carrying t L B μ χ x → egressPre F t c x)
    (hx : ∀ x e, Carrying t L B μ χ x → Addressed F x.shared x.view → egressOk F t ⟨t, c⟩ e x →
      K (exec c e x.shared).1 (Watched.exec dataPlane observe t c e x).2)
    (hk : ∀ a, Does F t (K a) (k a) Q) : Does F t (Carrying t L B μ χ) (.cmd c k) Q := by
  intro x h x' hu ha
  have h' := h.untouched hu
  exact ⟨⟨rfl, hq x' h'⟩, fun e hok => hk _ _ (hx x' e h' ha hok)⟩

/-- A block stays in hand, if it is not freed or handed on. -/
theorem mem_hold {c : Cmd β} {g : List Block} {b : Block} (hb : b ∈ g) (hc : c.touches ≠ some b)
    (s : Plane) (a : β) : b ∈ hold c s a g := by
  have herase : ∀ {b'}, c.touches = some b' → b ∈ g.erase b' := fun h' =>
    (List.mem_erase_of_ne fun e => hc (h'.trans (congrArg some e.symm))).mpr hb
  cases c with
  | mpAlloc =>
      cases a with
      | none => exact hb
      | some b' => exact List.mem_cons_of_mem b' hb
  | mpFree b' => exact herase rfl
  | tpoolSubmit b' =>
      cases a with
      | false => exact hb
      | true => exact herase rfl
  | tpoolTake =>
      rcases a with _ | _ | _ | b'
      · exact hb
      · exact hb
      · exact hb
      · exact List.mem_cons_of_mem b' hb
  | pendEnqueue k b' =>
      cases a with
      | joined => exact herase rfl
      | created ev => exact herase rfl
      | full => exact hb
      | noSlot => exact hb
  | pendDetach k =>
      cases a with
      | none => exact hb
      | some h => exact List.mem_append_right _ hb
  | _ => exact hb

/-- What a thread carries on after a command. -/
theorem Carrying.exec {c : Cmd β} {e : Env} {M : Local → Prop} (h : Carrying t L B μ χ x)
    (hok : egressOk F t ⟨t, c⟩ e x) (hc : ∀ b, c.touches = some b → b ∉ B)
    (hL : ∀ l, L l → M (l.observe c (LinuxRouter.exec c e x.shared).1)) :
    Carrying t M B μ χ (Watched.exec dataPlane observe t c e x).2 := by
  have hne : ∀ b ∈ B, c.touches ≠ some b := fun b hb hc' => hc b hc' hb
  obtain ⟨owner, order, chains, tasks, ho⟩ := hok.1
  refine ⟨?_, fun b hb => ?_, fun b hb => ?_, fun b hb => ?_⟩
  · have hs : (Watched.exec dataPlane observe t c e x).2.view.seen t =
        (x.view.seen t).observe c (LinuxRouter.exec c e x.shared).1 := Function.update_self _ _ _
    rw [hs]
    exact hL _ h.seen
  · have hg : (Watched.exec dataPlane observe t c e x).2.ghost t =
        hold c x.shared (LinuxRouter.exec c e x.shared).1 (x.ghost t) := Function.update_self _ _ _
    rw [hg]
    exact mem_hold (h.hand b hb) (hne b hb) _ _
  · have ho' := ho.exec_mem e (hne b hb) (ho.owner_ne_free (h.hand b hb))
    exact ho'.trans (h.mem b hb)
  · exact (chosen_exec (hne b hb)).trans (h.chosen b hb)

/-- A command on other blocks. -/
theorem does_step {c : Cmd β} {k : β → Act α} {M : β → Local → Prop}
    (hq : ∀ x, Carrying t L B μ χ x → egressPre F t c x) (hc : ∀ b, c.touches = some b → b ∉ B)
    (hL : ∀ l a, L l → M a (l.observe c a))
    (hk : ∀ a, Does F t (Carrying t (M a) B μ χ) (k a) Q) :
    Does F t (Carrying t L B μ χ) (.cmd c k) Q :=
  does_cmd (K := fun a => Carrying t (M a) B μ χ) hq
    (fun _ _ h _ hok => h.exec hok hc fun l => hL l _) hk

/-- A block in hand is read. -/
theorem does_load {b : Block} {k : FwdFrame → Act α} {M : Local → Prop} (hb : b ∈ B)
    (hL : ∀ l, L l → M { l with frame := (μ b).data })
    (hk : Does F t (Carrying t M B μ χ) (k (μ b)) Q) :
    Does F t (Carrying t L B μ χ) (.cmd (.load b) k) Q := by
  refine does_cmd (K := fun a x => a = μ b ∧ Carrying t M B μ χ x) (fun _ _ => trivial)
    (fun x e h _ hok => ?_) fun a => ?_
  · have ha : (exec (.load b) e x.shared).1 = μ b := h.mem b hb
    refine ⟨ha, h.exec hok (fun b hb => nomatch hb) fun l hl => ?_⟩
    rw [ha]
    exact hL l hl
  · rintro x ⟨rfl, h⟩
    exact hk x h

/-- A write to a block in hand. -/
theorem Carrying.write {b : Block} {w : Write} {e : Env} (h : Carrying t L B μ χ x) (hb : b ∈ B) :
    Carrying t L B (Function.update μ b ((μ b).write w))
      (Function.update χ b ((Watched.exec dataPlane observe t (.write b w) e x).2.view.chosen b))
      (Watched.exec dataPlane observe t (.write b w) e x).2 := by
  refine ⟨?_, fun c hc => ?_, fun c hc => ?_, fun c hc => ?_⟩
  · have hs : (Watched.exec dataPlane observe t (.write b w) e x).2.view.seen t = x.view.seen t :=
      Function.update_self _ _ _
    rw [hs]
    exact h.seen
  · have hg : (Watched.exec dataPlane observe t (.write b w) e x).2.ghost t = x.ghost t :=
      Function.update_self _ _ _
    rw [hg]
    exact h.hand c hc
  · change Function.update x.shared.mem b ((x.shared.mem b).write w) c = _
    by_cases e' : c = b
    · subst e'
      rw [Function.update_self, Function.update_self, h.mem c hc]
    · rw [Function.update_of_ne e', Function.update_of_ne e', h.mem c hc]
  · by_cases e' : c = b
    · subst e'
      rw [Function.update_self]
    · rw [Function.update_of_ne e', chosen_exec (c := .write b w) fun h' => e' (Option.some.inj h').symm,
        h.chosen c hc]

/-- A block in hand is written, but for the choice. -/
theorem does_write {b : Block} {w : Write} {k : Unit → Act α} (hb : b ∈ B)
    (hw : (Cmd.write b w).aims = none)
    (hk : Does F t (Carrying t L B (Function.update μ b ((μ b).write w)) χ) (k ()) Q) :
    Does F t (Carrying t L B μ χ) (.cmd (.write b w) k) Q := by
  refine does_cmd (K := fun _ => Carrying t L B (Function.update μ b ((μ b).write w)) χ)
    (fun _ _ => trivial) (fun x e h _ _ => ?_) fun _ => hk
  have hc : (Watched.exec dataPlane observe t (.write b w) e x).2.view.chosen b = χ b := by
    rw [← h.chosen b hb]
    exact if_neg (by rw [hw]; simp)
  have h' := h.write (w := w) (e := e) hb
  rwa [hc, Function.update_eq_self] at h'

/-- The choice is written into the header. -/
theorem does_aim {b : Block} {i : Byte} {ip : Ip} {k : Key} {f : Unit → Act α} (hb : b ∈ B)
    (hL : ∀ l, L l → l.choice = some k)
    (hk : F k → Does F t (Carrying t L B (Function.update μ b ((μ b).write (.out i ip)))
      (Function.update χ b (some k))) (f ()) Q) :
    Does F t (Carrying t L B μ χ) (.cmd (.write b (.out i ip)) f) Q := by
  refine does_cmd (K := fun _ x => F k ∧ Carrying t L B
    (Function.update μ b ((μ b).write (.out i ip))) (Function.update χ b (some k)) x)
    (fun _ _ => trivial) (fun x e h _ hok => ?_) fun _ x hx => hk hx.1 x hx.2
  have hch := hL _ h.seen
  refine ⟨hok.2.2 (by simp [Cmd.aims]) k hch, ?_⟩
  have hc : (Watched.exec dataPlane observe t (.write b (.out i ip)) e x).2.view.chosen b = some k :=
    (if_pos rfl).trans hch
  have h' := h.write (w := .out i ip) (e := e) hb
  rwa [hc] at h'

/-- The frames of a slot are taken. -/
theorem does_detach {key : Key} {k : Option (Option Block) → Act α}
    (hn : Does F t (Carrying t L [] μ χ) (k none) Q)
    (hk : ∀ μ' χ' h B, Linked.IsChain (Mem.next μ') h B → B.length ≤ pendChainMax → B.Nodup →
      (∀ b ∈ B, χ' b = some key ∧ (μ' b).outIfidx = BitVec.ofInt 8 key.2.toInt ∧
        34 ≤ (μ' b).len ∧ F key) →
      Does F t (Carrying t L B μ' χ') (k (some h)) Q) :
    Does F t (Carrying t L [] μ χ) (.cmd (.pendDetach key) k) Q := by
  refine does_cmd (K := fun a x => a.elim (Carrying t L [] μ χ x) fun h =>
      ∃ B, Linked.IsChain x.shared.mem.next h B ∧ B.length ≤ pendChainMax ∧ B.Nodup ∧
        (∀ b ∈ B, Aimed F x.view b (x.shared.mem b) key) ∧
        Carrying t L B x.shared.mem x.view.chosen x)
    (fun _ _ => trivial) (fun x e h ha hok => ?_) fun a x hx => ?_
  · obtain ⟨owner, order, chains, tasks, ho⟩ := hok.1
    have hseen : L ((Watched.exec dataPlane observe t (.pendDetach key) e x).2.view.seen t) := by
      rw [show (Watched.exec dataPlane observe t (.pendDetach key) e x).2.view.seen t =
        x.view.seen t from Function.update_self _ _ _]
      exact h.seen
    cases hf : findPend x.shared.pend key with
    | none =>
        have ha : (exec (.pendDetach key) e x.shared).1 = none := by simp only [exec, pendDetach, hf]
        rw [ha]
        exact ⟨hseen, fun b hb => (by cases hb), fun b hb => (by cases hb), fun b hb => by cases hb⟩
    | some i =>
        obtain ⟨-, hkey⟩ := ho.rep.findPend_eq_some.mp hf
        have hhand : (Watched.exec dataPlane observe t (.pendDetach key) e x).2.ghost t =
            chains i ++ x.ghost t := (Function.update_self _ _ _).trans (ho.hold_detach hf e _)
        rw [exec_detach hf]
        refine ⟨chains i, ho.rep.chain i, ho.rep.le_max i, ho.nodup_chain i, fun b hb => ?_, hseen,
          fun b hb => ?_, fun _ _ => rfl, fun _ _ => rfl⟩
        · have hb' := ha key b (ho.rep.parked_iff.mpr ⟨i, hb, hkey⟩)
          refine ⟨(chosen_exec (c := .pendDetach key) fun h => (by cases h)).trans hb'.chosen, hb'.out,
            hb'.len, hb'.fits⟩
        · rw [hhand]
          exact List.mem_append_left _ hb
  · cases a with
    | none => exact hn x hx
    | some h =>
        obtain ⟨B, hc, hl, hnd, ha, hx⟩ := hx
        exact hk _ _ h B hc hl hnd
          (fun b hb => ⟨(ha b hb).chosen, (ha b hb).out, (ha b hb).len, (ha b hb).fits⟩) x hx

/-- Only the blocks in hand matter. -/
theorem Carrying.congr {B' : List Block} {μ' : Block → FwdFrame} {χ' : Block → Option Key}
    (h : Carrying t L B μ χ x) (hb : ∀ b ∈ B', b ∈ B) (hμ : ∀ b ∈ B', μ' b = μ b)
    (hχ : ∀ b ∈ B', χ' b = χ b) : Carrying t L B' μ' χ' x :=
  ⟨h.seen, fun b hb' => h.hand b (hb b hb'), fun b hb' => (h.mem b (hb b hb')).trans (hμ b hb').symm,
    fun b hb' => (h.chosen b (hb b hb')).trans (hχ b hb').symm⟩

/-! ### Programs that send nothing -/

/-- A thread that is not in the middle of a frame. -/
def Calm (t : Tid) (x : Observed) : Prop := (x.view.seen t).sending = none

/-- A thread that sends nothing has no block to account for. -/
theorem Calm.carrying (h : Calm t x) : Carrying t (fun l => l.sending = none) [] μ χ x :=
  ⟨h, fun _ hb => (nomatch hb), fun _ hb => (nomatch hb), fun _ hb => nomatch hb⟩

/-- Commands that neither park a frame nor begin to send one. -/
def Cmd.aside {β : Type} : Cmd β → Bool
  | .mark (.send _ _) => false
  | .pendEnqueue _ _ => false
  | _ => true

/-- A command of such a thread. -/
theorem calm_step {c : Cmd β} {k : β → Act α} (hc : c.aside = true)
    (hk : ∀ a, Does F t (Calm t) (k a) Q) : Does F t (Calm t) (.cmd c k) Q := by
  intro x hx
  refine does_step (L := fun l => l.sending = none) (M := fun _ l => l.sending = none) (B := [])
    (μ := x.shared.mem) (χ := x.view.chosen) (fun x h => ?_) (fun _ _ hb => nomatch hb)
    (fun l a hl => ?_) (fun a => (hk a).pre fun x h => h.seen) x hx.carrying
  · have hs : (x.view.seen t).sending = none := h.seen
    cases c with
    | pktSend f i =>
        intro b mac e
        rw [hs] at e
        cases e
    | mpFree b =>
        intro b mac e
        rw [hs] at e
        cases e
    | pendEnqueue k b => cases hc
    | _ => trivial
  · cases c with
    | mark ev => cases ev <;> first | exact hl | cases hc
    | _ => first | exact hl | rfl

/-- The end of a program of such a thread. -/
theorem calm_ret {a : α} (h : ∀ x, Calm t x → Q a x) : Does F t (Calm t) (.ret a) Q := by
  intro x hx
  exact does_ret (μ := x.shared.mem) (χ := x.view.chosen) (fun x h' => h x h'.seen) x hx.carrying

/-- A program that neither parks nor sends. -/
theorem calm_of_every {p : Act α} (hp : p.Every fun _ c => c.aside = true) :
    Does F t (Calm t) p fun _ => Calm t := by
  induction p with
  | ret a => exact calm_ret fun _ h => h
  | cmd c k ih => exact calm_step hp.1 fun a => ih a (hp.2 a)

/-- The command is an `arp_insert`. -/
def Cmd.inserts {β : Type} : Cmd β → Bool
  | .arpInsert _ _ => true
  | _ => false

/-- Commands that, besides, insert no ARP entry. -/
def Cmd.modest {β : Type} (c : Cmd β) : Bool := c.aside && !c.inserts

/-- The commands with which a thread takes a block. -/
def Cmd.takes {β : Type} : Cmd β → Bool
  | .mpAlloc => true
  | .tpoolTake => true
  | _ => false

/-- Commands that, besides, take no block. -/
def Cmd.bare {β : Type} (c : Cmd β) : Bool := c.modest && !c.takes

/-- A bare command takes no block and learns nothing. -/
theorem Cmd.bare_iff {β : Type} {c : Cmd β} :
    c.bare = true ↔ c.modest = true ∧ c.takes = false := by
  simp [Cmd.bare]

theorem Cmd.modest_iff {β : Type} {c : Cmd β} :
    c.modest = true ↔ c.aside = true ∧ c.inserts = false := by
  simp [Cmd.modest]

theorem calm_of_modest {p : Act α} (hp : p.Every fun _ c => c.modest = true) :
    Does F t (Calm t) p fun _ => Calm t :=
  calm_of_every (hp.mono fun _ _ h => (Cmd.modest_iff.mp h).1)

theorem calm_of_bare {p : Act α} (hp : p.Every fun _ c => c.bare = true) :
    Does F t (Calm t) p fun _ => Calm t :=
  calm_of_modest (hp.mono fun _ _ h => (Cmd.bare_iff.mp h).1)

theorem drop_bare (c : Counter) (b : Block) : (drop c b).Every fun _ c => c.bare = true :=
  ⟨rfl, fun _ => ⟨rfl, fun _ => ⟨rfl, fun _ => trivial⟩⟩⟩

theorem arpRequest_modest (k : Key) : (arpRequest k).Every fun _ c => c.modest = true :=
  arpRequest_every rfl rfl (fun _ => rfl) (fun _ _ => rfl) (fun _ => rfl) (fun _ _ => rfl)
    (fun _ => rfl) (fun _ => rfl) k

/-- The look for an own address. -/
theorem arpOurs_bare (tpa : Ip) : (arpOurs tpa).Every fun _ c => c.bare = true :=
  arpOurs_every rfl rfl (fun _ => rfl) tpa

theorem arpRespond_bare (blk : Block) (i : CInt) (it : Iface) :
    (arpRespond blk i it).Every fun _ c => c.bare = true :=
  Prog.every_step rfl fun _ => Prog.every_step rfl fun _ => Prog.every_step rfl fun _ =>
    Prog.every_last rfl

theorem countExpired_bare (evs : List Evicted) :
    (countExpired evs).Every fun _ c => c.bare = true :=
  countExpired_every (fun _ => rfl) evs

/-- Commands that neither insert an ARP entry nor take a block. -/
def Cmd.ships {β : Type} (c : Cmd β) : Bool := !c.inserts && !c.takes

/-- A command that ships learns nothing and takes no block. -/
theorem Cmd.ships_iff {β : Type} {c : Cmd β} :
    c.ships = true ↔ c.inserts = false ∧ c.takes = false := by
  simp [Cmd.ships]

theorem ships_of_bare {p : Act α} (hp : p.Every fun _ c => c.bare = true) :
    p.Every fun _ c => c.ships = true :=
  hp.mono fun _ _ h =>
    Cmd.ships_iff.mpr ⟨(Cmd.modest_iff.mp (Cmd.bare_iff.mp h).1).2, (Cmd.bare_iff.mp h).2⟩

theorem forwardSend_ships (b : Block) (mac : Mac) :
    (forwardSend b mac).Every fun _ c => c.ships = true := by
  refine Prog.every_step rfl fun _ => Prog.every_step rfl fun f => Prog.every_step rfl fun ifs => ?_
  split
  · exact Prog.every_last rfl
  · exact Prog.every_step rfl fun _ => Prog.every_step rfl fun _ => Prog.every_step rfl fun _ =>
      Prog.every_last rfl

theorem sendChain_ships (mac : Mac) (n : ℕ) (h : Option Block) :
    (sendChain mac n h).Every fun _ c => c.ships = true := by
  induction n generalizing h with
  | zero => cases h <;> trivial
  | succ n ih =>
      cases h with
      | none => trivial
      | some b => exact Prog.every_step rfl fun f => (forwardSend_ships b mac).bind fun _ => ih f.next

theorem forwardFlushPending_ships (k : Key) :
    (forwardFlushPending k).Every fun _ c => c.ships = true := by
  refine Prog.every_step rfl fun mac => ?_
  split
  · trivial
  · refine Prog.every_step rfl fun h => ?_
    split
    · trivial
    · exact sendChain_ships _ _ _

/-! ### Programs that send -/

/-- What a thread has found before it sends. -/
def Found (k : Key) (mac : Mac) (l : Local) : Prop := l.found = some (k, mac) ∧ l.sending = none

/-- What a thread has found, and the block it sends there. -/
def Sending (k : Key) (mac : Mac) (b : Block) (l : Local) : Prop :=
  l.found = some (k, mac) ∧ l.sending = some (b, mac)

/-- The header gives back an index that fits it. -/
theorem Fits.back {k : Key} (h : Fits k) : outIndex k = k.2 := by
  obtain ⟨h₀, h₁⟩ := h
  have hn : (BitVec.ofInt 8 k.2.toInt).toNat = k.2.toInt.toNat := by
    rw [BitVec.toNat_ofInt, Int.emod_eq_of_lt h₀ (by simpa using h₁)]
  apply Int32.toInt_inj.mp
  rw [outIndex, hn, Int32.toInt_ofNat_of_lt (by omega)]
  omega

/-- **`forward_send`** sends by the header what was chosen for the frame. -/
theorem does_forwardSend {b : Block} {k : Key} {mac : Mac} (hb : b ∉ B) (hk : χ b = some k)
    (ho : (μ b).outIfidx = BitVec.ofInt 8 k.2.toInt) (hl : 34 ≤ (μ b).len) (hf : F k) :
    Does F t (Carrying t (Found k mac) (b :: B) μ χ) (forwardSend b mac)
      fun _ => Carrying t (Found k mac) B μ χ := by
  have hi : Int32.ofNat (μ b).outIfidx.toNat = outIndex k := by rw [ho, outIndex]
  -- the block is freed at the end of both branches
  have hend : ∀ {μ' : Block → FwdFrame} {L : Local → Prop}, (∀ c ∈ B, μ' c = μ c) →
      (∀ x, Carrying t L (b :: B) μ' χ x → egressPre F t (.mpFree b) x) →
      (∀ l, L l → l.found = some (k, mac)) →
      Does F t (Carrying t L (b :: B) μ' χ) (Prog.perform (.mpFree b))
        fun _ => Carrying t (Found k mac) B μ χ := by
    intro μ' L hμ hq hL
    refine does_cmd (K := fun _ => Carrying t (Found k mac) B μ χ) hq
      (fun x e h _ hok => ?_) fun _ => does_ret fun _ h => h
    have h' : Carrying t L B μ χ x :=
      h.congr (fun c hc => by simp [hc]) (fun c hc => (hμ c hc).symm) fun _ _ => rfl
    refine h'.exec hok (fun c hc => ?_) fun l hl => ⟨hL l hl, rfl⟩
    cases hc
    exact hb
  simp only [LinuxRouter.forwardSend, Prog.perform_bind]
  refine does_step (M := fun _ => Sending k mac b) (fun _ _ => trivial) (fun _ h => by cases h)
    (fun l _ (h : Found k mac l) => ⟨h.1, rfl⟩) fun _ => ?_
  refine does_load (M := Sending k mac b) List.mem_cons_self (fun _ h => h) ?_
  refine does_step (M := fun ifs l => Sending k mac b l ∧ l.ifaces = ifs) (fun _ _ => trivial)
    (fun _ h => by cases h) (fun l ifs h => ⟨h, rfl⟩) fun ifs => ?_
  rw [hi]
  cases hout : ifaceByIndex ifs (outIndex k) with
  | none =>
      refine hend (fun _ _ => rfl) (fun x h b' mac' hs => ?_) fun l h => h.1.1
      obtain ⟨⟨hfound, hsend⟩, hifs⟩ := h.seen
      obtain ⟨rfl, rfl⟩ : b = b' ∧ mac = mac' := by simpa using hsend.symm.trans hs
      exact ⟨k, hf, (h.chosen b (by simp)).trans hk, hfound, by rw [hifs, hout]⟩
  | some out =>
      dsimp only
      refine does_write List.mem_cons_self rfl ?_
      refine does_step (M := fun _ => Found k mac) (fun x h b' mac' hs => ?_) (fun _ h => by cases h)
        (fun l _ h => ⟨h.1.1, rfl⟩) fun ok => ?_
      · obtain ⟨⟨hfound, hsend⟩, hifs⟩ := h.seen
        obtain ⟨rfl, rfl⟩ : b = b' ∧ mac = mac' := by simpa using hsend.symm.trans hs
        have hpre := List.prefix_take_iff (i := (μ b).len).mpr
          ⟨prefix_forwardFrame mac out.mac (μ b).data, by simp; omega⟩
        obtain ⟨hdst, hsrc⟩ := macAt_of_prefix hpre
        exact ⟨k, out, hf, (h.chosen b (by simp)).trans hk, hfound, rfl, by rw [hifs, hout], hdst, hsrc⟩
      · refine does_step (M := fun _ => Found k mac) (fun _ _ => trivial) (fun _ h => by cases h)
          (fun _ _ h => h) fun _ => ?_
        refine hend (fun c hc => ?_) (fun x h b' mac' hs => ?_) fun l h => h.1
        · exact Function.update_of_ne (ne_of_mem_of_not_mem hc hb) _ _
        · rw [h.seen.2] at hs
          cases hs

/-- The loop of a flush, for frames that were chosen the key. -/
theorem does_sendChain {k : Key} {mac : Mac} {n : ℕ} {h : Option Block} (hf : F k)
    (hc : Linked.IsChain (Mem.next μ) h B) (hl : B.length ≤ n) (hnd : B.Nodup)
    (ha : ∀ b ∈ B, χ b = some k ∧ (μ b).outIfidx = BitVec.ofInt 8 k.2.toInt ∧ 34 ≤ (μ b).len) :
    Does F t (Carrying t (Found k mac) B μ χ) (sendChain mac n h) fun _ => Calm t := by
  induction B generalizing n h with
  | nil =>
      obtain rfl := Linked.IsChain.nil_iff.mp hc
      cases n <;> exact does_ret fun _ h => h.seen.2
  | cons b B ih =>
      obtain ⟨rfl, ht⟩ := Linked.IsChain.cons_iff.mp hc
      obtain ⟨hb, hnd⟩ := List.nodup_cons.mp hnd
      obtain ⟨hk, ho, hlen⟩ := ha b List.mem_cons_self
      cases n with
      | zero => simp at hl
      | succ n =>
          simp only [LinuxRouter.sendChain, Prog.perform_bind]
          refine does_load (M := Found k mac) List.mem_cons_self (fun _ h => h) ?_
          refine (does_forwardSend hb hk ho hlen hf).bind fun _ => ?_
          exact ih ht (by simpa using hl) hnd fun c hc => ha c (List.mem_cons_of_mem b hc)

/-- **`forward_flush_pending`**: one lookup, for the key of all its frames. -/
theorem does_forwardFlushPending (k : Key) :
    Does F t (Calm t) (forwardFlushPending k) fun _ => Calm t := by
  intro x hx
  refine (?_ : Does F t (Carrying t (fun l => l.sending = none) [] x.shared.mem x.view.chosen) _ _) x
    hx.carrying
  simp only [LinuxRouter.forwardFlushPending, Prog.perform_bind, Prog.pure_eq]
  refine does_step (M := fun mac l => l.found = mac.map (k, ·) ∧ l.sending = none)
    (fun _ _ => trivial) (fun _ h => by cases h) (fun l mac h => ⟨rfl, h⟩) fun mac => ?_
  cases mac with
  | none => exact does_ret fun _ h => h.seen.2
  | some mac =>
      dsimp only [Option.map_some]
      refine does_detach (does_ret fun _ h => h.seen.2) fun μ' χ' h B hc hl hnd ha => ?_
      cases B with
      | nil =>
          obtain rfl := Linked.IsChain.nil_iff.mp hc
          exact does_ret fun _ h => h.seen.2
      | cons b B =>
          exact does_sendChain (ha b List.mem_cons_self).2.2.2 hc hl hnd fun c hc =>
            ⟨(ha c hc).1, (ha c hc).2.1, (ha c hc).2.2.1⟩

/-- A program that sends nothing, whatever is in hand. -/
theorem does_bare {p : Act α} (hL : ∀ l, L l → l.sending = none)
    (hp : p.Every fun _ c => c.bare = true) : Does F t (Carrying t L B μ χ) p fun _ => Calm t :=
  (calm_of_bare hp).pre fun _ h => hL _ h.seen

/-- **`pend_enqueue`** parks a frame under the key chosen for it. -/
theorem does_pendEnqueueFrame {b : Block} {k : Key} (hL : ∀ l, L l → l.sending = none)
    (hk : χ b = some k) (ho : (μ b).outIfidx = BitVec.ofInt 8 k.2.toInt) (hl : 34 ≤ (μ b).len)
    (hf : F k) : Does F t (Carrying t L [b] μ χ) (pendEnqueueFrame k b) fun _ => Calm t := by
  simp only [LinuxRouter.pendEnqueueFrame, Prog.perform_bind, Prog.pure_eq]
  refine does_cmd (K := fun _ => Calm t) (fun x h => ?_) (fun x e h _ hok => ?_) fun a => ?_
  · have hm := h.mem b List.mem_cons_self
    exact ⟨(h.chosen b List.mem_cons_self).trans hk, by rw [hm, ho], by rw [hm]; exact hl, hf⟩
  · have h' : Carrying t L [] μ χ x := h.mono (fun _ h => h) fun _ hb => by cases hb
    exact hL _ (h'.exec (M := L) hok (fun _ _ hb => by cases hb) fun l hl => hl).seen
  · cases a with
    | joined => exact calm_ret fun _ h => h
    | created ev =>
        cases ev with
        | none => exact calm_ret fun _ h => h
        | some ev => exact calm_step rfl fun _ => calm_step rfl fun _ => calm_ret fun _ h => h
    | full => exact calm_of_bare (drop_bare _ _)
    | noSlot => exact calm_of_bare (drop_bare _ _)

/-- Steps 5 and 6 of `forward_task`, for the key that was chosen. -/
theorem does_forwardTo {b : Block} {f : List Byte} {k : Key} (hl : 34 ≤ (μ b).len) :
    Does F t (Carrying t (fun l => l.choice = some k ∧ l.sending = none) [b] μ χ) (forwardTo b f k)
      fun _ => Calm t := by
  simp only [LinuxRouter.forwardTo, Prog.perform_bind]
  split
  · exact does_bare (fun _ h => h.2) (drop_bare _ _)
  · refine does_aim (k := k) List.mem_cons_self (fun _ h => h.1) fun hf => ?_
    have hw : Function.update μ b ((μ b).write (.out (BitVec.ofInt 8 k.2.toInt) k.1)) b =
        (μ b).write (.out (BitVec.ofInt 8 k.2.toInt) k.1) := Function.update_self _ _ _
    have hk : Function.update χ b (some k) b = some k := Function.update_self _ _ _
    refine does_step (M := fun mac l => l.found = mac.map (k, ·) ∧ l.sending = none)
      (fun _ _ => trivial) (fun _ h => by cases h) (fun l mac h => ⟨rfl, h.2⟩) fun mac => ?_
    cases mac with
    | some mac =>
        refine (does_forwardSend (B := []) (fun h => by cases h) hk ?_ ?_ hf).post
          fun _ _ h => h.seen.2
        · rw [hw]
          rfl
        · rw [hw]
          exact hl
    | none =>
        refine (does_pendEnqueueFrame (fun _ h => h.2) hk ?_ ?_ hf).bind fun _ => ?_
        · rw [hw]
          rfl
        · rw [hw]
          exact hl
        · exact calm_of_modest (arpRequest_modest k)

/-- A frame with a header has 34 bytes. -/
theorem le_len_of_headerOk {f : List Byte} {n : ℕ} (h : headerOk f n = true) : 34 ≤ n := by
  simp only [headerOk, Bool.and_eq_true, decide_eq_true_eq] at h
  exact h.1.1.1.1

/-- `forward_task`. -/
theorem does_forwardTask {b : Block} :
    Does F t (Carrying t (fun l => l.sending = none) [b] μ χ) (forwardTask b) fun _ => Calm t := by
  simp only [LinuxRouter.forwardTask, Prog.perform_bind]
  refine does_load (M := fun l => l.frame = (μ b).data ∧ l.sending = none) List.mem_cons_self
    (fun l h => ⟨rfl, h⟩) ?_
  split
  · exact does_bare (fun _ h => h.2) (drop_bare _ _)
  · rename_i hok
    have hl : 34 ≤ (μ b).len := le_len_of_headerOk (by simpa using hok)
    refine does_step (M := fun _ l => l.frame = (μ b).data ∧ l.sending = none) (fun _ _ => trivial)
      (fun _ h => by cases h) (fun l _ h => h) fun action => ?_
    split
    · exact does_bare (fun _ h => h.2) (drop_bare _ _)
    · refine does_step (M := fun _ l => l.frame = (μ b).data ∧ l.sending = none)
        (fun _ _ => trivial) (fun _ h => by cases h) (fun l _ h => h) fun ifs => ?_
      split
      · exact does_bare (fun _ h => h.2) ⟨rfl, fun _ => ⟨rfl, fun _ => trivial⟩⟩
      · refine does_step
          (M := fun ifs l => l.frame = (μ b).data ∧ l.ifaces = ifs ∧ l.sending = none)
          (fun _ _ => trivial) (fun _ h => by cases h) (fun l _ h => ⟨h.1, rfl, h.2⟩) fun ifs => ?_
        cases hit : ifs.find? (·.covers (getBe32 (μ b).data 30)) with
        | some it =>
            refine (does_forwardTo hl).pre fun x h => h.mono (fun l hl => ⟨?_, hl.2.2⟩) fun _ h => h
            simp only [Local.choice, hl.1, hl.2.1, hit]
        | none =>
            refine does_step (M := fun rt l => l.frame = (μ b).data ∧ l.ifaces = ifs ∧
                l.route = rt ∧ l.sending = none) (fun _ _ => trivial) (fun _ h => by cases h)
              (fun l _ h => ⟨h.1, h.2.1, rfl, h.2.2⟩) fun rt => ?_
            cases rt with
            | none => exact does_bare (fun _ h => h.2.2.2) (drop_bare _ _)
            | some rt =>
                refine (does_forwardTo hl).pre fun x h =>
                  h.mono (fun l hl => ⟨?_, hl.2.2.2⟩) fun _ h => h
                simp only [Local.choice, hl.1, hl.2.1, hit, hl.2.2.1, Option.map_some]

/-! ### The rounds -/

/-- An ARP answer, and the flush behind it. -/
theorem does_arpAnswer {b : Block} {i : CInt} {spa tpa : Ip} :
    Does F t (Calm t) (arpAnswer b i spa tpa) fun _ => Calm t := by
  refine (calm_of_bare (arpOurs_bare tpa)).bind fun it => ?_
  cases it with
  | none => exact calm_of_every ⟨rfl, fun _ => trivial⟩
  | some it =>
      refine (calm_of_bare (arpRespond_bare b i it)).bind fun _ => ?_
      refine (does_forwardFlushPending (spa, i)).bind fun _ => ?_
      exact calm_of_every ⟨rfl, fun _ => trivial⟩

theorem does_arpHandleFrame {b : Block} {i : CInt} :
    Does F t (Calm t) (arpHandleFrame b i) fun _ => Calm t := by
  simp only [LinuxRouter.arpHandleFrame, Prog.perform_bind]
  have hrest : ∀ f spa tpa, Does F t (Calm t)
      (if getBe16 f 20 ≠ arpOperReq then Prog.perform (.mpFree b)
        else LinuxRouter.arpAnswer b i spa tpa) fun _ => Calm t := by
    intro f spa tpa
    split
    · exact calm_of_every ⟨rfl, fun _ => trivial⟩
    · exact does_arpAnswer
  refine calm_step rfl fun f => ?_
  split
  · exact calm_of_bare (drop_bare _ _)
  · refine calm_step rfl fun ifs => ?_
    split
    · exact calm_step rfl fun _ => hrest _ _ _
    · exact hrest _ _ _

theorem does_rxFrame {b : Block} {r : Rx} : Does F t (Calm t) (rxFrame b r) fun _ => Calm t := by
  have hdrop : Does F t (Calm t) (.cmd (.count .drop) fun _ => Prog.perform (.mpFree b))
      fun _ => Calm t := calm_of_every ⟨rfl, fun _ => ⟨rfl, fun _ => trivial⟩⟩
  simp only [LinuxRouter.rxFrame, rxDispatch, Prog.perform_bind]
  refine calm_step rfl fun _ => calm_step rfl fun _ => calm_step rfl fun ifs => ?_
  split
  · exact calm_of_bare (drop_bare _ _)
  · split
    · exact calm_of_bare (drop_bare _ _)
    · refine calm_step rfl fun f => ?_
      split
      · exact does_arpHandleFrame
      · split
        · refine calm_step rfl fun ok => ?_
          split
          · exact calm_ret fun _ h => h
          · exact hdrop
        · exact hdrop

theorem does_rxRound : Does F t (Calm t) rxRound fun _ => Calm t := by
  simp only [LinuxRouter.rxRound, Prog.perform_bind]
  refine calm_step rfl fun stop => ?_
  split
  · exact calm_ret fun _ h => h
  · refine calm_step rfl fun b => ?_
    cases b with
    | none => exact calm_ret fun _ h => h
    | some b =>
        refine calm_step rfl fun r => ?_
        cases r with
        | none => exact calm_step rfl fun _ => calm_ret fun _ h => h
        | some r => exact does_rxFrame.bind fun _ => calm_ret fun _ h => h

/-- The requests of the timer, and the flushes behind them. -/
theorem does_retryKeys (ks : List Key) : Does F t (Calm t) (retryKeys ks) fun _ => Calm t := by
  induction ks with
  | nil => exact calm_ret fun _ h => h
  | cons k ks ih =>
      refine (calm_of_modest (arpRequest_modest k)).bind fun _ => ?_
      exact (does_forwardFlushPending k).bind fun _ => ih

theorem does_timerRound : Does F t (Calm t) timerRound fun _ => Calm t := by
  simp only [LinuxRouter.timerRound, pendTick, Prog.perform_bind, Prog.cmd_bind]
  refine calm_step rfl fun stop => ?_
  split
  · exact calm_ret fun _ h => h
  · refine calm_step rfl fun stop => ?_
    split
    · exact calm_ret fun _ h => h
    · refine calm_step rfl fun _ => calm_step rfl fun w => Does.bind ?_ fun _ =>
        calm_ret fun _ h => h
      exact (calm_of_bare (countExpired_bare _)).bind fun _ => does_retryKeys _

/-- A worker has the block it takes in hand. -/
theorem does_take {k : Dequeued → Act α}
    (hr : ∀ a, (∀ b, a ≠ .task (some b)) → Does F t (Calm t) (k a) Q)
    (hk : ∀ μ χ b, Does F t (Carrying t (fun l => l.sending = none) [b] μ χ) (k (.task (some b))) Q) :
    Does F t (Calm t) (.cmd .tpoolTake k) Q := by
  intro x hx
  refine does_cmd (c := .tpoolTake) (L := fun l => l.sending = none) (B := []) (μ := x.shared.mem)
    (χ := x.view.chosen) (K := fun a x => Calm t x ∧ ∀ b, a = .task (some b) → b ∈ x.ghost t)
    (fun _ _ => trivial) (fun x e h _ hok => ⟨?_, fun b hb => ?_⟩) (fun a => ?_) x hx.carrying
  · exact (h.exec (M := fun l => l.sending = none) hok (fun _ hb => nomatch hb) fun _ hl => hl).seen
  · have hg : (Watched.exec dataPlane observe t .tpoolTake e x).2.ghost t =
        hold .tpoolTake x.shared (LinuxRouter.exec .tpoolTake e x.shared).1 (x.ghost t) :=
      Function.update_self _ _ _
    rw [hg, hb]
    exact List.mem_cons_self
  · rintro x ⟨hx, hb⟩
    rcases a with _ | _ | _ | b
    · exact hr .wait (fun b h => nomatch h) x hx
    · exact hr .exit (fun b h => nomatch h) x hx
    · exact hr (.task none) (fun b h => nomatch h) x hx
    · refine hk x.shared.mem x.view.chosen b x ⟨hx, fun c hc => ?_, fun _ _ => rfl, fun _ _ => rfl⟩
      obtain rfl := List.mem_singleton.mp hc
      exact hb c rfl

theorem does_workerRound : Does F t (Calm t) workerRound fun _ => Calm t := by
  simp only [LinuxRouter.workerRound, Prog.perform_bind]
  refine does_take (fun a ha => ?_) fun μ χ b => ?_
  · rcases a with _ | _ | _ | b
    · exact calm_ret fun _ h => h
    · exact calm_ret fun _ h => h
    · exact calm_ret fun _ h => h
    · exact absurd rfl (ha b)
  · exact does_forwardTask.bind fun _ => calm_ret fun _ h => h

theorem does_round (l : Unit) : Does F t (Calm t) (round t l) fun _ => Calm t := by
  cases t with
  | rx => exact does_rxRound
  | timer => exact does_timerRound
  | worker i => exact does_workerRound

end Rules

/-! ### Runs -/

/-- Nothing read, nothing chosen. -/
def View.start : View where
  seen _ := { frame := [], ifaces := [], route := none, found := none, sending := none }
  chosen _ := none

/-- The frame and the interface index that a thread is about to pass to `pkt_send`. -/
def sendsNext : Program.Thread (By Tid Cmd) Unit → Option (List Byte × CInt)
  | .running (.cmd ⟨_, .pktSend f i⟩ _) => some (f, i)
  | _ => none

/-- The block that a thread is about to free. -/
def freesNext : Program.Thread (By Tid Cmd) Unit → Option Block
  | .running (.cmd ⟨_, .mpFree b⟩ _) => some b
  | _ => none

/-- Every thread that is in `forward_send` sends its frame as it was chosen, and gives up none whose
interface is in the table. -/
def LeavesAsChosen (y : Config (By Tid Cmd) Observed Tid Tid Unit) : Prop :=
  ∀ t b mac, (y.shared.view.seen t).sending = some (b, mac) →
    (∀ f i, sendsNext (y.thread t) = some (f, i) →
      SentRight (y.shared.view.seen t) y.shared.view b mac f i) ∧
    (freesNext (y.thread t) ≠ none → GivenUpRight (y.shared.view.seen t) y.shared.view b mac)

/-- A thread that is about to send. -/
theorem sendsNext_eq_some {th : Program.Thread (By Tid Cmd) Unit} {f : List Byte} {i : CInt}
    (h : sendsNext th = some (f, i)) :
    ∃ u k, th = .running (.cmd ⟨u, .pktSend f i⟩ k) := by
  unfold sendsNext at h
  split at h
  · cases h
    exact ⟨_, _, rfl⟩
  · cases h

/-- A thread that is about to free. -/
theorem freesNext_ne_none {th : Program.Thread (By Tid Cmd) Unit} (h : freesNext th ≠ none) :
    ∃ u b k, th = .running (.cmd ⟨u, .mpFree b⟩ k) := by
  unfold freesNext at h
  split at h
  · exact ⟨_, _, _, rfl⟩
  · exact absurd rfl h

section Runs

variable {F : Key → Prop} {ifs : Ifaces} {routes : List Route} {rules : List FwRule} {proxy : Bool}
  {clz0 : CInt} {m : Mem} {y : Config (By Tid Cmd) Observed Tid Tid Unit}

section Watched

variable {γ : Type} {watch : ∀ ⦃β : Type⦄, Tid → Cmd β → Plane → β → γ → γ} {v : γ}
  {ok : ∀ ⦃β : Type⦄, Tid → By Tid Cmd β → Env → Watched Plane (List Block) Tid γ → Prop}
  {y : Config (By Tid Cmd) (Watched Plane (List Block) Tid γ) Tid Tid Unit}

/-- Whoever watches, a run keeps the data plane in order. -/
theorem watched_inv (h : Reach (dataPlane.watched watch) ok
    ((Plane.init ifs routes rules proxy clz0 m).start.shadow v) y) :
    PlaneInv y.shared.shared y.shared.ghost := by
  obtain ⟨x, v, rfl, hx⟩ := Program.watched_run (fun _ t c e x _ => recvOk_false t c e x.shared) h
  exact (reach_good hx).1

/-- Every command finds it in order. -/
theorem watched_inOrder (h : Reach (dataPlane.watched watch) ok
      ((Plane.init ifs routes rules proxy clz0 m).start.shadow v) y) {t : Tid} {β : Type}
    {c : By Tid Cmd β} {k : β → Prog (By Tid Cmd) (Option Unit)}
    (ht : y.thread t = .running (.cmd c k)) :
    PlaneInv y.shared.shared y.shared.ghost ∧
      pre t c.cmd (y.shared.ghost t) y.shared.shared := by
  obtain ⟨x, v, rfl, hx⟩ := Program.watched_run (fun _ t c e x _ => recvOk_false t c e x.shared) h
  obtain ⟨c, k, ht', rfl, rfl⟩ := Program.tag_eq_cmd ht
  have hg := reach_good hx
  have hrun := hg.2 t
  rw [ht'] at hrun
  exact ⟨hg.1, (hrun _ ((discipline false).rely_refl _ _)
    ((discipline false).fact_of_inv t hg.1)).1⟩

end Watched

/-- Every step of a run finds the data plane in order. -/
theorem egress_reach
    (h : Reach (dataPlane.watched observe) (aimsOk F)
      ((Plane.init ifs routes rules proxy clz0 m).start.shadow .start) y) :
    Reach (dataPlane.watched observe) (egressOk F)
      ((Plane.init ifs routes rules proxy clz0 m).start.shadow .start) y := by
  refine Reach.refine (fun y hy β t c k e ht hok => ?_) h
  obtain ⟨hi, hp⟩ := watched_inOrder hy ht
  exact ⟨hi, hp, hok⟩

/-- At the start nothing is parked. -/
theorem addressed_init : Addressed F (.init ifs routes rules proxy clz0 m) .start := by
  intro k b hk
  obtain ⟨i, hb, -⟩ := (PendRep.init m).parked_iff.mp hk
  cases hb

/-- **A thread that is about to run a command keeps the discipline.** -/
theorem egressPre_of_reach
    (h : Reach (dataPlane.watched observe) (aimsOk F)
      ((Plane.init ifs routes rules proxy clz0 m).start.shadow .start) y) {t : Tid} {β : Type}
    {c : By Tid Cmd β} {k : β → Prog (By Tid Cmd) (Option Unit)}
    (ht : y.thread t = .running (.cmd c k)) : egressPre F t c.cmd y.shared := by
  have hgood : (egress F).Good (fun t _ g x => g = t ∧ Calm t x) y := by
    refine Discipline.sound ?_ ?_ ?_ (egress_reach h)
    · rintro t l g x x' ⟨rfl, hc⟩ hu -
      exact ⟨rfl, (congrArg Local.sending hu.seen).trans hc⟩
    · rintro t l g x ⟨rfl, hc⟩
      exact (does_round l x hc).mono fun r u x hq _ _ => hq
    · exact ⟨⟨fun t => rfl, addressed_init⟩, fun t => ⟨rfl, rfl⟩⟩
  have hrun := hgood.2 t
  rw [ht] at hrun
  exact (hrun _ ((egress F).rely_refl _ _) ((egress F).fact_of_inv t hgood.1)).1.2

/-- **Every frame leaves as it was chosen**, in the runs in which every interface index that
`forward_task` chooses fits the header's field, which has eight bits.  How long the frame waits for its
next hop does not matter, nor which thread sends it in the end. -/
theorem leaves_right
    (h : Reach (dataPlane.watched observe) fitsHeader
      ((Plane.init ifs routes rules proxy clz0 m).start.shadow .start) y) : LeavesAsChosen y := by
  have h : Reach (dataPlane.watched observe) (aimsOk Fits)
      ((Plane.init ifs routes rules proxy clz0 m).start.shadow .start) y := h
  refine fun t b mac hs => ⟨fun f i hf => ?_, fun hf => ?_⟩
  · obtain ⟨u, k, ht⟩ := sendsNext_eq_some hf
    obtain ⟨k, out, hk, hch, hfound, hi, hout, hdst, hsrc⟩ := egressPre_of_reach h ht b mac hs
    rw [hk.back] at hi hout
    exact ⟨k, out, hch, hfound, hi, hout, hdst, hsrc⟩
  · obtain ⟨u, b', k, ht⟩ := freesNext_ne_none hf
    obtain ⟨k, hk, hch, hfound, hout⟩ := egressPre_of_reach h ht b mac hs
    rw [hk.back] at hout
    exact ⟨k, hch, hfound, hout⟩

end Runs

/-! ### An index that does not fit -/

/-- A frame that is about to be sent by another interface than the one chosen. -/
theorem not_leaves {y : Config (By Tid Cmd) Observed Tid Tid Unit} (t : Tid) (b : Block) (mac : Mac)
    (k : Key) (i : CInt) (hs : (y.shared.view.seen t).sending = some (b, mac))
    (hk : y.shared.view.chosen b = some k) (hi : (sendsNext (y.thread t)).map (·.2) = some i)
    (hne : i ≠ k.2) : ¬ LeavesAsChosen y := by
  intro hl
  obtain ⟨⟨f, i⟩, hf, rfl⟩ := Option.map_eq_some_iff.mp hi
  obtain ⟨k', out, hk', -, hi, -⟩ := (hl t b mac hs).1 f i hf
  obtain rfl : k = k' := Option.some.inj (hk.symm.trans hk')
  exact hne hi

/-- A router between 10.0.0.1/24, on the interface 1, and 10.1.0.1/24, on the interface `i`. -/
def Plane.ports (i : CInt) : Plane :=
  .init [.subnet (Text.lit "eth0") 0x0a000001 24 1, .subnet (Text.lit "eth1") 0x0a010001 24 i] [] []
    false 0 fun _ => { next := none, len := 0, outIfidx := 0, nexthop := 0, data := [] }

/-- A frame for the router, received on the interface `i`. -/
def Env.receives (i : CInt) (f : List Byte) (h : f ≠ [] ∧ f.length ≤ mpPayload) : Env where
  clock := 0
  heap := none
  recv := some { bytes := f, ne_nil := h.1, le_payload := h.2, outgoing := false, ifindex := i }
  sent := true

/-- An ARP reply of 10.1.0.2. -/
def replyFrame : List Byte :=
  List.replicate 12 2 ++ [8, 6, 0, 1, 8, 0, 6, 4, 0, 2] ++ List.replicate 6 2 ++ [10, 1, 0, 2] ++
    List.replicate 10 0

/-- A datagram for 10.1.0.2. -/
def datagramFrame : List Byte :=
  List.replicate 12 2 ++ [8, 0, 0x45, 0, 0, 20, 0, 0, 0, 0, 64] ++ List.replicate 7 0 ++ [10, 1, 0, 2]

/-- The reply comes in on the interface `i` and the datagram on the other one, and a worker forwards
the datagram up to its `pkt_send`. -/
def forwards (i : CInt) : List (Tid × Env) :=
  let reply := Env.receives i replyFrame ⟨by decide, by decide⟩
  let datagram := Env.receives 1 datagramFrame ⟨by decide, by decide⟩
  List.replicate 13 (.rx, reply) ++ List.replicate 10 (.rx, datagram) ++
    List.replicate 12 (.worker ⟨0, poolThreads_pos⟩, datagram)

/-- The run with the interface 2. -/
theorem leaves_right_ports :
    LeavesAsChosen (Program.play (dataPlane.watched observe) (forwards 2)
      ((Plane.ports 2).start.shadow .start)) :=
  leaves_right (Program.PlayOk.reach (by decide +kernel))

/-- **An interface index above 255.**  The datagram is chosen the interface 257, and leaves by the
interface 1. -/
theorem leaves_wrong :
    ¬ ∀ y, Reach (dataPlane.watched observe) Program.anyStep
      ((Plane.ports 257).start.shadow .start) y → LeavesAsChosen y := by
  intro h
  refine not_leaves (.worker ⟨0, by decide⟩) (.pool ⟨1023, by decide⟩) (Vector.replicate 6 2)
    (0x0a010002, 257) 1 ?_ ?_ ?_ ?_
    (h _ (Program.play_reach (w := forwards 257) (fun _ _ _ _ _ => trivial) _))
  all_goals decide +kernel

end LinuxRouter
