import LinuxRouter.Plane.Rewrite

/-!
# Plane — where a destination MAC comes from

Runs with a fixed interface table, and an observer that keeps every frame received (`hear`).

* `Teaches`: the frame that `arp_insert` is called for.
* `Sourced` is the invariant: every entry of the ARP table comes from such a frame, on the interface
  of its key.
* `hearing` is the discipline of the threads: who inserts an entry has received the frame.
* `macs_learned`: every frame that `forward_send` transmits has a MAC that the next hop chosen for it
  has sent, on the interface chosen for it.

What is learned travels through shared memory: a frame is received into a block, read by the receive
loop, and its sender is put into the ARP table; much later another thread finds the entry.  Two
invariants meet.  The table's entries have each been taught by a frame that was heard (`Sourced`),
because the one function that inserts has just read the bytes from its own block, where nobody else
writes.  And a thread that sends has looked its MAC up under the chosen key (`Egress`); a MAC found
is that of an entry.  `recorded_of_ip` says that these are all the IP frames there are.
-/

namespace LinuxRouter

open Program (Prog Config Discipline Reach Watched By)

/-! ### Frames received -/

/-- The frame `r` teaches the router that the next hop `k` has the address `mac`: it came in on the
interface, it is a well-formed ARP frame of the next hop, and the next hop is in the interface's
subnet. -/
structure Teaches (ifs : Ifaces) (k : Key) (mac : Mac) (r : Rx) : Prop where
  incoming : r.outgoing = false
  arp : getBe16 r.bytes 12 = etherTypeArp
  ok : arpFrameOk r.bytes r.bytes.length = true
  port : r.ifindex = k.2
  sender : getBe32 r.bytes 28 = k.1
  mac : macAt r.bytes 22 = mac
  subnet : learns ifs k.2 k.1 = true

/-- The router has heard it. -/
def Taught (ifs : Ifaces) (rs : List Rx) (k : Key) (mac : Mac) : Prop := ∃ r ∈ rs, Teaches ifs k mac r

theorem Taught.mono {ifs : Ifaces} {rs rs' : List Rx} {k : Key} {mac : Mac} (h : Taught ifs rs k mac)
    (hr : ∀ r ∈ rs, r ∈ rs') : Taught ifs rs' k mac := by
  obtain ⟨r, hm, ht⟩ := h
  exact ⟨r, hr r hm, ht⟩

/-- The block holds what was received. -/
structure Received (f : FwdFrame) (r : Rx) : Prop where
  len : f.len = r.bytes.length
  bytes : ∀ i < r.bytes.length, byteAt f.data i = byteAt r.bytes i

namespace Received

variable {f : FwdFrame} {r : Rx} {i : ℕ}

/-- What `recvfrom` and the receive loop write. -/
theorem write (p : FwdFrame) (r : Rx) :
    Received ((p.write (.data (blit p.data 0 r.bytes))).write (.len (r.bytes.length % 2 ^ 16))) r where
  len := by
    have hl := r.le_payload
    have hp : mpPayload < 2 ^ 16 := by decide
    exact Nat.mod_eq_of_lt (by omega)
  bytes _ hi := byteAt_blit_zero hi

/-- A 16-bit field of a received frame. -/
theorem getBe16 (h : Received f r) (hi : i + 1 < r.bytes.length) :
    getBe16 f.data i = LinuxRouter.getBe16 r.bytes i :=
  getBe16_congr fun n hn => h.bytes _ (by omega)

/-- A 32-bit field of a received frame. -/
theorem getBe32 (h : Received f r) (hi : i + 3 < r.bytes.length) :
    getBe32 f.data i = LinuxRouter.getBe32 r.bytes i :=
  getBe32_congr fun n hn => h.bytes _ (by omega)

/-- A MAC of a received frame. -/
theorem macAt (h : Received f r) (hi : i + 5 < r.bytes.length) :
    macAt f.data i = LinuxRouter.macAt r.bytes i := by
  refine Vector.ext fun j hj => ?_
  simp only [LinuxRouter.macAt, Vector.getElem_ofFn]
  exact h.bytes _ (by omega)

/-- An ARP frame in the block was received as one. -/
theorem arpFrameOk (h : Received f r) (hok : arpFrameOk f.data f.len = true) :
    42 ≤ r.bytes.length ∧ LinuxRouter.arpFrameOk r.bytes r.bytes.length = true := by
  have hl : 42 ≤ r.bytes.length := by
    simp only [LinuxRouter.arpFrameOk, Bool.and_eq_true, decide_eq_true_eq] at hok
    exact h.len ▸ hok.1.1.1.1
  refine ⟨hl, ?_⟩
  rw [← hok]
  simp only [LinuxRouter.arpFrameOk, h.len, h.getBe16 (i := 14) (by omega),
    h.getBe16 (i := 16) (by omega), h.bytes 18 (by omega), h.bytes 19 (by omega)]

/-- What `arp_handle_frame` reads of the block, it reads of the frame. -/
theorem teaches {ifs : Ifaces} (h : Received f r) (hr : r.outgoing = false)
    (ha : LinuxRouter.getBe16 f.data 12 = etherTypeArp)
    (hok : LinuxRouter.arpFrameOk f.data f.len = true)
    (hs : learns ifs r.ifindex (LinuxRouter.getBe32 f.data 28) = true) :
    Teaches ifs (LinuxRouter.getBe32 f.data 28, r.ifindex) (LinuxRouter.macAt f.data 22) r := by
  obtain ⟨h₄₂, hok⟩ := h.arpFrameOk hok
  refine ⟨hr, ?_, hok, rfl, ?_, ?_, hs⟩
  · rw [← ha, h.getBe16 (by omega)]
  · exact (h.getBe32 (by omega)).symm
  · exact (h.macAt (by omega)).symm

end Received

/-! ### The observer -/

/-- Every frame received, newest first. -/
def hear : ∀ ⦃β : Type⦄, Tid → Cmd β → Plane → β → List Rx → List Rx
  | _, _, .recvfrom _, _, some r, rs => r :: rs
  | _, _, _, _, _, rs => rs

theorem hear_grows {β : Type} (t : Tid) (c : Cmd β) (s : Plane) (a : β) (rs : List Rx) :
    ∀ r ∈ rs, r ∈ hear t c s a rs := by
  intro r hr
  cases c with
  | recvfrom b =>
      cases a with
      | none => exact hr
      | some r' => exact List.mem_cons_of_mem r' hr
  | _ => exact hr

/-- The data plane with a fixed interface table. -/
abbrev steady : Program.System Cmd Env Plane (List Block) Tid Unit :=
  { dataPlane with admin := fun s s' => Admin s s' ∧ s'.ifaces = s.ifaces }

/-- The state with the frames heard. -/
abbrev Listened := Watched Plane (List Block) Tid (List Rx)

/-- Every entry of the ARP table comes from a frame that was received. -/
def Sourced (ifs : Ifaces) (t : ArpTable) (rs : List Rx) : Prop :=
  ∀ i, (t.entry i).used = true → Taught ifs rs (t.entry i).key (t.entry i).mac

/-- At the start the table is empty. -/
theorem Sourced.init (ifs : Ifaces) (rs : List Rx) : Sourced ifs arpInit rs :=
  fun _ hu => nomatch hu

/-- A call of the table keeps its sources, if what it inserts has one. -/
theorem Sourced.call {ifs : Ifaces} {t t' : ArpTable} {rs : List Rx} {now : ℕ} {c : ArpCall}
    (h : Sourced ifs t rs) (ht : ArpSane t) (hc : t.call now c = some t')
    (hi : ∀ k mac, c = .insert k mac → Taught ifs rs k mac) : Sourced ifs t' rs := by
  intro i hu
  rcases ht.entry_call hc hu with ⟨mac, hins, hv⟩ | ⟨hu', hk, hm, -⟩
  · obtain ⟨rfl, -⟩ := Prod.ext_iff.mp hv
    exact hi _ _ hins
  · rw [hk, hm]
    exact h i hu'

/-- What a lookup finds has a source. -/
theorem Sourced.resolve {ifs : Ifaces} {t : ArpTable} {rs : List Rx} {k : Key} {mac : Mac}
    (h : Sourced ifs t rs) (ht : ArpSane t) (hr : t.resolve k = some mac) : Taught ifs rs k mac := by
  obtain ⟨_, hrep⟩ := ht.rep
  obtain ⟨e, he, rfl⟩ := Option.map_eq_some_iff.mp hr
  obtain ⟨i, hu, rfl, rfl⟩ := hrep.view_eq_some.mp he
  exact h i hu

/-! ### The discipline -/

/-- What a thread ensures before a command. -/
def hearingPre (ifs : Ifaces) : ∀ ⦃β : Type⦄, Cmd β → Listened → Prop
  | _, .arpInsert k mac, x => Taught ifs x.view k mac
  | _, _, _ => True

/-- What is known of every step of a run. -/
def hearingOk : ∀ ⦃β : Type⦄, Tid → By Tid Cmd β → Env → Listened → Prop :=
  fun _ t c _ x => PlaneInv x.shared x.ghost ∧ pre t c.cmd (x.ghost t) x.shared

/-- What a thread may rely on: its blocks, and what was received. -/
structure Undisturbed (t : Tid) (x x' : Listened) : Prop where
  hand : x'.ghost t = x.ghost t
  mem : ∀ b ∈ x.ghost t, x'.shared.mem b = x.shared.mem b
  heard : ∀ r ∈ x.view, r ∈ x'.view

theorem exec_ifaces {β : Type} (c : Cmd β) (e : Env) (s : Plane) : (exec c e s).2.ifaces = s.ifaces := by
  cases c with
  | recvfrom b =>
      rw [exec]
      cases e.recv <;> rfl
  | _ => rfl

/-- **Every command keeps the sources** of the ARP table. -/
theorem Sourced.exec {ifs : Ifaces} {x : Listened} {t : Tid} {β : Type} {c : Cmd β} {e : Env}
    (h : Sourced ifs x.shared.arp x.view) (ha : ArpSane x.shared.arp) (hp : hearingPre ifs c x) :
    Sourced ifs (Watched.exec steady hear t c e x).2.shared.arp
      (Watched.exec steady hear t c e x).2.view := by
  have hmore : ∀ t', Sourced ifs t' x.view →
      Sourced ifs t' (Watched.exec steady hear t c e x).2.view := fun t' h i hu =>
    (h i hu).mono (hear_grows _ _ _ _ _)
  refine hmore _ ?_
  cases c with
  | arpLookup k => exact h.call (c := .lookup k) ha rfl fun _ _ h => by cases h
  | arpInsert k mac =>
      obtain ⟨t', he, -, -⟩ := ha.insert e.clock k mac
      have hins : Sourced ifs t' x.view := h.call (c := .insert k mac) ha he fun k' mac' hc => by
        cases hc
        exact hp
      have harp : (LinuxRouter.exec (.arpInsert k mac) e x.shared).2.arp = t' := by
        simp only [LinuxRouter.exec, he, Option.getD_some]
      exact harp ▸ hins
  | arpTick => exact h.call (c := .tick) ha rfl fun _ _ h => by cases h
  | recvfrom b =>
      have harp : (LinuxRouter.exec (.recvfrom b) e x.shared).2.arp = x.shared.arp := by
        rw [LinuxRouter.exec]
        cases e.recv <;> rfl
      exact harp ▸ h
  | _ => exact h

/-- The discipline of what is heard.  A thread's ghost value is its number. -/
def hearing (ifs : Ifaces) : Discipline (steady.watched hear) hearingOk where
  inv x g := (∀ t, g t = t) ∧ Sourced ifs x.shared.arp x.view ∧ x.shared.ifaces = ifs
  fact _ x := x.shared.ifaces = ifs
  pre _ t c _ x := c.thread = t ∧ hearingPre ifs c.cmd x
  rely t x x' := Undisturbed t x x'
  rely_refl _ _ := ⟨rfl, fun _ _ => rfl, fun _ h => h⟩
  rely_trans h h' :=
    ⟨h'.hand.trans h.hand, fun b hb => (h'.mem b (h.hand ▸ hb)).trans (h.mem b hb),
      fun r hr => h'.heard r (h.heard r hr)⟩
  fact_of_inv _ h := h.2.2
  exec_inv := by
    rintro x g t β ⟨u, c⟩ e ⟨hg, hs, hi⟩ ⟨rfl, hq⟩ ⟨⟨_, _, _, _, ho⟩, hp⟩
    refine ⟨fun t => ?_, hs.exec ho.arp hq, (exec_ifaces c e x.shared).trans hi⟩
    by_cases ht : t = u
    · subst ht
      rw [Function.update_self]
      exact hg _
    · rw [Function.update_of_ne ht]
      exact hg t
  exec_rely := by
    rintro x g t β ⟨u, c⟩ e ⟨hg, -⟩ ⟨rfl, -⟩ ⟨ho, hp⟩ t' ht
    rw [hg]
    exact ⟨Function.update_of_ne ht _ _, fun b hb => ho.exec_mem e hp ht hb, hear_grows _ _ _ _ _⟩
  admin_inv := by
    rintro x ⟨s, gs, v⟩ g ⟨hg, hs, hi⟩ ⟨⟨hadmin, hifs⟩, rfl, rfl⟩
    refine ⟨hg, ?_, hifs.trans hi⟩
    dsimp only at hadmin ⊢
    cases hadmin with
    | arpTimeout sec =>
        intro i hu
        have he : (arpSetTimeout sec x.shared.arp).entry = x.shared.arp.entry := by
          unfold arpSetTimeout
          split <;> rfl
        rw [he] at hu ⊢
        exact hs i hu
    | _ => exact hs
  admin_rely := by
    rintro x ⟨s, gs, v⟩ g t - ⟨⟨hadmin, -⟩, rfl, rfl⟩
    refine ⟨rfl, fun b _ => ?_, fun _ h => h⟩
    dsimp only at hadmin ⊢
    cases hadmin <;> rfl

/-! ### Programs -/

/-- From `P` on, the program of the thread keeps the discipline. -/
def Hears (ifs : Ifaces) (t : Tid) (P : Listened → Prop) (p : Act α) : Prop :=
  ∀ x, P x → (hearing ifs).Ok t (fun _ u _ => u = t) (p.tag t) t x

/-- The thread has the block in hand, which satisfies `φ`, and has received `rs`. -/
structure Got (t : Tid) (b : Block) (φ : FwdFrame → Prop) (rs : List Rx) (x : Listened) : Prop where
  hand : b ∈ x.ghost t
  mem : φ (x.shared.mem b)
  heard : ∀ r ∈ rs, r ∈ x.view

/-- A command that teaches nothing may always come. -/
theorem hearingPre_of_inserts {ifs : Ifaces} {β : Type} {c : Cmd β} (hc : c.inserts = false)
    (x : Listened) : hearingPre ifs c x := by
  cases c with
  | arpInsert k mac => cases hc
  | _ => trivial

section Rules

variable {α β : Type} {ifs : Ifaces} {t : Tid} {b : Block} {φ : FwdFrame → Prop} {rs : List Rx}
  {P : Listened → Prop} {x x' : Listened} {c : Cmd β} {k : β → Act α}

/-- A block in hand is left alone by the others. -/
theorem Got.undisturbed (h : Got t b φ rs x) (hu : Undisturbed t x x') : Got t b φ rs x' where
  hand := hu.hand ▸ h.hand
  mem := (hu.mem b h.hand).symm ▸ h.mem
  heard r hr := hu.heard r (h.heard r hr)

theorem hears_ret (a : α) : Hears ifs t P (.ret a) := fun _ _ _ _ _ => rfl

theorem Hears.pre {P' : Listened → Prop} {p : Act α} (h : Hears ifs t P p) (hP : ∀ x, P' x → P x) :
    Hears ifs t P' p := fun x hx => h x (hP x hx)

theorem Hears.bind {p : Act β} {f : β → Act α} (hp : Hears ifs t P p)
    (hf : ∀ b, Hears ifs t (fun _ => True) (f b)) : Hears ifs t P (p >>= f) := by
  intro x hx
  rw [Prog.tag_bind]
  refine Discipline.Ok.bind ((hp x hx).mono ?_)
  rintro b _ x rfl
  exact hf b x trivial

/-- A command. -/
theorem hears_cmd {K : β → Listened → Prop}
    (hP : ∀ x x', P x → Undisturbed t x x' → P x')
    (hq : ∀ x, P x → hearingPre ifs c x)
    (hx : ∀ x e, P x → x.shared.ifaces = ifs → hearingOk t ⟨t, c⟩ e x →
      K (exec c e x.shared).1 (Watched.exec steady hear t c e x).2)
    (hk : ∀ a, Hears ifs t (K a) (k a)) : Hears ifs t P (.cmd c k) := by
  intro x h x' hu hf
  have h' := hP x x' h hu
  exact ⟨⟨rfl, hq x' h'⟩, fun e hok => hk _ _ (hx x' e h' hf hok)⟩

/-- **A program that inserts nothing**, whatever the state. -/
theorem hears_of_every {p : Act α} (hp : p.Every fun _ c => c.inserts = false) :
    Hears ifs t P p := by
  suffices h : Hears ifs t (fun _ => True) p from h.pre fun _ _ => trivial
  induction p with
  | ret a => exact hears_ret a
  | cmd c k ih =>
      exact hears_cmd (K := fun _ _ => True) (fun _ _ _ _ => trivial)
        (fun x _ => hearingPre_of_inserts hp.1 x) (fun _ _ _ _ _ => trivial) fun a => ih a (hp.2 a)

/-- What the thread has got stays, if a command leaves the block alone. -/
theorem Got.exec {e : Env} (h : Got t b φ rs x) (hok : hearingOk t ⟨t, c⟩ e x)
    (hc : c.touches ≠ some b) : Got t b φ rs (Watched.exec steady hear t c e x).2 := by
  obtain ⟨_, _, _, _, ho⟩ := hok.1
  refine ⟨?_, ?_, fun r hr => hear_grows _ _ _ _ _ r (h.heard r hr)⟩
  · have hg : (Watched.exec steady hear t c e x).2.ghost t =
        hold c x.shared (LinuxRouter.exec c e x.shared).1 (x.ghost t) := Function.update_self _ _ _
    rw [hg]
    exact mem_hold h.hand hc _ _
  · have hm : (Watched.exec steady hear t c e x).2.shared.mem b = x.shared.mem b :=
      ho.exec_mem e hc (ho.owner_ne_free h.hand)
    rw [hm]
    exact h.mem

/-- A command that leaves the block alone. -/
theorem got_step (hi : c.inserts = false) (hc : c.touches ≠ some b)
    (hk : ∀ a, Hears ifs t (Got t b φ rs) (k a)) : Hears ifs t (Got t b φ rs) (.cmd c k) :=
  hears_cmd (K := fun _ => Got t b φ rs) (fun _ _ h hu => h.undisturbed hu)
    (fun x _ => hearingPre_of_inserts hi x) (fun _ _ h _ hok => h.exec hok hc) hk

/-- A block that is read stays as it was read. -/
theorem got_load {k : FwdFrame → Act α} (hk : ∀ f, φ f → Hears ifs t (Got t b (· = f) rs) (k f)) :
    Hears ifs t (Got t b φ rs) (.cmd (.load b) k) := by
  refine hears_cmd (K := fun f x => φ f ∧ Got t b (· = f) rs x) (fun _ _ h hu => h.undisturbed hu)
    (fun _ _ => trivial) (fun x e h _ hok => ⟨h.mem, ?_⟩) fun f => ?_
  · have h' : Got t b (· = x.shared.mem b) rs x := ⟨h.hand, rfl, h.heard⟩
    exact h'.exec hok fun hc => nomatch hc
  · rintro x ⟨hf, hx⟩
    exact hk f hf x hx

/-- The interface table is the one that it always is. -/
theorem got_ifaces {k : Ifaces → Act α} (hk : Hears ifs t (Got t b φ rs) (k ifs)) :
    Hears ifs t (Got t b φ rs) (.cmd .ifaces k) := by
  refine hears_cmd (K := fun a x => a = ifs ∧ Got t b φ rs x) (fun _ _ h hu => h.undisturbed hu)
    (fun _ _ => trivial) (fun x e h hifs hok => ⟨hifs, h.exec hok (fun hc => nomatch hc)⟩)
    fun a => ?_
  rintro x ⟨rfl, hx⟩
  exact hk x hx

theorem got_write {w : Write} {ψ : FwdFrame → Prop} {k : Unit → Act α} (hφ : ∀ f, φ f → ψ (f.write w))
    (hk : Hears ifs t (Got t b ψ rs) (k ())) : Hears ifs t (Got t b φ rs) (.cmd (.write b w) k) := by
  refine hears_cmd (K := fun _ => Got t b ψ rs) (fun _ _ h hu => h.undisturbed hu)
    (fun _ _ => trivial) (fun x e h _ hok => ⟨?_, ?_, h.heard⟩) fun _ => hk
  · have hg : (Watched.exec steady hear t (.write b w) e x).2.ghost t = x.ghost t :=
      Function.update_self _ _ _
    exact hg ▸ h.hand
  · have hm : (Watched.exec steady hear t (.write b w) e x).2.shared.mem b =
        (x.shared.mem b).write w := Function.update_self _ _ _
    exact hm ▸ hφ _ h.mem

/-- `recvfrom` writes the bytes it returns. -/
theorem got_recv {k : Option Rx → Act α} (hn : Hears ifs t (fun _ => True) (k none))
    (hk : ∀ r, Hears ifs t (Got t b (fun f => ∃ p : FwdFrame,
      f = p.write (.data (blit p.data 0 r.bytes))) [r]) (k (some r))) :
    Hears ifs t (Got t b φ rs) (.cmd (.recvfrom b) k) := by
  refine hears_cmd (K := fun a x => a.elim True fun r =>
      Got t b (fun f => ∃ p : FwdFrame, f = p.write (.data (blit p.data 0 r.bytes))) [r] x)
    (fun _ _ h hu => h.undisturbed hu) (fun _ _ => trivial) (fun x e h _ hok => ?_) fun a => ?_
  · cases hr : e.recv with
    | none =>
        have ha : (exec (.recvfrom b) e x.shared).1 = none := by
          rw [exec]
          simp only [hr]
        rw [ha]
        trivial
    | some r =>
        have ha : exec (.recvfrom b) e x.shared = (some r, { x.shared with
            mem := Function.update x.shared.mem b
              ((x.shared.mem b).write (.data (blit (x.shared.mem b).data 0 r.bytes))) }) := by
          rw [exec]
          simp only [hr]
        have hx : (Watched.exec steady hear t (.recvfrom b) e x).2 =
            { shared := { x.shared with
                mem := Function.update x.shared.mem b
                  ((x.shared.mem b).write (.data (blit (x.shared.mem b).data 0 r.bytes))) }
              ghost := Function.update x.ghost t (x.ghost t)
              view := r :: x.view } := by
          simp only [Watched.exec]
          rw [show steady.exec (.recvfrom b) e x.shared = _ from ha]
          rfl
        rw [hx, ha]
        refine ⟨?_, ⟨x.shared.mem b, Function.update_self _ _ _⟩, fun r' hr' => ?_⟩
        · rw [Function.update_eq_self]
          exact h.hand
        · exact List.mem_cons.mpr (.inl (List.mem_singleton.mp hr'))
  · cases a with
    | none => exact hn
    | some r => exact hk r

/-- An entry is inserted for a frame that was received. -/
theorem got_insert {key : Key} {mac : Mac} {r : Rx} {k : Unit → Act α} (hr : r ∈ rs)
    (ht : Teaches ifs key mac r) (hk : Hears ifs t (fun _ => True) (k ())) :
    Hears ifs t (Got t b φ rs) (.cmd (.arpInsert key mac) k) :=
  hears_cmd (K := fun _ _ => True) (fun _ _ h hu => h.undisturbed hu)
    (fun _ h => ⟨r, h.heard r hr, ht⟩) (fun _ _ _ _ _ => trivial) fun _ => hk

/-! ### Programs that insert nothing -/

/-- The program inserts no ARP entry. -/
abbrev Abstains (p : Act α) : Prop := p.Every fun _ c => c.inserts = false

/-- A program of modest commands teaches nothing. -/
theorem abstains_of_modest {p : Act α} (hp : p.Every fun _ c => c.modest = true) : Abstains p :=
  hp.mono fun _ _ h => (Cmd.modest_iff.mp h).2

theorem abstains_of_ships {p : Act α} (hp : p.Every fun _ c => c.ships = true) : Abstains p :=
  hp.mono fun _ _ h => (Cmd.ships_iff.mp h).1

theorem drop_abstains (c : Counter) (b : Block) : Abstains (drop c b) :=
  abstains_of_ships (ships_of_bare (drop_bare c b))

theorem arpAnswer_abstains (b : Block) (i : CInt) (spa tpa : Ip) :
    Abstains (arpAnswer b i spa tpa) := by
  refine (abstains_of_ships (ships_of_bare (arpOurs_bare tpa))).bind fun it => ?_
  cases it with
  | none => exact Prog.every_last rfl
  | some it =>
      refine (abstains_of_ships (ships_of_bare (arpRespond_bare b i it))).bind fun _ => ?_
      exact (abstains_of_ships (forwardFlushPending_ships _)).bind fun _ => Prog.every_last rfl

theorem pendEnqueueFrame_abstains (k : Key) (b : Block) : Abstains (pendEnqueueFrame k b) := by
  refine Prog.every_step rfl fun r => ?_
  split
  · trivial
  · trivial
  · exact Prog.every_step rfl fun _ => Prog.every_last rfl
  · exact drop_abstains _ _
  · exact drop_abstains _ _

/-- A frame for a next hop. -/
theorem forwardTo_abstains (b : Block) (f : List Byte) (k : Key) : Abstains (forwardTo b f k) := by
  unfold forwardTo
  split
  · exact drop_abstains _ _
  · refine Prog.every_step rfl fun _ => Prog.every_step rfl fun mac => ?_
    split
    · exact abstains_of_ships (forwardSend_ships _ _)
    · exact (pendEnqueueFrame_abstains _ _).bind fun _ => abstains_of_modest (arpRequest_modest k)

theorem forwardTask_abstains (b : Block) : Abstains (forwardTask b) := by
  refine Prog.every_step rfl fun f => ?_
  dsimp only
  split
  · exact drop_abstains _ _
  · refine Prog.every_step rfl fun action => ?_
    split
    · exact drop_abstains _ _
    · refine Prog.every_step rfl fun ifs => ?_
      split
      · exact Prog.every_step rfl fun _ => Prog.every_last rfl
      · refine Prog.every_step rfl fun ifs => ?_
        split
        · exact forwardTo_abstains _ _ _
        · refine Prog.every_step rfl fun rt => ?_
          split
          · exact drop_abstains _ _
          · exact forwardTo_abstains _ _ _

theorem retryKeys_abstains (ks : List Key) : Abstains (retryKeys ks) := by
  induction ks with
  | nil => trivial
  | cons k ks ih =>
      exact (abstains_of_modest (arpRequest_modest k)).bind fun _ =>
        (abstains_of_ships (forwardFlushPending_ships k)).bind fun _ => ih

theorem timerRound_abstains : Abstains timerRound := by
  refine Prog.every_step rfl fun stop => ?_
  split
  · trivial
  · refine Prog.every_step rfl fun stop => ?_
    split
    · trivial
    · refine Prog.every_step rfl fun _ => Prog.Every.bind ?_ fun _ => trivial
      refine Prog.every_step rfl fun w => ?_
      exact (abstains_of_ships (ships_of_bare (countExpired_bare _))).bind fun _ => retryKeys_abstains _

theorem workerRound_abstains : Abstains workerRound := by
  refine Prog.every_step rfl fun r => ?_
  split
  · trivial
  · trivial
  · trivial
  · exact (forwardTask_abstains _).bind fun _ => trivial

/-! ### The receive loop -/

/-- What `arp_handle_frame` learns, it learns from the frame received. -/
theorem hears_arpHandleFrame {f : FwdFrame} {r : Rx} (hf : Received f r) (hr : r.outgoing = false)
    (ha : getBe16 f.data 12 = etherTypeArp) :
    Hears ifs t (Got t b (· = f) [r]) (arpHandleFrame b r.ifindex) := by
  have hrest : ∀ (P : Listened → Prop) (f : List Byte) (spa tpa : Ip), Hears ifs t P
      (if getBe16 f 20 ≠ arpOperReq then Prog.perform (.mpFree b)
        else arpAnswer b r.ifindex spa tpa) := by
    intro P f spa tpa
    split
    · exact hears_of_every (Prog.every_last rfl)
    · exact hears_of_every (arpAnswer_abstains _ _ _ _)
  simp only [arpHandleFrame, Prog.perform_bind]
  refine got_load fun f' hf' => ?_
  subst hf'
  split
  · exact hears_of_every (drop_abstains _ _)
  · rename_i hok
    refine got_ifaces ?_
    split
    · rename_i hl
      exact got_insert List.mem_cons_self (hf.teaches hr ha (by simpa using hok) hl)
        (hrest _ _ _ _)
    · exact hrest _ _ _ _

/-- **`arp_handle_frame`** learns from a frame just received. -/
theorem hears_rxDispatch {r : Rx} (hr : r.outgoing = false) :
    Hears ifs t (Got t b (Received · r) [r]) (rxDispatch b r.ifindex) := by
  simp only [rxDispatch, Prog.perform_bind]
  refine got_load fun f hf => ?_
  split
  · exact hears_arpHandleFrame hf hr ‹_›
  · split
    · refine hears_of_every (Prog.every_step rfl fun ok => ?_)
      cases ok with
      | true => trivial
      | false => exact Prog.every_step rfl fun _ => Prog.every_last rfl
    · exact hears_of_every ⟨rfl, fun _ => ⟨rfl, fun _ => trivial⟩⟩

/-- A received frame, from the block it is in. -/
theorem hears_rxFrame {r : Rx} :
    Hears ifs t (Got t b (fun f => ∃ p : FwdFrame, f = p.write (.data (blit p.data 0 r.bytes))) [r])
      (rxFrame b r) := by
  simp only [rxFrame, Prog.perform_bind]
  refine got_step rfl (fun h => by cases h) fun _ => ?_
  refine got_write (ψ := (Received · r)) ?_ ?_
  · rintro _ ⟨p, rfl⟩
    exact .write p r
  · refine got_ifaces ?_
    split
    · exact hears_of_every (drop_abstains _ _)
    · split
      · exact hears_of_every (drop_abstains _ _)
      · rename_i hour _
        simp only [Bool.or_eq_true, not_or, Bool.not_eq_true] at hour
        exact hears_rxDispatch hour.1

/-- The receive loop has the block that it takes in hand. -/
theorem hears_alloc {k : Option Block → Act α} (hn : Hears ifs t (fun _ => True) (k none))
    (hk : ∀ b, Hears ifs t (Got t b (fun _ => True) []) (k (some b))) :
    Hears ifs t (fun _ => True) (.cmd .mpAlloc k) := by
  refine hears_cmd (K := fun a x => ∀ b, a = some b → b ∈ x.ghost t) (fun _ _ _ _ => trivial)
    (fun _ _ => trivial) (fun x e _ _ _ b hb => ?_) fun a => ?_
  · have hg : (Watched.exec steady hear t .mpAlloc e x).2.ghost t =
        hold .mpAlloc x.shared (exec .mpAlloc e x.shared).1 (x.ghost t) := Function.update_self _ _ _
    rw [hg, hb]
    exact List.mem_cons_self
  · cases a with
    | none => exact hn.pre fun _ _ => trivial
    | some b => exact (hk b).pre fun x hx => ⟨hx b rfl, trivial, fun _ hr => nomatch hr⟩

theorem hears_rxRound : Hears ifs t (fun _ => True) rxRound := by
  simp only [rxRound, Prog.perform_bind]
  refine hears_cmd (K := fun _ _ => True) (fun _ _ _ _ => trivial) (fun _ _ => trivial)
    (fun _ _ _ _ _ => trivial) fun stop => ?_
  split
  · exact hears_ret _
  · refine hears_alloc (hears_ret _) fun b => ?_
    refine got_recv ?_ fun r => hears_rxFrame.bind fun _ => hears_ret _
    exact hears_of_every (Prog.every_step rfl fun _ => trivial)

theorem hears_round (l : Unit) : Hears ifs t (fun _ => True) (round t l) := by
  cases t with
  | rx => exact hears_rxRound
  | timer => exact hears_of_every timerRound_abstains
  | worker i => exact hears_of_every workerRound_abstains

end Rules

/-! ### Runs -/

/-- Both observers: what a thread has read and chosen, and what was received. -/
def both ⦃β : Type⦄ (t : Tid) (c : Cmd β) (s : Plane) (a : β) (v : View × List Rx) : View × List Rx :=
  (observe t c s a v.1, hear t c s a v.2)

/-- The data plane, with both observers. -/
abbrev Recorded := Watched Plane (List Block) Tid (View × List Rx)

/-- Every frame that a thread in `forward_send` is about to transmit goes to a MAC that the next hop
chosen for it has sent, on the interface chosen for it. -/
def MacsLearned (ifs : Ifaces) (y : Config (By Tid Cmd) Recorded Tid Tid Unit) : Prop :=
  ∀ t b mac, (y.shared.view.1.seen t).sending = some (b, mac) →
    ∀ f i, sendsNext (y.thread t) = some (f, i) →
      ∃ k, y.shared.view.1.chosen b = some k ∧ macAt f 0 = mac ∧ Taught ifs y.shared.view.2 k mac

/-- What a thread has found in the ARP table was received. -/
def FoundTaught (ifs : Ifaces) (v : View × List Rx) : Prop :=
  ∀ t k mac, (v.1.seen t).found = some (k, mac) → Taught ifs v.2 k mac

section Runs

variable {ifs : Ifaces} {routes : List Route} {rules : List FwRule} {proxy : Bool} {clz0 : CInt}
  {m : Mem}

/-- **Every entry of the ARP table has a source**, in every configuration of every run. -/
theorem sourced_of_reach {y : Config (By Tid Cmd) Listened Tid Tid Unit}
    (h : Reach (steady.watched hear) Program.anyStep
      ((Plane.init ifs routes rules proxy clz0 m).start.shadow []) y) :
    ArpSane y.shared.shared.arp ∧ Sourced ifs y.shared.shared.arp y.shared.view := by
  have hdata : ∀ {y}, Reach (steady.watched hear) Program.anyStep
      ((Plane.init ifs routes rules proxy clz0 m).start.shadow []) y →
      Reach (dataPlane.watched hear) Program.anyStep
        ((Plane.init ifs routes rules proxy clz0 m).start.shadow []) y :=
    fun h => Reach.of_admin (M := dataPlane.watched hear) (fun _ _ ha => ⟨ha.1.1, ha.2⟩) h
  have hok : Reach (steady.watched hear) hearingOk
      ((Plane.init ifs routes rules proxy clz0 m).start.shadow []) y :=
    Reach.refine (fun y hy β t c k e ht _ => watched_inOrder (hdata hy) ht) h
  have hgood : (hearing ifs).Good (fun t _ u _ => u = t) y := by
    refine Discipline.sound (fun _ _ _ _ _ h _ _ => h) ?_ ?_ hok
    · rintro t l _ x rfl
      exact (hears_round l x trivial).mono fun r u x hq _ _ => hq
    · exact ⟨⟨fun _ => rfl, .init ifs [], rfl⟩, fun _ => rfl⟩
  obtain ⟨_, _, _, _, ho⟩ := watched_inv (hdata h)
  exact ⟨ho.arp, hgood.1.2.1⟩

variable {y : Config (By Tid Cmd) Recorded Tid Tid Unit}

/-- What a thread has found after a command, it found before, or looks up now. -/
theorem Local.observe_found {l : Local} {β : Type} {c : Cmd β} {e : Env} {s : Plane} {k : Key}
    {mac : Mac} (h : (l.observe c (exec c e s).1).found = some (k, mac)) :
    l.found = some (k, mac) ∨ s.arp.resolve k = some mac := by
  cases c with
  | arpLookup k' =>
      right
      obtain ⟨mac', hm, he⟩ := Option.map_eq_some_iff.mp h
      cases he
      exact (s.arp.arpLookup_fst e.clock k).symm.trans hm
  | mark ev => cases ev <;> exact .inl h
  | _ => exact .inl h

/-- A lookup finds what was received. -/
theorem FoundTaught.step {x : Recorded} {t : Tid} {β : Type} {c : Cmd β} {e : Env}
    (h : FoundTaught ifs x.view) (ha : ArpSane x.shared.arp) (hs : Sourced ifs x.shared.arp x.view.2) :
    FoundTaught ifs (Watched.exec steady both t c e x).2.view := by
  intro u k mac hf
  suffices hk : Taught ifs x.view.2 k mac from hk.mono (hear_grows _ _ _ _ _)
  by_cases hu : u = t
  · subst hu
    have hl : (Watched.exec steady both u c e x).2.view.1.seen u =
        (x.view.1.seen u).observe c (exec c e x.shared).1 := Function.update_self _ _ _
    rw [hl] at hf
    rcases Local.observe_found hf with hf | hr
    · exact h u k mac hf
    · exact hs.resolve ha hr
  · have hl : (Watched.exec steady both t c e x).2.view.1.seen u = x.view.1.seen u :=
      Function.update_of_ne hu _ _
    rw [hl] at hf
    exact h u k mac hf

/-- **What a thread has found was received**, in every configuration of every run. -/
theorem foundTaught_of_reach
    (h : Reach (steady.watched both) Program.anyStep
      ((Plane.init ifs routes rules proxy clz0 m).start.shadow (.start, [])) y) :
    FoundTaught ifs y.shared.view := by
  induction h with
  | refl => exact fun t k mac hf => nomatch hf
  | @tail y z hy hs ih =>
      cases hs with
      | start t ht => exact ih
      | @exec t β c k e ht _ =>
          have hheard : Reach (steady.watched hear) Program.anyStep
              ((Plane.init ifs routes rules proxy clz0 m).start.shadow []) (y.review Prod.snd) :=
            Program.watched_review (f := Prod.snd) (by intros; rfl) (by intros; trivial) hy
          obtain ⟨ha, hs⟩ := sourced_of_reach hheard
          exact ih.step (t := c.thread) (c := c.cmd) (e := e) ha hs
      | finish t ht => exact ih
      | admin ha =>
          obtain ⟨-, -, hv⟩ := ha
          rw [hv]
          exact ih

/-- What the threads have read and chosen, in a run with a fixed interface table. -/
theorem observed_of_steady
    (h : Reach (steady.watched both) Program.anyStep
      ((Plane.init ifs routes rules proxy clz0 m).start.shadow (.start, [])) y) :
    Reach (dataPlane.watched observe) Program.anyStep
      ((Plane.init ifs routes rules proxy clz0 m).start.shadow .start) (y.review Prod.fst) := by
  have hseen : Reach (steady.watched observe) Program.anyStep
      ((Plane.init ifs routes rules proxy clz0 m).start.shadow .start) (y.review Prod.fst) :=
    Program.watched_review (f := Prod.fst) (by intros; rfl) (by intros; trivial) h
  exact Reach.of_admin (M := dataPlane.watched observe) (fun _ _ ha => ⟨ha.1.1, ha.2⟩) hseen

/-- **Whoever transmits an IP frame is in `forward_send`**, here too. -/
theorem recorded_of_ip
    (h : Reach (steady.watched both) Program.anyStep
      ((Plane.init ifs routes rules proxy clz0 m).start.shadow (.start, [])) y) {t : Tid} {g : List Byte}
    {i : CInt} (hg : sendsNext (y.thread t) = some (g, i)) (hip : getBe16 g 12 = etherTypeIp) :
    ∃ b mac, (y.shared.view.1.seen t).sending = some (b, mac) :=
  observed_of_ip (y := y.review Prod.fst) (observed_of_steady h) hg hip

/-- **No destination MAC is invented.**  In every run with a fixed interface table, every frame that
`forward_send` transmits carries as its destination the sender address of a well-formed ARP frame
that was received before, on the interface chosen for it and from the next hop chosen for it, which
lies in the interface's subnet. -/
theorem macs_learned
    (h : Reach (steady.watched both) Program.anyStep
      ((Plane.init ifs routes rules proxy clz0 m).start.shadow (.start, [])) y) :
    MacsLearned ifs y := by
  intro t b mac hs f i hf
  obtain ⟨u, k, ht⟩ := sendsNext_eq_some hf
  have hseen : Reach (dataPlane.watched observe) (aimsOk fun _ => True)
      ((Plane.init ifs routes rules proxy clz0 m).start.shadow .start) (y.review Prod.fst) :=
    (observed_of_steady h).mono fun _ _ _ _ _ _ _ _ _ => trivial
  obtain ⟨key, out, -, hch, hfound, -, -, hdst, -⟩ := egressPre_of_reach hseen ht b mac hs
  exact ⟨key, hch, hdst, foundTaught_of_reach h t key mac hfound⟩

end Runs

/-- An ARP reply comes in, and a datagram for its sender is forwarded up to its `pkt_send`. -/
def forwarded : Config (By Tid Cmd) Recorded Tid Tid Unit :=
  Program.play (steady.watched both) (forwards 2) ((Plane.ports 2).start.shadow (.start, []))

/-- A frame between two ports, about to be sent. -/
theorem macs_learned_ports :
    (sendsNext (forwarded.thread (.worker ⟨0, by decide⟩))).isSome = true ∧
      MacsLearned
        [.subnet (Text.lit "eth0") 0x0a000001 24 1, .subnet (Text.lit "eth1") 0x0a010001 24 2] forwarded :=
  ⟨by decide +kernel, macs_learned (Program.play_reach (fun _ _ _ _ _ => trivial) _)⟩

end LinuxRouter
