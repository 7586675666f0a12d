import LinuxRouter.Firewall.Headers
import LinuxRouter.Model.Checksum
import LinuxRouter.Plane.Cargo

/-!
# Plane — what forwarding rewrites

The bytes that leave against the bytes that came in, for every frame that `forward_task` accepts,
whether it is sent at once or parked first.

* `Rewritten` says which bytes differ, and how.  `forwardFrame_rewrites`: `forward_send`'s rewrite is
  one, for a frame that has its IP header.
* `freight` is the cargo: a block holds what was received into it, until `forward_send` rewrites it.
* `forwards_exactly`: in every run, what is passed to `pkt_send` is the rewrite of what was received.

`forward_send` writes to bytes 0 to 11, 22, and 24 and 25, and the checksum is computed over the
header as it stands after the TTL; so the bytes that leave are a function of those that came, the
two MACs and the header length.  That the block still has the bytes that came is the part of
`Cargo`, with the received bytes as the note of a block.  `sending_of_ip` closes the gap between the
observer's mark and the wire: an IP frame is about to be sent only by a thread that has rewritten
one.
-/

namespace LinuxRouter

open Program (Prog Config Discipline Reach Watched By)

/-! ### One frame -/

/-- The frame `g` is the frame `r` with the two MACs, the TTL and the checksum rewritten. -/
structure Rewritten (mac src : Mac) (r g : List Byte) : Prop where
  length : g.length = r.length
  dst : macAt g 0 = mac
  src : macAt g 6 = src
  /-- the TTL is one less, and at least 1 -/
  ttl : (byteAt g 22).toNat + 1 = (byteAt r 22).toNat ∧ 1 ≤ (byteAt g 22).toNat
  /-- the header sums up to zero -/
  checksum : ipChecksum ((g.drop 14).take (headerLen r)) = 0
  rest : ∀ i, 12 ≤ i → i ≠ 22 → i ≠ 24 → i ≠ 25 → byteAt g i = byteAt r i

section Frame

variable {f g r : List Byte} {n : ℕ}

/-- The checksum is in two bytes. -/
theorem patched_recompute (h : 26 ≤ f.length) : Patched f (ipChecksumRecompute f n) 24 2 := by
  unfold ipChecksumRecompute
  split
  · exact ⟨rfl, fun _ _ => rfl⟩
  · have p₁ : Patched f (blit f 24 [0, 0]) 24 2 := patched_blit h
    have p₂ := patched_putBe16 (p := blit f 24 [0, 0]) (i := 24) (p₁.length ▸ h)
      (ipChecksum (((blit f 24 [0, 0]).drop 14).take n))
    exact ⟨p₂.length.trans p₁.length, fun j hj => (p₂.outside j hj).trans (p₁.outside j hj)⟩

/-- A header has 60 bytes at most. -/
theorem headerLen_le (f : List Byte) : headerLen f ≤ 60 := by
  have h : (byteAt f 14 &&& 0x0f#8).toNat ≤ 15 := by
    rw [BitVec.toNat_and]
    exact Nat.and_le_right
  rw [headerLen]
  omega

/-- **`forward_send` rewrites exactly what it must**, in a frame that has its IP header. -/
theorem forwardFrame_rewrites (mac src : Mac) (h₃₄ : 34 ≤ r.length) (h₂₀ : 20 ≤ headerLen r)
    (hl : 14 + headerLen r ≤ r.length) (ht : 1 < (byteAt r 22).toNat) :
    Rewritten mac src r (forwardFrame mac src r) := by
  have hm := headerLen_le r
  unfold forwardFrame
  dsimp only
  -- the writes in their order
  have v₁ := macAt_blit_self (p := r) (i := 0) (by omega) mac
  have p₁ := patched_mac (p := r) (i := 0) (by omega) mac
  generalize blit r 0 mac.toList = f₁ at *
  have l₁ := p₁.length
  have v₂ := macAt_blit_self (p := f₁) (i := 6) (by omega) src
  have p₂ := patched_mac (p := f₁) (i := 6) (by omega) src
  generalize blit f₁ 6 src.toList = f₂ at *
  have l₂ := p₂.length
  have hb : byteAt f₂ 22 = byteAt r 22 := by rw [p₂.outside 22 (by omega), p₁.outside 22 (by omega)]
  rw [hb]
  have v₃ : byteAt (blit f₂ 22 [byteAt r 22 - 1]) 22 = byteAt r 22 - 1 :=
    byteAt_blit_self (p := f₂) (i := 22) (j := 0) (by omega) (by simp)
  have p₃ : Patched f₂ (blit f₂ 22 [byteAt r 22 - 1]) 22 1 := patched_blit (by simp; omega)
  generalize blit f₂ 22 [byteAt r 22 - 1] = f₃ at *
  have l₃ := p₃.length
  have hihl : headerLen f₃ = headerLen r := by
    rw [headerLen, headerLen, p₃.outside 14 (by omega), p₂.outside 14 (by omega),
      p₁.outside 14 (by omega)]
  rw [hihl]
  have p₄ := patched_recompute (f := f₃) (n := headerLen r) (by omega)
  have hsum := ipChecksum_recompute (f := f₃) (n := headerLen r) (by omega) (by omega) (by omega)
  generalize ipChecksumRecompute f₃ (headerLen r) = g at *
  have hlt := (byteAt r 22).isLt
  have httl : (byteAt g 22).toNat = (byteAt r 22).toNat - 1 := by
    rw [p₄.outside 22 (by omega), v₃, BitVec.toNat_sub_of_le]
    · rfl
    · rw [BitVec.le_def]
      simpa using ht.le
  refine ⟨p₄.length.trans (l₃.trans (l₂.trans l₁)), ?_, ?_, ⟨by omega, by omega⟩, hsum,
    fun i hi h22 h24 h25 => ?_⟩
  · rw [p₄.macAt, p₃.macAt, p₂.macAt, v₁] <;> omega
  · rw [p₄.macAt, p₃.macAt, v₂] <;> omega
  · rw [p₄.outside i (by omega), p₃.outside i (by omega), p₂.outside i (by omega),
      p₁.outside i (by omega)]

end Frame

/-! ### The cargo -/

/-- The block holds the frame `r`. -/
def Holds (f : FwdFrame) (r : List Byte) : Prop := f.len = r.length ∧ r <+: f.data

/-- The frame passes the header checks and the TTL test of `forward_task`. -/
def Passed (r : List Byte) : Prop := headerOk r r.length = true ∧ 1 < (byteAt r 22).toNat

section Holds

variable {f : FwdFrame} {r : List Byte} {i : ℕ}

/-- A byte of the frame is the byte received. -/
theorem Holds.byteAt (h : Holds f r) (hi : i < r.length) :
    byteAt f.data i = LinuxRouter.byteAt r i := by
  obtain ⟨-, rest, hd⟩ := h
  rw [← hd]
  exact byteAt_append hi

/-- What `recvfrom` and the receive loop write. -/
theorem Holds.received (f : FwdFrame) (r : Rx) :
    Holds ((f.write (.data (blit f.data 0 r.bytes))).write (.len (r.bytes.length % 2 ^ 16)))
      r.bytes := by
  have hl := r.le_payload
  have hp : mpPayload < 2 ^ 16 := by decide
  refine ⟨Nat.mod_eq_of_lt (by omega), ?_⟩
  simp only [FwdFrame.write, blit, List.take_zero, List.nil_append]
  exact List.prefix_append _ _

/-- `forward_task` judges the frame that was received. -/
theorem Holds.passed (h : Holds f r) (hok : headerOk f.data f.len = true)
    (ht : ¬ LinuxRouter.byteAt f.data 22 ≤ 1#8) : Passed r := by
  have h₃₄ : 34 ≤ r.length := h.1 ▸ le_len_of_headerOk hok
  have hb : ∀ i < 34, LinuxRouter.byteAt f.data i = LinuxRouter.byteAt r i := fun i hi =>
    h.byteAt (by omega)
  refine ⟨?_, ?_⟩
  · have h16 : getBe16 f.data 16 = getBe16 r 16 := getBe16_congr fun n hn => hb _ (by omega)
    simp only [headerOk_iff, totalLen, headerLen, h.1, hb 14 (by omega), h16] at hok ⊢
    exact hok
  · rw [hb 22 (by omega), BitVec.le_def] at ht
    simpa using ht

/-- The frame that `forward_send` makes of the block. -/
theorem Holds.forwardFrame (h : Holds f r) (hp : Passed r) (hl : 14 + headerLen r ≤ r.length)
    (mac src : Mac) :
    (forwardFrame mac src f.data).take f.len = LinuxRouter.forwardFrame mac src r ∧
      Rewritten mac src r (LinuxRouter.forwardFrame mac src r) := by
  obtain ⟨h₃₄, -, h₂₀, -⟩ := headerOk_iff.mp hp.1
  have hr := forwardFrame_rewrites mac src h₃₄ h₂₀ hl hp.2
  obtain ⟨hlen, rest, hd⟩ := h
  refine ⟨?_, hr⟩
  rw [← hd, forwardFrame_append mac src h₃₄ (by omega) hl, hlen, ← hr.length, List.take_left']
  rfl

end Holds

/-- The frames on their way: of a block the frame is noted that was received into it, and a thread
remembers the frame it is sending. -/
def freight : Cargo (Option (Block × Mac)) (List Byte) where
  mind
    | _, .mark (.send b mac), _, _ => some (b, mac)
    | _, .pktSend _ _, _, _ => none
    | _, .mpFree _, _, _ => none
    | _, _, _, l => l
  note
    | _, .recvfrom _, some r, _ => r.bytes
    | _, _, _, n => n
  queued := Holds
  parked f r := Holds f r ∧ Passed r
  ensures
    | _, .pktSend g _, l, ν => ∀ b mac, l = some (b, mac) → Passed (ν b) ∧
        (14 + headerLen (ν b) ≤ (ν b).length → ∃ src, Rewritten mac src (ν b) g)
    | _, _, _, _ => True
  idle l := l = none
  parked_next _ h := h
  idle_ensures _ c l ν _ hl := by
    subst hl
    cases c with
    | pktSend g i => exact fun b mac h => nomatch h
    | _ => trivial
  idle_mind _ c a l hc hl := by
    cases c with
    | mark ev => cases ev <;> first | exact hl | cases hc
    | _ => first | exact hl | rfl

section Carried

variable {t : Tid} {b : Block} {mac : Mac} {B : List Block} {μ : Block → FwdFrame}
  {ν : Block → List Byte}

open Cargo (Bearing bears_step bears_load bears_write bears_cmd bears_ret)

/-- **`forward_send`** rewrites what its block holds. -/
theorem freight_send (hb : b ∉ B) (hp : Holds (μ b) (ν b) ∧ Passed (ν b)) :
    freight.Bears t (Bearing t freight.idle (b :: B) μ ν) (forwardSend b mac)
      fun _ => Bearing t freight.idle B μ ν := by
  -- the block is freed at the end of both branches
  have hend : ∀ {μ' : Block → FwdFrame} {L : Option (Block × Mac) → Prop},
      (∀ c ∈ B, μ' c = μ c) →
      freight.Bears t (Bearing t L (b :: B) μ' ν) (Prog.perform (.mpFree b))
        fun _ => Bearing t freight.idle B μ ν := by
    intro μ' L hμ
    refine bears_cmd (K := fun _ => Bearing t freight.idle B μ ν) (fun _ _ => trivial)
      (fun x e h _ hok => ?_) fun _ => bears_ret fun _ h => h
    have h' : Bearing t L B μ ν x :=
      ⟨h.mind, fun c hc => h.hand c (by simp [hc]),
        fun c hc => (h.mem c (by simp [hc])).trans (hμ c hc), fun c hc => h.note c (by simp [hc])⟩
    refine h'.exec hok (fun c hc => ?_) fun _ _ => rfl
    cases hc
    exact hb
  simp only [forwardSend, Prog.perform_bind]
  refine bears_step (M := fun _ l => l = some (b, mac)) (fun _ _ => trivial) (fun _ h => by cases h)
    (fun _ _ _ => rfl) fun _ => ?_
  refine bears_load (M := fun l => l = some (b, mac)) List.mem_cons_self (fun _ _ _ => trivial)
    (fun _ h => h) ?_
  refine bears_step (M := fun _ l => l = some (b, mac)) (fun _ _ => trivial) (fun _ h => by cases h)
    (fun _ _ h => h) fun ifs => ?_
  split
  · exact hend fun _ _ => rfl
  · rename_i out _
    refine bears_write (M := fun l => l = some (b, mac)) List.mem_cons_self (fun _ _ _ => trivial)
      (fun _ h => h) ?_
    rw [show freight.note (.write b _) () (ν b) = ν b from rfl, Function.update_eq_self]
    refine bears_step (M := fun _ => freight.idle) (fun x h => ⟨fun hi => ?_, fun b' mac' hs => ?_⟩)
      (fun _ h => by cases h) (fun _ _ _ => rfl) fun ok => ?_
    · cases h.mind.symm.trans hi
    · have hm : (b, mac) = (b', mac') := Option.some.inj (h.mind.symm.trans hs)
      obtain ⟨e₁, e₂⟩ := Prod.mk.inj hm
      rw [← e₁, ← e₂, h.note b List.mem_cons_self]
      refine ⟨hp.2, fun hl => ⟨out.mac, ?_⟩⟩
      obtain ⟨hf, hr⟩ := hp.1.forwardFrame hp.2 hl mac out.mac
      rw [hf]
      exact hr
    · refine Cargo.bears_idle rfl (fun _ h => by cases h) fun _ => hend fun c hc => ?_
      exact Function.update_of_ne (ne_of_mem_of_not_mem hc hb) _ _

/-- Parking changes no byte that counts. -/
theorem freight_pendEnqueueFrame {k : Key} (hp : Holds (μ b) (ν b) ∧ Passed (ν b)) :
    freight.Bears t (Bearing t freight.idle [b] μ ν) (pendEnqueueFrame k b)
      fun _ => freight.Idle t := by
  simp only [pendEnqueueFrame, Prog.perform_bind, Prog.pure_eq]
  refine Cargo.bears_enqueue hp fun a => ?_
  cases a with
  | joined => exact Cargo.idle_ret fun _ h => h
  | created ev =>
      cases ev with
      | none => exact Cargo.idle_ret fun _ h => h
      | some ev =>
          exact Cargo.idle_step rfl fun _ => Cargo.idle_step rfl fun _ => Cargo.idle_ret fun _ h => h
  | full => exact Cargo.bears_of_every (Cargo.drop_idles _ _)
  | noSlot => exact Cargo.bears_of_every (Cargo.drop_idles _ _)

/-- Steps 5 and 6 of `forward_task`. -/
theorem freight_forwardTo {k : Key} (hb : Holds (μ b) (ν b))
    (hok : headerOk (μ b).data (μ b).len = true) :
    freight.Bears t (Bearing t freight.idle [b] μ ν) (forwardTo b (μ b).data k)
      fun _ => freight.Idle t := by
  simp only [forwardTo, Prog.perform_bind]
  split
  · exact Cargo.bears_last (Cargo.drop_idles _ _)
  · rename_i httl
    have hp : Passed (ν b) := hb.passed hok httl
    refine bears_write (M := freight.idle) List.mem_cons_self (fun _ _ _ => trivial)
      (fun _ h => h) ?_
    rw [show freight.note (.write b _) () (ν b) = ν b from rfl, Function.update_eq_self]
    -- the header's fields are no part of the frame
    have hw : Holds (Function.update μ b ((μ b).write (.out (BitVec.ofInt 8 k.2.toInt) k.1)) b)
        (ν b) := by
      rw [Function.update_self]
      exact hb
    refine Cargo.bears_idle (c := .arpLookup k) rfl (fun _ h => by cases h) fun mac => ?_
    cases mac with
    | some mac => exact (freight_send (B := []) (fun h => by cases h) ⟨hw, hp⟩).post fun _ _ h => h.mind
    | none =>
        exact (freight_pendEnqueueFrame ⟨hw, hp⟩).bind fun _ =>
          Cargo.bears_of_every (Cargo.arpRequest_idles k)

/-- **`forward_task`** sends or parks what it was given. -/
theorem freight_task (hb : Holds (μ b) (ν b)) :
    freight.Bears t (Bearing t freight.idle [b] μ ν) (forwardTask b) fun _ => freight.Idle t := by
  simp only [forwardTask, Prog.perform_bind]
  refine bears_load (M := freight.idle) List.mem_cons_self (fun _ _ _ => trivial) (fun _ h => h) ?_
  split
  · exact Cargo.bears_last (Cargo.drop_idles _ _)
  · rename_i hok
    have hok : headerOk (μ b).data (μ b).len = true := by simpa using hok
    refine Cargo.bears_idle rfl (fun _ h => by cases h) fun action => ?_
    split
    · exact Cargo.bears_last (Cargo.drop_idles _ _)
    · refine Cargo.bears_idle rfl (fun _ h => by cases h) fun ifs => ?_
      split
      · exact Cargo.bears_last ⟨rfl, fun _ => ⟨rfl, fun _ => trivial⟩⟩
      · refine Cargo.bears_idle rfl (fun _ h => by cases h) fun ifs => ?_
        split
        · exact freight_forwardTo hb hok
        · refine Cargo.bears_idle rfl (fun _ h => by cases h) fun rt => ?_
          cases rt with
          | none => exact Cargo.bears_last (Cargo.drop_idles _ _)
          | some rt => exact freight_forwardTo hb hok

theorem freight_carried : freight.Carried where
  send _ _ _ _ _ _ hb hp := freight_send hb hp
  task _ _ _ _ hb := freight_task hb
  received _ r f _ := .received f r

end Carried

/-! ### Runs -/

/-- Both observers: what a thread has read and chosen, and what was received into each block. -/
def noted ⦃β : Type⦄ (t : Tid) (c : Cmd β) (s : Plane) (a : β)
    (v : View × Log (Option (Block × Mac)) (List Byte)) :
    View × Log (Option (Block × Mac)) (List Byte) :=
  (observe t c s a v.1, freight.watch t c s a v.2)

/-- The data plane, with both observers. -/
abbrev Noted := Watched Plane (List Block) Tid (View × Log (Option (Block × Mac)) (List Byte))

/-- Nothing remembered, nothing received. -/
def Log.start : Log (Option (Block × Mac)) (List Byte) where
  mind _ := none
  note _ := []

/-- Every frame that a thread in `forward_send` passes to `pkt_send` is the rewrite of the frame that
was received, with the MAC found for the next hop chosen for it, and the MAC of the interface that it
leaves by. -/
def RewritesExactly (y : Config (By Tid Cmd) Noted Tid Tid Unit) : Prop :=
  ∀ t b mac, (y.shared.view.1.seen t).sending = some (b, mac) →
    ∀ g i, sendsNext (y.thread t) = some (g, i) →
      14 + headerLen (y.shared.view.2.note b) ≤ (y.shared.view.2.note b).length →
      ∃ k out, y.shared.view.1.chosen b = some k ∧ (y.shared.view.1.seen t).found = some (k, mac) ∧
        ifaceByIndex (y.shared.view.1.seen t).ifaces i = some out ∧
        Rewritten mac out.mac (y.shared.view.2.note b) g

section Runs

variable {ifs : Ifaces} {routes : List Route} {rules : List FwRule} {proxy : Bool} {clz0 : CInt}
  {m : Mem} {y : Config (By Tid Cmd) Noted Tid Tid Unit}

/-- The two observers agree on the frame that a thread is sending. -/
theorem sending_of_reach
    (h : Reach (dataPlane.watched noted) Program.anyStep
      ((Plane.init ifs routes rules proxy clz0 m).start.shadow (.start, .start)) y) (t : Tid) :
    (y.shared.view.1.seen t).sending = y.shared.view.2.mind t := by
  induction h with
  | refl => rfl
  | @tail y z hy hs ih =>
      cases hs with
      | start t ht => exact ih
      | @exec u β c k e ht _ =>
          obtain ⟨u, c⟩ := c
          by_cases hu : t = u
          · subst hu
            have h₁ : (((dataPlane.watched noted).exec ⟨t, c⟩ e y.shared).2.view.1.seen t) =
                (y.shared.view.1.seen t).observe c (exec c e y.shared.shared).1 :=
              Function.update_self _ _ _
            have h₂ : (((dataPlane.watched noted).exec ⟨t, c⟩ e y.shared).2.view.2.mind t) =
                freight.mind c (exec c e y.shared.shared).1 (y.shared.view.2.mind t) :=
              Function.update_self _ _ _
            rw [h₁, h₂, ← ih]
            cases c with
            | mark ev => cases ev <;> rfl
            | _ => rfl
          · have h₁ : (((dataPlane.watched noted).exec ⟨u, c⟩ e y.shared).2.view.1.seen t) =
                y.shared.view.1.seen t := Function.update_of_ne hu _ _
            have h₂ : (((dataPlane.watched noted).exec ⟨u, c⟩ e y.shared).2.view.2.mind t) =
                y.shared.view.2.mind t := Function.update_of_ne hu _ _
            rw [h₁, h₂]
            exact ih
      | finish t ht => exact ih
      | admin ha =>
          obtain ⟨-, -, hv⟩ := ha
          rw [hv]
          exact ih

/-- **Whoever transmits an IP frame is in `forward_send`**, and has marked it: what is said of the
frames that are being sent is said of every IP frame that leaves. -/
theorem sending_of_ip
    (h : Reach (dataPlane.watched noted) Program.anyStep
      ((Plane.init ifs routes rules proxy clz0 m).start.shadow (.start, .start)) y) {t : Tid}
    {g : List Byte} {i : CInt} (hg : sendsNext (y.thread t) = some (g, i))
    (hip : getBe16 g 12 = etherTypeIp) : ∃ b mac, (y.shared.view.1.seen t).sending = some (b, mac) := by
  have hnote : Reach (dataPlane.watched freight.watch) Program.anyStep
      ((Plane.init ifs routes rules proxy clz0 m).start.shadow .start) (y.review Prod.snd) :=
    Program.watched_review (f := Prod.snd) (by intros; rfl) (by intros; trivial) h
  rw [sending_of_reach h t]
  cases hm : y.shared.view.2.mind t with
  | none =>
      have harp := freight_carried.idle_sends (v := .start) (fun _ => rfl) hnote hg hm
      exact absurd (hip.symm.trans harp) (by decide)
  | some x => exact ⟨x.1, x.2, rfl⟩

/-- The same, of the first observer alone. -/
theorem observed_of_ip {y : Config (By Tid Cmd) Observed Tid Tid Unit}
    (h : Reach (dataPlane.watched observe) Program.anyStep
      ((Plane.init ifs routes rules proxy clz0 m).start.shadow .start) y) {t : Tid}
    {g : List Byte} {i : CInt} (hg : sendsNext (y.thread t) = some (g, i))
    (hip : getBe16 g 12 = etherTypeIp) : ∃ b mac, (y.shared.view.seen t).sending = some (b, mac) := by
  obtain ⟨w, hw⟩ := Program.watched_beside Log.start h
  exact sending_of_ip (y := y.beside w) hw hg hip

/-- **Forwarding rewrites exactly what it must.**  In every run, every frame that `forward_task` accepts
and that has its IP header leaves as it was received, but for the MACs, the TTL and the checksum. -/
theorem forwards_exactly
    (h : Reach (dataPlane.watched noted) Program.anyStep
      ((Plane.init ifs routes rules proxy clz0 m).start.shadow (.start, .start)) y) :
    RewritesExactly y := by
  intro t b mac hs g i hg hl
  obtain ⟨u, k, ht⟩ := sendsNext_eq_some hg
  have hseen : Reach (dataPlane.watched observe) (aimsOk fun _ => True)
      ((Plane.init ifs routes rules proxy clz0 m).start.shadow .start) (y.review Prod.fst) :=
    Program.watched_review (f := Prod.fst) (by intros; rfl) (fun _ _ _ _ _ _ _ _ _ => trivial) h
  have hnote : Reach (dataPlane.watched freight.watch) Program.anyStep
      ((Plane.init ifs routes rules proxy clz0 m).start.shadow .start) (y.review Prod.snd) :=
    Program.watched_review (f := Prod.snd) (by intros; rfl) (by intros; trivial) h
  obtain ⟨key, out, -, hch, hfound, hi, hout, -, hsrc⟩ := egressPre_of_reach hseen ht b mac hs
  have hpre := freight_carried.pre_of_reach (v := .start) (fun _ => rfl) hnote ht
  obtain ⟨-, hr⟩ := hpre.2 b mac ((sending_of_reach h _).symm.trans hs)
  obtain ⟨src, hr⟩ := hr hl
  obtain rfl : src = out.mac := hr.src.symm.trans hsrc
  exact ⟨key, out, hch, hfound, hi ▸ hout, hr⟩

end Runs

/-- A datagram is forwarded up to its `pkt_send`. -/
def rewritten : Config (By Tid Cmd) Noted Tid Tid Unit :=
  Program.play (dataPlane.watched noted) (forwards 2) ((Plane.ports 2).start.shadow (.start, .start))

/-- A frame between two ports, about to be sent. -/
theorem forwards_exactly_ports :
    (sendsNext (rewritten.thread (.worker ⟨0, by decide⟩))).isSome = true ∧
      RewritesExactly rewritten :=
  ⟨by decide +kernel, forwards_exactly (Program.play_reach (fun _ _ _ _ _ => trivial) _)⟩

end LinuxRouter
