import LinuxRouter.Plane.Corruption

/-!
# Plane — frames that are cleared

The frames on their way, from the receive loop to `pkt_send`, by how far they have got.

* `Rerouted` says that two frames differ in the MACs, the TTL and the checksum at most.
  `Rerouted.fwCheck_eq`: `fw_check` looks at none of these, so that it judges the frame that leaves as
  the frame that came in.
* `vetting` is the cargo: what is queued has been received, what is parked has been cleared, and what
  is sent has been rewritten.

How far a frame has got is noted of its block (`Leg`): received, filled in by the receive loop,
cleared when `forward_task` has written its next hop into its header, and sent when `forward_send`
has rewritten it.  What a thread remembers of a frame it sends stands until the block is given back,
so that a second `pkt_send` of the frame would be seen.  Since `fw_check` reads nothing of what a
rewrite changes, its verdict on the frame that came in is its verdict on the frame that leaves, and
the rules need not be asked again.
-/

namespace LinuxRouter

open Program (Prog)

/-! ### What `fw_check` looks at -/

/-- Two frames that differ in the MACs, the TTL and the checksum at most, and behind `n` bytes. -/
structure Rerouted (f g : List Byte) (n : ℕ) : Prop where
  bytes : n ≤ f.length ∧ n ≤ g.length
  same : ∀ i, 12 ≤ i → i < n → i ≠ 22 → i ≠ 24 → i ≠ 25 → byteAt g i = byteAt f i

namespace Rerouted

variable {f g : List Byte} {n i k : ℕ} (h : Rerouted f g n)
include h

/-- A 16-bit field that a rewrite leaves. -/
theorem getBe16_eq (hi : 26 ≤ i ∨ i = 20) (hn : i + 1 < n) : getBe16 g i = getBe16 f i := by
  refine getBe16_congr fun j hj => h.same _ ?_ ?_ ?_ ?_ ?_ <;> omega

theorem getBe32_eq (hi : 26 ≤ i) (hn : i + 3 < n) : getBe32 g i = getBe32 f i := by
  refine getBe32_congr fun j hj => h.same _ ?_ ?_ ?_ ?_ ?_ <;> omega

/-- Behind the checksum they are one list. -/
theorem drop_eq (hk : 26 ≤ k) : (g.take n).drop k = (f.take n).drop k := by
  obtain ⟨hf, hg⟩ := h.bytes
  refine List.ext_getElem (by simp; omega) fun i hi hi' => ?_
  simp only [List.length_drop, List.length_take] at hi
  have hs := h.same (k + i) (by omega) (by omega) (by omega) (by omega) (by omega)
  rw [byteAt, byteAt, List.getD_eq_getElem?_getD, List.getD_eq_getElem?_getD,
    List.getElem?_eq_getElem (by omega), List.getElem?_eq_getElem (by omega)] at hs
  simpa using hs

theorem headerLen_eq (hn : 34 ≤ n) : headerLen g = headerLen f := by
  rw [headerLen, headerLen, h.same 14 (by omega) (by omega) (by omega) (by omega) (by omega)]

theorem isTcpUdp_eq (hn : 34 ≤ n) : isTcpUdp g = isTcpUdp f := by
  rw [isTcpUdp, isTcpUdp, h.same 23 (by omega) (by omega) (by omega) (by omega) (by omega)]

theorem portMatch_eq (r : FwRule) (hn : 34 ≤ n) (hk : 34 ≤ k) :
    portMatch r g n k = portMatch r f n k := by
  unfold portMatch
  rw [h.isTcpUdp_eq hn]
  split
  · rfl
  · by_cases hl : k + 4 ≤ n
    · simp only [portIs, h.getBe16_eq (i := k) (by omega) (by omega),
        h.getBe16_eq (i := k + 2) (by omega) (by omega)]
    · simp [hl]

theorem payloadOffset_eq (hn : 34 ≤ n) (hk : 34 ≤ k) : payloadOffset g n k = payloadOffset f n k := by
  unfold payloadOffset
  rw [h.same 23 (by omega) (by omega) (by omega) (by omega) (by omega)]
  split
  · split
    · rfl
    · rw [h.same (k + 12) (by omega) (by omega) (by omega) (by omega) (by omega)]
  · rfl

theorem keywordMatch_eq (r : FwRule) (hn : 34 ≤ n) (hk : 34 ≤ k) :
    keywordMatch r g n k = keywordMatch r f n k := by
  unfold keywordMatch
  rw [h.getBe16_eq (i := 20) (by omega) (by omega), h.isTcpUdp_eq hn, h.payloadOffset_eq hn hk]
  cases ho : payloadOffset f n k with
  | none => rfl
  | some off =>
      have hle := le_payloadOffset ho
      simp only [h.drop_eq (k := off) (by omega)]

/-- **A rule.** -/
theorem ruleMatch_eq (r : FwRule) : ruleMatch r g n = ruleMatch r f n := by
  unfold ruleMatch
  by_cases hn : n < 34
  · simp [hn]
  · have hn : 34 ≤ n := by omega
    have h14 := h.same 14 (by omega) (by omega) (by omega) (by omega) (by omega)
    have h23 := h.same 23 (by omega) (by omega) (by omega) (by omega) (by omega)
    have haddr : addrMatch r g = addrMatch r f := by
      rw [addrMatch, addrMatch, h.getBe32_eq (by omega) (by omega),
        h.getBe32_eq (by omega) (by omega)]
    dsimp only
    rw [h.headerLen_eq hn, h14, h23, haddr]
    by_cases h₂₀ : headerLen f < 20
    · simp [h₂₀]
    · rw [h.portMatch_eq r hn (by omega), h.keywordMatch_eq r hn (by omega)]

/-- **`fw_check` does not see what forwarding rewrites.** -/
theorem fwCheck_eq (rules : List FwRule) : fwCheck rules g n = fwCheck rules f n := by
  unfold fwCheck
  rw [funext h.ruleMatch_eq]

end Rerouted

/-- `forward_send` reroutes. -/
theorem forwardFrame_reroutes (mac src : Mac) {f : List Byte} (h : 34 ≤ f.length) :
    (forwardFrame mac src f).length = f.length ∧ Rerouted f (forwardFrame mac src f) f.length := by
  unfold forwardFrame
  dsimp only
  have p₁ := patched_mac (p := f) (i := 0) (by omega) mac
  generalize blit f 0 mac.toList = f₁ at *
  have l₁ := p₁.length
  have p₂ := patched_mac (p := f₁) (i := 6) (by omega) src
  generalize blit f₁ 6 src.toList = f₂ at *
  have l₂ := p₂.length
  have p₃ : Patched f₂ (blit f₂ 22 [byteAt f₂ 22 - 1]) 22 1 := patched_blit (by simp; omega)
  generalize blit f₂ 22 [byteAt f₂ 22 - 1] = f₃ at *
  have l₃ := p₃.length
  have p₄ := patched_recompute (f := f₃) (n := headerLen f₃) (by omega)
  generalize ipChecksumRecompute f₃ (headerLen f₃) = g at *
  have l₄ := p₄.length
  have hl : g.length = f.length := l₄.trans (l₃.trans (l₂.trans l₁))
  refine ⟨hl, ⟨by omega, by omega⟩, fun i h₁₂ _ h₂₂ h₂₄ h₂₅ => ?_⟩
  rw [p₄.outside i (by omega), p₃.outside i (by omega), p₂.outside i (by omega),
    p₁.outside i (by omega)]

/-! ### The cargo -/

/-- How far a received frame has got. -/
inductive Leg where
  | other
  | received
  | filled
  | cleared
  | sent
  deriving DecidableEq

/-- A frame is filled in by the receive loop, cleared when `forward_task` writes its next hop into its
header, and sent once `forward_send` has rewritten it.  An ARP reply is written over its request. -/
def Leg.after : Leg → Write → Leg
  | .received, .len _ => .filled
  | .filled, .out _ _ => .cleared
  | .cleared, .data _ => .sent
  | _, _ => .other

/-- What was received into a block, and how far it has got. -/
structure Docket where
  bytes : List Byte
  leg : Leg

/-- The frame that a thread has in `forward_send`, until it is freed, and the block that the thread
has just rewritten. -/
structure Shipment where
  frame : Option (Block × Mac)
  wrote : Option Block

/-- What is queued has been received, and what is parked has been cleared. -/
def vetting : Cargo Shipment Docket where
  mind
    | _, .mark (.send b mac), _, _ => ⟨some (b, mac), none⟩
    | _, .mpFree _, _, _ => ⟨none, none⟩
    | _, .write b (.data _), _, l => { l with wrote := some b }
    | _, _, _, l => { l with wrote := none }
  note
    | _, .recvfrom _, some r, _ => ⟨r.bytes, .received⟩
    | _, .recvfrom _, none, d => { d with leg := .other }
    | _, .write _ w, _, d => { d with leg := d.leg.after w }
    | _, _, _, d => d
  queued f d := d.leg = .filled ∧ Holds f d.bytes
  parked f d := d.leg = .cleared ∧ Holds f d.bytes ∧ 34 ≤ d.bytes.length
  ensures
    | _, .pktSend g _, l, ν => ∀ b mac, l.frame = some (b, mac) → l.wrote = some b ∧
        (ν b).leg = .sent ∧ g.length = (ν b).bytes.length ∧ Rerouted (ν b).bytes g g.length
    | _, _, _, _ => True
  idle l := l.frame = none
  parked_next _ h := h
  idle_ensures _ c l ν hc hl := by
    have hne : ∀ {b mac}, l.frame ≠ some (b, mac) := by simp [hl]
    cases c with
    | pktSend g i => exact fun _ _ h => absurd h hne
    | _ => trivial
  idle_mind _ c a l hc hl := by
    cases c with
    | mark ev => cases ev <;> first | exact hl | cases hc
    | write b w => cases w <;> exact hl
    | _ => first | exact hl | rfl

section Carried

variable {t : Tid} {b : Block} {mac : Mac} {B : List Block} {μ : Block → FwdFrame}
  {ν : Block → Docket}

open Cargo (Bearing bears_step bears_load bears_write bears_cmd bears_ret)

/-- The frame that leaves, of the block that holds what was received. -/
theorem Holds.reroutes {f : FwdFrame} {r : List Byte} (h : Holds f r) (h₃₄ : 34 ≤ r.length)
    (mac src : Mac) :
    ((LinuxRouter.forwardFrame mac src f.data).take f.len).length = r.length ∧
      Rerouted r ((LinuxRouter.forwardFrame mac src f.data).take f.len) r.length := by
  obtain ⟨hl, rest, hd⟩ := h
  have hle : r.length ≤ f.data.length := by
    rw [← hd]
    simp
  obtain ⟨hlen, hr⟩ := forwardFrame_reroutes mac src (f := f.data) (by omega)
  have htake : ((LinuxRouter.forwardFrame mac src f.data).take f.len).length = r.length := by
    rw [List.length_take]
    omega
  refine ⟨htake, ⟨le_refl _, htake.ge⟩, fun i h₁₂ hi h₂₂ h₂₄ h₂₅ => ?_⟩
  rw [byteAt_take (by omega), hr.same i h₁₂ (by omega) h₂₂ h₂₄ h₂₅, ← hd, byteAt_append hi]

/-- **`forward_send`** rewrites a frame that was cleared. -/
theorem vetting_send (hb : b ∉ B)
    (hp : (ν b).leg = .cleared ∧ Holds (μ b) (ν b).bytes ∧ 34 ≤ (ν b).bytes.length) :
    vetting.Bears t (Bearing t vetting.idle (b :: B) μ ν) (forwardSend b mac)
      fun _ => Bearing t vetting.idle B μ ν := by
  obtain ⟨hst, hh, h₃₄⟩ := hp
  -- the block is freed at the end of both branches
  have hend : ∀ {μ' : Block → FwdFrame} {ν' : Block → Docket} {L : Shipment → Prop},
      (∀ c ∈ B, μ' c = μ c) → (∀ c ∈ B, ν' c = ν c) →
      vetting.Bears t (Bearing t L (b :: B) μ' ν') (Prog.perform (.mpFree b))
        fun _ => Bearing t vetting.idle B μ ν := by
    intro μ' ν' L hμ hν
    refine bears_cmd (K := fun _ => Bearing t vetting.idle B μ ν) (fun _ _ => trivial)
      (fun x e h _ hok => ?_) fun _ => bears_ret fun _ h => h
    have h' : Bearing t L B μ ν x :=
      ⟨h.mind, fun c hc => h.hand c (by simp [hc]),
        fun c hc => (h.mem c (by simp [hc])).trans (hμ c hc),
        fun c hc => (h.note c (by simp [hc])).trans (hν c hc)⟩
    refine h'.exec hok (fun c hc => ?_) fun _ _ => rfl
    cases hc
    exact hb
  simp only [forwardSend, Prog.perform_bind]
  refine bears_step (M := fun _ l => l.frame = some (b, mac)) (fun _ _ => trivial)
    (fun _ h => by cases h) (fun _ _ _ => rfl) fun _ => ?_
  refine bears_load (M := fun l => l.frame = some (b, mac)) List.mem_cons_self (fun _ _ _ => trivial)
    (fun _ h => h) ?_
  refine bears_step (M := fun _ l => l.frame = some (b, mac)) (fun _ _ => trivial)
    (fun _ h => by cases h) (fun _ _ h => h) fun ifs => ?_
  split
  · exact hend (fun _ _ => rfl) fun _ _ => rfl
  · rename_i out _
    refine bears_write (M := fun l => l.frame = some (b, mac) ∧ l.wrote = some b)
      List.mem_cons_self (fun _ _ _ => trivial) (fun _ h => ⟨h, rfl⟩) ?_
    have hν : vetting.note (.write b (.data (forwardFrame mac out.mac (μ b).data))) () (ν b) =
        ⟨(ν b).bytes, .sent⟩ :=
      congrArg (fun l : Leg => Docket.mk (ν b).bytes (l.after _)) hst
    rw [hν]
    refine bears_step (M := fun _ l => l.frame = some (b, mac))
      (fun x h => ⟨fun hi => ?_, fun b' mac' hs => ?_⟩) (fun _ h => by cases h) (fun _ _ h => h.1)
      fun ok => ?_
    · cases h.mind.1.symm.trans hi
    · have hm : (b, mac) = (b', mac') := Option.some.inj (h.mind.1.symm.trans hs)
      obtain ⟨e₁, -⟩ := Prod.mk.inj hm
      rw [← e₁, h.note b List.mem_cons_self, Function.update_self]
      obtain ⟨hl, hr⟩ := hh.reroutes h₃₄ mac out.mac
      exact ⟨h.mind.2, rfl, hl, hl ▸ hr⟩
    · refine bears_step (M := fun _ l => l.frame = some (b, mac)) (fun _ _ => trivial)
        (fun _ h => by cases h) (fun _ _ h => h) fun _ => hend (fun c hc => ?_) fun c hc => ?_
      all_goals exact Function.update_of_ne (ne_of_mem_of_not_mem hc hb) _ _

/-- A frame is parked as it was cleared. -/
theorem vetting_pendEnqueueFrame {k : Key} (hp : vetting.parked (μ b) (ν b)) :
    vetting.Bears t (Bearing t vetting.idle [b] μ ν) (pendEnqueueFrame k b)
      fun _ => vetting.Idle t := by
  simp only [pendEnqueueFrame, Prog.perform_bind, Prog.pure_eq]
  refine Cargo.bears_enqueue hp fun a => ?_
  cases a with
  | joined => exact Cargo.idle_ret fun _ h => h
  | created ev =>
      cases ev with
      | none => exact Cargo.idle_ret fun _ h => h
      | some ev =>
          exact Cargo.idle_step rfl fun _ => Cargo.idle_step rfl fun _ => Cargo.idle_ret fun _ h => h
  | full => exact Cargo.bears_of_every (Cargo.drop_idles _ _)
  | noSlot => exact Cargo.bears_of_every (Cargo.drop_idles _ _)

/-- Steps 5 and 6 of `forward_task` clear the frame. -/
theorem vetting_forwardTo {k : Key} (hb : (ν b).leg = .filled ∧ Holds (μ b) (ν b).bytes)
    (h₃₄ : 34 ≤ (μ b).len) :
    vetting.Bears t (Bearing t vetting.idle [b] μ ν) (forwardTo b (μ b).data k)
      fun _ => vetting.Idle t := by
  simp only [forwardTo, Prog.perform_bind]
  split
  · exact Cargo.bears_last (Cargo.drop_idles _ _)
  · refine bears_write (M := vetting.idle) List.mem_cons_self (fun _ _ _ => trivial)
      (fun _ h => h) ?_
    generalize hμ : Function.update μ b _ = μ'
    generalize hν : Function.update ν b _ = ν'
    have hp : (ν' b).leg = .cleared ∧ Holds (μ' b) (ν' b).bytes ∧ 34 ≤ (ν' b).bytes.length := by
      subst hμ hν
      simp only [Function.update_self]
      exact ⟨congrArg (Leg.after · _) hb.1, hb.2, hb.2.1 ▸ h₃₄⟩
    refine Cargo.bears_idle (c := .arpLookup k) rfl (fun _ h => by cases h) fun mac => ?_
    cases mac with
    | some mac => exact (vetting_send (B := []) (fun h => by cases h) hp).post fun _ _ h => h.mind
    | none =>
        exact (vetting_pendEnqueueFrame hp).bind fun _ =>
          Cargo.bears_of_every (Cargo.arpRequest_idles k)

/-- **`forward_task`** clears a frame that was received. -/
theorem vetting_task (hb : (ν b).leg = .filled ∧ Holds (μ b) (ν b).bytes) :
    vetting.Bears t (Bearing t vetting.idle [b] μ ν) (forwardTask b) fun _ => vetting.Idle t := by
  simp only [forwardTask, Prog.perform_bind]
  refine bears_load (M := vetting.idle) List.mem_cons_self (fun _ _ _ => trivial) (fun _ h => h) ?_
  split
  · exact Cargo.bears_last (Cargo.drop_idles _ _)
  · rename_i hok
    have h₃₄ : 34 ≤ (μ b).len := le_len_of_headerOk (by simpa using hok)
    refine Cargo.bears_idle rfl (fun _ h => by cases h) fun action => ?_
    split
    · exact Cargo.bears_last (Cargo.drop_idles _ _)
    · refine Cargo.bears_idle rfl (fun _ h => by cases h) fun ifs => ?_
      split
      · exact Cargo.bears_last ⟨rfl, fun _ => ⟨rfl, fun _ => trivial⟩⟩
      · refine Cargo.bears_idle rfl (fun _ h => by cases h) fun ifs => ?_
        split
        · exact vetting_forwardTo hb h₃₄
        · refine Cargo.bears_idle rfl (fun _ h => by cases h) fun rt => ?_
          cases rt with
          | none => exact Cargo.bears_last (Cargo.drop_idles _ _)
          | some rt => exact vetting_forwardTo hb h₃₄

theorem vetting_carried : vetting.Carried where
  send _ _ _ _ _ _ hb hp := vetting_send hb hp
  task _ _ _ _ hb := vetting_task hb
  received _ r f _ := ⟨rfl, .received f r⟩

end Carried

end LinuxRouter
