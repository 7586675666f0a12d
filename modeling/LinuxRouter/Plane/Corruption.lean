import LinuxRouter.Plane.Rewrite

/-!
# Plane — what the header checks see of a checksum

The two bytes of a frame's IP checksum on its way through `forward_task`.

* `Outgoing` and `ToPark`: a frame as it was received, whose thread is about to send or park it.
* `verdicts_patched`: no check of `forward_task` looks at the two bytes.
* `forwards_checked`: in every run, what is sent or parked has passed the header checks and the TTL
  test, and leaves with a checksum that fits its header.
* `corrupted_forwarded` is a run in which a frame with a wrong checksum is sent on.

That nothing verifies the checksum is shown by changing it.  Each test of `forward_task` is a
function of the frame's bytes, and gives the same for two frames that differ in bytes 24 and 25 only
(`Patched`); so a frame with a wrong checksum goes the way of the same frame with a right one.  What
does hold of a frame that goes out, in every run, is carried with it by the cargo of `Rewrite`.
-/

namespace LinuxRouter

open Program (Prog Config Reach Watched By)

/-! ### The checks -/

section Checks

variable {f g : List Byte} {n : ℕ}

/-- The header length does not depend on the checksum. -/
theorem headerLen_patched (h : Patched f g 24 2) : headerLen g = headerLen f := by
  rw [headerLen, headerLen, h.outside 14 (by omega)]

theorem headerOk_patched (h : Patched f g 24 2) (n : ℕ) : headerOk g n = headerOk f n := by
  have h16 : getBe16 g 16 = getBe16 f 16 := h.getBe16 (by omega)
  simp only [headerOk, headerLen_patched h, h.outside 14 (by omega), h16]

/-- What is behind the checksum is the same. -/
theorem drop_patched (h : Patched f g 24 2) {i : ℕ} (hi : 26 ≤ i) : g.drop i = f.drop i := by
  refine List.ext_getElem (by rw [List.length_drop, List.length_drop, h.length]) fun k hk hk' => ?_
  rw [List.length_drop] at hk hk'
  rw [List.getElem_drop, List.getElem_drop]
  have hb := h.outside (i + k) (by omega)
  rwa [byteAt, byteAt, List.getD_eq_getElem?_getD, List.getD_eq_getElem?_getD,
    List.getElem?_eq_getElem (by omega), List.getElem?_eq_getElem (by omega)] at hb

/-- The payload of a keyword search starts behind the header. -/
theorem le_payloadOffset {l4off poff : ℕ} (h : payloadOffset f n l4off = some poff) :
    l4off ≤ poff := by
  unfold payloadOffset at h
  split at h
  · split at h
    · cases h
    · cases h
      exact Nat.le_add_right _ _
  · cases h
    exact Nat.le_add_right _ _

theorem keywordMatch_patched (h : Patched f g 24 2) (r : FwRule) {l4off : ℕ} (hl : 26 ≤ l4off) :
    keywordMatch r g n l4off = keywordMatch r f n l4off := by
  have h20 : getBe16 g 20 = getBe16 f 20 := h.getBe16 (by omega)
  have hp : payloadOffset g n l4off = payloadOffset f n l4off := by
    rw [payloadOffset, payloadOffset, h.outside 23 (by omega), h.outside (l4off + 12) (by omega)]
  unfold keywordMatch isTcpUdp
  rw [h20, hp, h.outside 23 (by omega)]
  cases ho : payloadOffset f n l4off with
  | none => rfl
  | some poff =>
      have hle := le_payloadOffset ho
      simp only [List.drop_take, drop_patched h (hl.trans hle)]

theorem ruleMatch_patched (h : Patched f g 24 2) (r : FwRule) :
    ruleMatch r g n = ruleMatch r f n := by
  have hports : 20 ≤ headerLen f →
      portMatch r g n (14 + headerLen f) = portMatch r f n (14 + headerLen f) := by
    intro h₂₀
    have h₁ : getBe16 g (14 + headerLen f) = getBe16 f (14 + headerLen f) := h.getBe16 (by omega)
    have h₂ : getBe16 g (14 + headerLen f + 2) = getBe16 f (14 + headerLen f + 2) :=
      h.getBe16 (by omega)
    simp only [portMatch, isTcpUdp, portIs, h₁, h₂, h.outside 23 (by omega)]
  have haddr : addrMatch r g = addrMatch r f := by
    have h₁ : getBe32 g 26 = getBe32 f 26 := h.getBe32 (by omega)
    have h₂ : getBe32 g 30 = getBe32 f 30 := h.getBe32 (by omega)
    rw [addrMatch, addrMatch, h₁, h₂]
  simp only [ruleMatch, headerLen_patched h, h.outside 14 (by omega), h.outside 23 (by omega),
    haddr]
  split
  · rfl
  · split
    · rfl
    · split
      · rfl
      · rename_i hihl
        rw [hports (by omega), keywordMatch_patched h r (by omega)]

/-- What `forward_task` decides of a frame: the header checks, the firewall, where it goes, and the
TTL test. -/
def verdicts (rules : List FwRule) (f : List Byte) (n : ℕ) : Bool × CInt × Ip × Bool :=
  (headerOk f n, fwCheck rules f n, getBe32 f 30, decide (byteAt f 22 ≤ 1#8))

/-- **No check looks at the checksum.** -/
theorem verdicts_patched (h : Patched f g 24 2) (rules : List FwRule) :
    verdicts rules g n = verdicts rules f n := by
  have h30 : getBe32 g 30 = getBe32 f 30 := h.getBe32 (by omega)
  simp only [verdicts, headerOk_patched h, fwCheck, ruleMatch_patched h, h30,
    h.outside 22 (by omega)]

end Checks

/-! ### Runs -/

/-- The block that a thread is about to park. -/
def parksNext : Program.Thread (By Tid Cmd) Unit → Option Block
  | .running (.cmd ⟨_, .pendEnqueue _ b⟩ _) => some b
  | _ => none

/-- A thread that is about to park a frame. -/
theorem parksNext_eq_some {th : Program.Thread (By Tid Cmd) Unit} {b : Block}
    (h : parksNext th = some b) : ∃ u k κ, th = .running (.cmd ⟨u, .pendEnqueue k b⟩ κ) := by
  unfold parksNext at h
  split at h
  · cases h
    exact ⟨_, _, _, rfl⟩
  · cases h

/-- The data plane, and what was received into each block. -/
abbrev Freighted := Logged (Option (Block × Mac)) (List Byte)

section Runs

variable {ifs : Ifaces} {routes : List Route} {rules : List FwRule} {proxy : Bool} {clz0 : CInt}
  {m : Mem} {y : Config (By Tid Cmd) Freighted Tid Tid Unit} {t : Tid} {r g : List Byte}

/-- The thread is about to send the frame `g` for the frame `r` that was received. -/
def Outgoing (y : Config (By Tid Cmd) Freighted Tid Tid Unit) (t : Tid) (r g : List Byte) : Prop :=
  ∃ b mac i, y.shared.view.mind t = some (b, mac) ∧ y.shared.view.note b = r ∧
    sendsNext (y.thread t) = some (g, i)

/-- The thread is about to park the frame `r` that was received. -/
def ToPark (y : Config (By Tid Cmd) Freighted Tid Tid Unit) (t : Tid) (r : List Byte) : Prop :=
  ∃ b, parksNext (y.thread t) = some b ∧ y.shared.view.note b = r

/-- The frame `r`, as it was received, is on its way out: it is sent, or parked to be sent. -/
def Forwards (y : Config (By Tid Cmd) Freighted Tid Tid Unit) (r : List Byte) : Prop :=
  ∃ t, (∃ g, Outgoing y t r g) ∨ ToPark y t r

/-- What is sent has passed the checks, and its checksum fits. -/
theorem Outgoing.passed
    (h : Reach (dataPlane.watched freight.watch) Program.anyStep
      ((Plane.init ifs routes rules proxy clz0 m).start.shadow .start) y) (ho : Outgoing y t r g) :
    Passed r ∧ (14 + headerLen r ≤ r.length → ipChecksum ((g.drop 14).take (headerLen r)) = 0) := by
  obtain ⟨b, mac, i, hm, rfl, hs⟩ := ho
  obtain ⟨u, k, ht⟩ := sendsNext_eq_some hs
  have hpre := freight_carried.pre_of_reach (v := .start) (fun _ => rfl) h ht
  obtain ⟨hp, hr⟩ := hpre.2 b mac hm
  refine ⟨hp, fun hl => ?_⟩
  obtain ⟨src, hr⟩ := hr hl
  exact hr.checksum

/-- What is parked has passed them. -/
theorem ToPark.passed
    (h : Reach (dataPlane.watched freight.watch) Program.anyStep
      ((Plane.init ifs routes rules proxy clz0 m).start.shadow .start) y) (hp : ToPark y t r) :
    Passed r := by
  obtain ⟨b, hb, rfl⟩ := hp
  obtain ⟨u, k, κ, ht⟩ := parksNext_eq_some hb
  exact (freight_carried.pre_of_reach (v := .start) (fun _ => rfl) h ht).2

/-- What `forward_task` does with a frame, once it has read the block. -/
theorem forwardTask_malformed (b : Block) : ∃ k : FwdFrame → Act Unit,
    forwardTask b = .cmd (.load b) k ∧
      ∀ f, headerOk f.data f.len = false → k f = drop .malformed b := by
  refine ⟨_, rfl, fun f hf => ?_⟩
  have h : (!headerOk f.data f.len) = true := by rw [hf, Bool.not_false]
  exact if_pos h

/-- **A damaged header is found by its fields.**  In every run, what is sent or parked was received
with a header that passes the checks and a TTL above 1, and is sent with a checksum that fits; a frame
that fails the checks is counted as malformed and freed.  The checksum of a frame decides nothing. -/
theorem forwards_checked
    (h : Reach (dataPlane.watched freight.watch) Program.anyStep
      ((Plane.init ifs routes rules proxy clz0 m).start.shadow .start) y) :
    (∀ r, Forwards y r → Passed r) ∧
      (∀ t r g, Outgoing y t r g → 14 + headerLen r ≤ r.length →
        ipChecksum ((g.drop 14).take (headerLen r)) = 0) ∧
      (∀ b, ∃ k : FwdFrame → Act Unit, forwardTask b = .cmd (.load b) k ∧
        ∀ f, headerOk f.data f.len = false → k f = drop .malformed b) ∧
      ∀ f g, Patched f g 24 2 → ∀ rules n, verdicts rules g n = verdicts rules f n := by
  refine ⟨fun r hr => ?_, fun t r g ho => (ho.passed h).2, forwardTask_malformed,
    fun f g hp rules n => verdicts_patched hp rules⟩
  obtain ⟨t, ⟨g, ho⟩ | hp⟩ := hr
  · exact (ho.passed h).1
  · exact hp.passed h

end Runs

/-- A datagram is forwarded up to its `pkt_send`. -/
def carried : Config (By Tid Cmd) Freighted Tid Tid Unit :=
  Program.play (dataPlane.watched freight.watch) (forwards 2) ((Plane.ports 2).start.shadow .start)

/-- The run with the wrong checksum. -/
theorem reach_carried : Reach (dataPlane.watched freight.watch) Program.anyStep
    ((Plane.ports 2).start.shadow .start) carried :=
  Program.play_reach (fun _ _ _ _ _ => trivial) _

theorem forwards_carried : Forwards carried datagramFrame := by
  have hs : (sendsNext (carried.thread (.worker ⟨0, by decide⟩))).isSome = true := by decide +kernel
  obtain ⟨⟨g, i⟩, hs⟩ := Option.isSome_iff_exists.mp hs
  refine ⟨.worker ⟨0, by decide⟩, .inl ⟨g, .pool ⟨1023, by decide⟩, Vector.replicate 6 2, i,
    ?_, ?_, hs⟩⟩
  all_goals decide +kernel

/-- The frame has passed the checks. -/
theorem forwards_checked_carried : Forwards carried datagramFrame ∧ Passed datagramFrame :=
  ⟨forwards_carried, (forwards_checked reach_carried).1 _ forwards_carried⟩

/-- **The checksum is not verified.**  The datagram arrives with the checksum 0, which does not fit its
header, and is sent on. -/
theorem corrupted_forwarded :
    ¬ ∀ y, Reach (dataPlane.watched freight.watch) Program.anyStep
      ((Plane.ports 2).start.shadow .start) y →
        ∀ r, Forwards y r → ipChecksum ((r.drop 14).take (headerLen r)) = 0 := by
  intro h
  have h₀ := h _ reach_carried _ forwards_carried
  revert h₀
  decide +kernel

end LinuxRouter
