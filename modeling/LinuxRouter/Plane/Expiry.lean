import LinuxRouter.Plane.Learning

/-!
# Plane — a tick over a next hop that resolves

What `pend_tick` does, with no other thread in between, to a slot whose key has an entry in the ARP
table.  A slot that the walk keeps is flushed after its request.  A slot out of retries is given up
by the walk, before anything asks whether it resolves.  Headline: `resolved_sent`, with the
counterexample `resolved_expires`.

`pend_tick` has two halves, the walk under the lock and the loop over the keys it has collected, and
only the second one asks the ARP table.  The proof runs it key by key with `Ticking`, which says
that a slot still to come is as the walk has left it, and a slot that is done is flushed if its key
resolves.
-/

namespace LinuxRouter

open Program (Config Runs wp wp_iff wp_mono)

/-- Every frame of slot `i` in `s` has been passed to `forward_send`. -/
def AllSent (i : Slot) (s s' : Plane) : Prop :=
  ∃ es, s'.trace = es ++ s.trace ∧
    ∀ b ∈ s.pend.frames s.mem i, ∃ mac, Event.send b mac ∈ es

/-- The walk of `pend_tick` keeps the slot. -/
def Kept (s : Plane) (order : List Slot) (i : Slot) : Prop := i ∈ order ∧ s.pend.expired i = false

/-- The loop of `pend_tick`, started in `s₀`, with the slots `is` still to do: these are as they
were, every frame sent is from a slot that the walk kept, and a kept slot that is done and resolves
was sent. -/
structure Ticking (s₀ : Plane) (order₀ : List Slot) (chains₀ : Slot → List Block) (is : List Slot)
    (s : Plane) (order : List Slot) (chains : Slot → List Block) (es : List Event) : Prop where
  parked : Parked s order chains
  arp : ArpSane s.arp
  resolve : ∀ k, s.arp.resolve k = s₀.arp.resolve k
  trace : s.trace = es ++ s₀.trace
  key : ∀ i, (s.pend.node i).key = (s₀.pend.node i).key
  kept : ∀ i ∈ is, Kept s₀ order₀ i
  todo : ∀ i ∈ is, i ∈ order ∧ chains i = chains₀ i
  sent : ∀ b mac, Event.send b mac ∈ es → ∃ i, Kept s₀ order₀ i ∧ b ∈ chains₀ i
  done : ∀ i, Kept s₀ order₀ i → i ∉ is → s₀.arp.resolve (s₀.pend.node i).key ≠ none →
    ∀ b ∈ chains₀ i, ∃ mac, Event.send b mac ∈ es

namespace Ticking

variable {s₀ s s' : Plane} {order₀ order : List Slot} {chains₀ chains : Slot → List Block}
  {is : List Slot} {i : Slot} {es es' : List Event}

/-- `arp_request` leaves the loop where it was. -/
theorem request (h : Ticking s₀ order₀ chains₀ is s order chains es)
    (hl : Leaves (LinuxRouter.parked chains) es' s s') (he : ∀ b mac, Event.send b mac ∉ es') :
    Ticking s₀ order₀ chains₀ is s' order chains (es' ++ es) where
  parked := hl.parked h.parked
  arp := hl.arp ▸ h.arp
  resolve := hl.arp ▸ h.resolve
  trace := by rw [hl.trace, h.trace, List.append_assoc]
  key := hl.pend ▸ h.key
  kept := h.kept
  todo := h.todo
  sent := fun b mac hb => h.sent b mac ((List.mem_append.mp hb).resolve_left (he b mac))
  done := fun i hk hi hr b hb => by
    obtain ⟨mac, hm⟩ := h.done i hk hi hr b hb
    exact ⟨mac, List.mem_append_right _ hm⟩

/-- The flush of the first slot to do. -/
theorem flush {order' : List Slot} {chains' : Slot → List Block} {now : Fin (2 ^ 63)}
    (h : Ticking s₀ order₀ chains₀ (i :: is) s order chains es) (hd : (i :: is).Nodup)
    (hf : Flushed (s₀.pend.node i).key s s' order chains es' order' chains')
    (hp : Parked s' order' chains') (ht : s'.trace = es' ++ s.trace)
    (ha : s'.arp = (arpLookup now (s₀.pend.node i).key s.arp).2) :
    Ticking s₀ order₀ chains₀ is s' order' chains' (es' ++ es) := by
  obtain ⟨hio, hic⟩ := h.todo i (by simp)
  obtain ⟨_, hra⟩ := h.arp.rep
  have hsane : ArpSane s'.arp := ha ▸ h.arp.lookup now _
  have hres : ∀ k, s'.arp.resolve k = s₀.arp.resolve k := by
    intro k
    rw [ha, hra.resolve_lookup, h.resolve]
  have htr : s'.trace = (es' ++ es) ++ s₀.trace := by rw [ht, h.trace, List.append_assoc]
  have hkept : ∀ j ∈ is, Kept s₀ order₀ j := fun j hj => h.kept j (by simp [hj])
  cases hf with
  | miss hn hpend =>
      -- the slot is there, so its key does not resolve
      have hfind := h.parked.rep.findPend_eq_some.mpr ⟨hio, h.key i⟩
      have hnr := hn.resolve_right (by simp [hfind])
      rw [h.resolve] at hnr
      refine ⟨hp, hsane, hres, htr, hpend ▸ h.key, hkept, fun j hj => h.todo j (by simp [hj]),
        h.sent, fun j hk hj hr => ?_⟩
      by_cases e : j = i
      · exact absurd hnr (e ▸ hr)
      · exact h.done j hk (by simp [e, hj]) hr
  | hit i' mac hm hi' hk hpend =>
      obtain rfl : i' = i := h.parked.rep.key_inj i' hi' i hio (hk.trans (h.key i).symm)
      have hne : ∀ j ∈ is, j ≠ i' := fun j hj => ne_of_mem_of_not_mem hj (List.nodup_cons.mp hd).1
      refine ⟨hp, hsane, hres, htr, fun j => ?_, hkept, fun j hj => ?_, fun b mac' hb => ?_,
        fun j hk hj hr b hb => ?_⟩
      · rw [hpend, key_releaseNode, h.key]
      · obtain ⟨hjo, hjc⟩ := h.todo j (by simp [hj])
        refine ⟨h.parked.rep.list.nodup.mem_erase_iff.mpr ⟨hne j hj, hjo⟩, ?_⟩
        rw [Function.update_of_ne (hne j hj), hjc]
      · rcases List.mem_append.mp hb with hb | hb
        · have hbc : b ∈ chains i' := by
            simp only [List.mem_append, List.mem_reverse, List.mem_map, List.mem_singleton,
              Event.send.injEq, reduceCtorEq, or_false] at hb
            obtain ⟨c, hc, rfl, -⟩ := hb
            exact hc
          exact ⟨i', h.kept i' (by simp), hic ▸ hbc⟩
        · exact h.sent b mac' hb
      · by_cases e : j = i'
        · subst e
          rw [← hic] at hb
          exact ⟨mac, by simp [hb]⟩
        · obtain ⟨mac', hm'⟩ := h.done j hk (by simp [e, hj]) hr b hb
          exact ⟨mac', List.mem_append_right _ hm'⟩

/-- The walk of `pend_tick` leaves every kept slot to do. -/
theorem start {e : Env} (h : Parked s₀ order₀ chains₀) (ha : ArpSane s₀.arp)
    (hl : Leaves ∅ [] (exec .pendSweep e s₀).2 s)
    (hp : Parked s (order₀.filter fun i => !s₀.pend.expired i)
      fun i => if i ∈ order₀ ∧ s₀.pend.expired i then [] else chains₀ i) :
    ∃ es, Ticking s₀ order₀ chains₀ (order₀.filter fun i => !s₀.pend.expired i) s
      (order₀.filter fun i => !s₀.pend.expired i)
      (fun i => if i ∈ order₀ ∧ s₀.pend.expired i then [] else chains₀ i) es := by
  have hs := sweep_spec h.rep e.clock
  have hmem : ∀ i, i ∈ order₀.filter (fun i => !s₀.pend.expired i) ↔ Kept s₀ order₀ i := by
    intro i
    simp [Kept]
  refine ⟨_, hp, hl.arp ▸ ha, fun k => by rw [hl.arp]; rfl, hl.trace, fun i => ?_,
    fun i hi => (hmem i).mp hi, fun i hi => ⟨hi, ?_⟩, fun b mac hb => ?_, fun i hk hi => ?_⟩
  · rw [hl.pend]
    exact hs.key i
  · simp [((hmem i).mp hi).2]
  · simp at hb
  · exact absurd ((hmem i).mpr hk) hi

end Ticking

/-- A run of `pend_tick` ends with nothing left to do. -/
theorem pendTick_ticking {s₀ s' : Plane} {order₀ : List Slot} {chains₀ : Slot → List Block}
    (h : Parked s₀ order₀ chains₀) (ha : ArpSane s₀.arp) (hrun : Runs exec pendTick s₀ () s') :
    ∃ order chains es, Ticking s₀ order₀ chains₀ [] s' order chains es := by
  let I : List Key → Plane → Prop := fun ks s => ∃ is order chains es,
    ks = is.map (fun i => (s₀.pend.node i).key) ∧ is.Nodup ∧
      Ticking s₀ order₀ chains₀ is s order chains es
  have hstart : ∀ e s, Leaves ∅ [] (exec .pendSweep e s₀).2 s →
      Parked s (order₀.filter fun i => !s₀.pend.expired i)
        (fun i => if i ∈ order₀ ∧ s₀.pend.expired i then [] else chains₀ i) →
      I ((order₀.filter fun i => !s₀.pend.expired i).map fun i => (s₀.pend.node i).key) s := by
    intro e s hl hp
    obtain ⟨es, ht⟩ := Ticking.start h ha hl hp
    exact ⟨_, _, _, es, rfl, h.rep.list.nodup.filter _, ht⟩
  have hstep : ∀ k ks s, I (k :: ks) s → wp exec
      (fun _ s' => wp exec (fun _ s'' => I ks s'') (forwardFlushPending k) s') (arpRequest k) s := by
    rintro k ks s ⟨is, order, chains, es, hks, hd, ht⟩
    obtain ⟨i, is, rfl, rfl, rfl⟩ := List.map_eq_cons_iff.mp hks.symm
    refine wp_mono (arpRequest_leaves ht.parked.spares) fun _ s₁ hl => ?_
    obtain ⟨es₁, ht₁⟩ : ∃ es₁, Ticking s₀ order₀ chains₀ (i :: is) s₁ order chains es₁ := by
      rcases hl with hl | hl
      · exact ⟨_, ht.request hl (by simp)⟩
      · exact ⟨_, ht.request hl (by simp)⟩
    refine wp_mono (forwardFlushPending_spec ht₁.parked) ?_
    rintro _ s₂ ⟨es₂, order', chains', hf, hp, htr, now, harp⟩
    exact ⟨is, order', chains', _, rfl, (List.nodup_cons.mp hd).2, ht₁.flush hd hf hp htr harp⟩
  obtain ⟨is, order, chains, es, hks, -, ht⟩ := wp_iff.mp (wp_pendTick h hstart hstep) () s' hrun
  obtain rfl := List.map_eq_nil_iff.mp hks.symm
  exact ⟨order, chains, es, ht⟩

/-- **A tick over a next hop that resolves.**  In every reachable state, the frames of a slot whose
key resolves are all sent by `pend_tick` exactly if the slot is not out of retries. -/
theorem resolved_sent {ifs : Ifaces} {routes : List Route} {rules : List FwRule} {proxy : Bool}
    {clz0 : CInt} {m : Mem} {x : Config Cmd Plane (List Block) Tid Unit} {i : Slot} {s' : Plane}
    (hx : Program.Reach dataPlane Program.anyStep
      (Plane.init ifs routes rules proxy clz0 m).start x)
    (hu : (x.shared.pend.node i).used = true)
    (hr : x.shared.arp.resolve (x.shared.pend.node i).key ≠ none)
    (hrun : Runs exec pendTick x.shared () s') :
    AllSent i x.shared s' ↔ (x.shared.pend.node i).retries < arpRetryMax := by
  obtain ⟨order, chains, h, ha⟩ := (reach_inv hx).parked
  generalize x.shared = s₀ at *
  obtain ⟨_, _, es, ht⟩ := pendTick_ticking h ha hrun
  have hi := (h.rep.used i).mp hu
  constructor
  · rintro ⟨es', he, hsent⟩
    obtain rfl : es' = es := List.append_cancel_right (he.symm.trans ht.trace)
    obtain ⟨b, hb⟩ := List.exists_mem_of_ne_nil _ (h.rep.ne_nil i hi)
    obtain ⟨mac, hm⟩ := hsent b (by rwa [h.rep.frames_eq])
    -- the frame came from a slot that the walk kept, and it is in one chain
    obtain ⟨j, hj, hbj⟩ := ht.sent b mac hm
    obtain rfl := h.rep.slot_unique hb hbj
    simpa [PendTable.expired] using hj.2
  · intro hlt
    refine ⟨es, ht.trace, fun b hb => ht.done i ⟨hi, ?_⟩ (by simp) hr b ?_⟩
    · simpa [PendTable.expired] using hlt
    · rwa [h.rep.frames_eq] at hb

/-! ### The last retry -/

/-- The packet for 10.0.0.2 is parked, `n` ticks pass, and then a reply of 10.0.0.2 is learned. -/
def lanTicked (n : ℕ) : Config Cmd Plane (List Block) Tid Unit :=
  Program.play dataPlane
    (parkPacket ++ List.replicate (16 * n) (.timer, .packet) ++ List.replicate 13 (.rx, .arp 2))
    Plane.lan.start

theorem lanTicked_reach (n : ℕ) :
    Program.Reach dataPlane Program.anyStep Plane.lan.start (lanTicked n) :=
  Program.play_reach (fun _ _ _ _ _ => trivial) _

/-- What the next tick makes of it. -/
def lanTick (n : ℕ) : Plane := (Program.replay exec .packet pendTick (lanTicked n).shared).2

theorem lanTick_runs (n : ℕ) : Runs exec pendTick (lanTicked n).shared () (lanTick n) :=
  replay_act .packet pendTick (lanTicked n).shared

/-- After one tick, the next one sends the packet. -/
theorem resolved_sent_retried : AllSent ⟨0, by decide⟩ (lanTicked 1).shared (lanTick 1) :=
  (resolved_sent (lanTicked_reach 1) (by decide +kernel) (by decide +kernel)
    (lanTick_runs 1)).mpr (by decide +kernel)

/-- **A resolved next hop expires.**  After three ticks the reply is learned, and the next tick
frees the packet. -/
theorem resolved_expires :
    ¬ ∀ x, Program.Reach dataPlane Program.anyStep Plane.lan.start x → ∀ i s',
      (x.shared.pend.node i).used = true →
      x.shared.arp.resolve (x.shared.pend.node i).key ≠ none →
      Runs exec pendTick x.shared () s' → AllSent i x.shared s' := by
  intro h
  obtain ⟨es, he, hsent⟩ := h _ (lanTicked_reach 3) ⟨0, by decide⟩ _ (by decide +kernel)
    (by decide +kernel) (lanTick_runs 3)
  have ht : (lanTick 3).trace = [.removed (0x0a000002, 1)] ++ (lanTicked 3).shared.trace := by
    decide +kernel
  obtain rfl : es = _ := List.append_cancel_right (he.symm.trans ht)
  obtain ⟨mac, hm⟩ := hsent (.pool ⟨1023, by decide⟩) (by decide +kernel)
  simp at hm

end LinuxRouter
