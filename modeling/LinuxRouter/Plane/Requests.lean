import LinuxRouter.Plane.Learning

/-!
# Plane — how often a next hop is asked for

Runs of `forward_task` and `pend_tick`, one call after the other.  `asked k` reads off the trace how
many requests for `k` were sent since its pending slot was created.

`Asks t tr owed` is the invariant: a slot was asked for at most once more than it has retries, once
less if it is still owed a request, and a key without a slot is not counted.  It is kept as long as
no frame arrives for a next hop that already has a slot, since `forward_task` asks for every frame
it parks or drops.  Headline: `requests_bounded`, with the counterexample `request_storm`.

A key's requests are counted from the moment its slot is created, and the slot's own count of
retries is beside them in the state; the invariant compares the two.  A tick moves them together:
the walk raises the retries of a slot, which is then owed a request, and the loop behind the walk
pays.  A frame for a new next hop creates a slot at 0 retries and asks once.  A frame for a next hop
that waits already asks again without touching the slot, and so there is no bound for it.
-/

namespace LinuxRouter

open Program (Prog Runs wp wp_ret wp_iff wp_bind wp_mono)

/-! ### Counting -/

/-- How many requests for `k` were sent since its slot was created; none, if it has no slot. -/
def asked (k : Key) : List Event → Option ℕ
  | [] => none
  | .created k' :: tr => if k' = k then some 0 else asked k tr
  | .removed k' :: tr => if k' = k then none else asked k tr
  | .request k' :: tr => if k' = k then (asked k tr).map (· + 1) else asked k tr
  | .send _ _ :: tr => asked k tr

/-- At every moment of the trace, no slot was asked for more than `1 + ARP_RETRY_MAX` times. -/
def AskedBound (tr : List Event) : Prop :=
  ∀ es, es <:+ tr → ∀ k n, asked k es = some n → n ≤ 1 + arpRetryMax

theorem AskedBound.nil : AskedBound [] := by
  intro es he k n hn
  obtain rfl := List.suffix_nil.mp he
  cases hn

/-- Another event, which keeps to the bound. -/
theorem AskedBound.cons {e : Event} {tr : List Event} (h : AskedBound tr)
    (he : ∀ k n, asked k (e :: tr) = some n → n ≤ 1 + arpRetryMax) : AskedBound (e :: tr) := by
  intro es hes
  rcases List.suffix_cons_iff.mp hes with rfl | hes
  · exact he
  · exact h es hes

/-- What a bound says of a key. -/
theorem AskedBound.self {tr : List Event} (h : AskedBound tr) {k : Key} {n : ℕ}
    (hn : asked k tr = some n) : n ≤ 1 + arpRetryMax :=
  h tr List.suffix_rfl k n hn

/-- Only a request counts. -/
theorem AskedBound.quiet {e : Event} {tr : List Event} (h : AskedBound tr)
    (he : ∀ k, e ≠ .request k) : AskedBound (e :: tr) := by
  refine h.cons fun k n hn => ?_
  cases e with
  | created k' =>
      rw [asked] at hn
      split at hn
      · cases hn
        exact Nat.zero_le _
      · exact h.self hn
  | removed k' =>
      rw [asked] at hn
      split at hn
      · cases hn
      · exact h.self hn
  | request k' => exact absurd rfl (he k')
  | send b mac => exact h.self hn

/-! ### The invariant -/

/-- The slots of `t` by the trace `tr`; those in `owed` are still owed a request. -/
structure Asks (t : PendTable) (tr : List Event) (owed : List Slot) : Prop where
  bound : AskedBound tr
  slot : ∀ i, (t.node i).used = true → ∃ n, asked (t.node i).key tr = some n ∧
    n + (if i ∈ owed then 1 else 0) ≤ 1 + (t.node i).retries ∧ (t.node i).retries ≤ arpRetryMax
  idle : ∀ k, (∀ i, (t.node i).used = true → (t.node i).key ≠ k) → asked k tr = none

/-- No two slots have one key. -/
def PendTable.KeyInj (t : PendTable) : Prop :=
  ∀ i j, (t.node i).used = true → (t.node j).used = true → (t.node i).key = (t.node j).key → i = j

/-- Slots in use have different keys. -/
theorem PendRep.keyInj {t : PendTable} {m : Mem} {order : List Slot} {chains : Slot → List Block}
    (h : PendRep t m order chains) : t.KeyInj :=
  fun i j hi hj => h.key_inj i ((h.used i).mp hi) j ((h.used j).mp hj)

/-- The slots in use after one is given up. -/
theorem used_releaseNode (t : PendTable) (i j : Slot) :
    ((releaseNode t i).node j).used = true ↔ (t.node j).used = true ∧ j ≠ i := by
  rw [node_releaseNode]
  by_cases e : j = i
  · simp [e]
  · simp [e]

namespace Asks

variable {t : PendTable} {tr : List Event} {owed owed' : List Slot} {i : Slot} {k : Key} {b : Block}
  {now : ℕ}

/-- At the start no slot is in use. -/
theorem init : Asks .init [] [] := ⟨.nil, by simp [PendTable.init], fun _ _ => rfl⟩

theorem mono (h : Asks t tr owed) (ho : ∀ i ∈ owed', i ∈ owed) : Asks t tr owed' := by
  refine ⟨h.bound, fun i hi => ?_, h.idle⟩
  obtain ⟨n, hn, hle, hr⟩ := h.slot i hi
  refine ⟨n, hn, le_trans ?_ hle, hr⟩
  by_cases hi' : i ∈ owed'
  · simp [hi', ho i hi']
  · simp [hi']

/-- A frame that is sent is no request. -/
theorem send (h : Asks t tr owed) (b : Block) (mac : Mac) : Asks t (.send b mac :: tr) owed :=
  ⟨h.bound.quiet (by simp), h.slot, h.idle⟩

/-- A slot that is given up. -/
theorem release (h : Asks t tr owed) (hk : t.KeyInj) (hi : (t.node i).used = true) :
    Asks (releaseNode t i) (.removed (t.node i).key :: tr) owed := by
  refine ⟨h.bound.quiet (by simp), fun j hj => ?_, fun k hn => ?_⟩
  · obtain ⟨hj, hji⟩ := (used_releaseNode t i j).mp hj
    have hne : (t.node i).key ≠ (t.node j).key := fun e => hji (hk i j hi hj e).symm
    rw [key_releaseNode, retries_releaseNode, asked, if_neg hne]
    exact h.slot j hj
  · rw [asked]
    split
    · rfl
    · rename_i hne
      refine h.idle k fun j hj e => ?_
      by_cases hji : j = i
      · exact hne (hji ▸ e)
      · exact hn j ((used_releaseNode t i j).mpr ⟨hj, hji⟩) (by rwa [key_releaseNode])

/-- A slot that is filled is owed its first request. -/
theorem fill (h : Asks t tr owed) (hi : (t.node i).used = false)
    (hk : ∀ j, (t.node j).used = true → (t.node j).key ≠ k) :
    Asks (t.fill now k b i) (.created k :: tr) (i :: owed) := by
  refine ⟨h.bound.quiet (by simp), fun j hj => ?_, fun k' hn => ?_⟩
  · by_cases e : j = i
    · subst e
      exact ⟨0, by simp [asked], by simp, by simp⟩
    · simp only [PendTable.node_fill, Function.update_of_ne e] at hj ⊢
      rw [asked, if_neg (hk j hj).symm]
      simpa [e] using h.slot j hj
  · have hne : k ≠ k' := by simpa using hn i (by simp)
    rw [asked, if_neg hne]
    refine h.idle k' fun j hj e => hn j ?_ ?_
    · have hji : j ≠ i := fun e => by simp [e, hi] at hj
      simpa [hji] using hj
    · have hji : j ≠ i := fun e => by simp [e, hi] at hj
      simpa [hji] using e

/-- A request that a slot is owed. -/
theorem request (h : Asks t tr (i :: owed)) (hk : t.KeyInj) (hi : (t.node i).used = true)
    (ho : i ∉ owed) : Asks t (.request (t.node i).key :: tr) owed := by
  obtain ⟨n, hn, hle, hr⟩ := h.slot i hi
  simp only [List.mem_cons, true_or, if_true] at hle
  have hself : asked (t.node i).key (.request (t.node i).key :: tr) = some (n + 1) := by
    rw [asked, if_pos rfl, hn, Option.map_some]
  have hother : ∀ k, (t.node i).key ≠ k →
      asked k (.request (t.node i).key :: tr) = asked k tr := by
    intro k hne
    rw [asked, if_neg hne]
  refine ⟨h.bound.cons fun k m hm => ?_, fun j hj => ?_, fun k hk' => ?_⟩
  · by_cases e : (t.node i).key = k
    · subst e
      rw [hself] at hm
      cases hm
      omega
    · rw [hother k e] at hm
      exact h.bound.self hm
  · by_cases e : j = i
    · subst e
      exact ⟨n + 1, hself, by simpa [ho] using hle, hr⟩
    · have hne : (t.node i).key ≠ (t.node j).key := fun e' => e (hk i j hi hj e').symm
      rw [hother _ hne]
      simpa [e] using h.slot j hj
  · rw [hother k (hk' i hi)]
    exact h.idle k hk'

/-- A request for a next hop without a slot. -/
theorem stray (h : Asks t tr owed) (hk : ∀ j, (t.node j).used = true → (t.node j).key ≠ k) :
    Asks t (.request k :: tr) owed := by
  have hsame : ∀ k', asked k' (.request k :: tr) = asked k' tr := by
    intro k'
    rw [asked]
    split
    · rename_i e
      rw [← e, h.idle k hk, Option.map_none]
    · rfl
  refine ⟨h.bound.cons fun k' n hn => h.bound.self (hsame k' ▸ hn), fun j hj => ?_, fun k' hk' => ?_⟩
  · rw [hsame]
    exact h.slot j hj
  · rw [hsame]
    exact h.idle k' hk'

theorem sends (h : Asks t tr owed) (cs : List Block) (mac : Mac) :
    Asks t ((cs.map (Event.send · mac)).reverse ++ tr) owed := by
  induction cs generalizing tr with
  | nil => exact h
  | cons c cs ih => simpa using ih (h.send c mac)

end Asks

/-! ### A tick -/

/-- Slots given up are counted no longer. -/
theorem asked_removed (ks : List Key) (tr : List Event) (k : Key) :
    asked k (ks.map Event.removed ++ tr) = if k ∈ ks then none else asked k tr := by
  induction ks with
  | nil => rfl
  | cons k' ks ih =>
      rw [List.map_cons, List.cons_append, asked, ih]
      by_cases e : k' = k
      · simp [e]
      · simp [e, Ne.symm e]

/-- And so keep to the bound. -/
theorem AskedBound.removed {tr : List Event} (h : AskedBound tr) (ks : List Key) :
    AskedBound (ks.map Event.removed ++ tr) := by
  induction ks with
  | nil => exact h
  | cons k ks ih => exact ih.quiet (by simp)

/-- The walk of `pend_tick` gives up the slots out of retries, and owes every other a request. -/
theorem Asks.sweep {t : PendTable} {m : Mem} {order : List Slot} {chains : Slot → List Block}
    {tr : List Event} (h : Asks t tr []) (hr : PendRep t m order chains) (now : ℕ) :
    Asks (pendSweep now m t).table
      ((pendSweep now m t).dead.map (fun ev => Event.removed ev.key) ++ tr)
      (order.filter fun i => !t.expired i) := by
  have hs := sweep_spec hr now
  have hd : (pendSweep now m t).dead.map (fun ev => Event.removed ev.key) =
      ((order.filter t.expired).map fun i => (t.node i).key).map Event.removed := by
    rw [hs.dead]
    simp [Function.comp_def]
  have hused : ∀ i, ((pendSweep now m t).table.node i).used = true ↔
      (t.node i).used = true ∧ t.expired i = false := by
    intro i
    rw [hs.rep.used, hr.used]
    simp
  rw [hd]
  refine ⟨h.bound.removed _, fun i hi => ?_, fun k hk => ?_⟩
  · obtain ⟨hu, hx⟩ := (hused i).mp hi
    have ho := (hr.used i).mp hu
    obtain ⟨n, hn, hle, -⟩ := h.slot i hu
    have hnd : (t.node i).key ∉ (order.filter t.expired).map fun i => (t.node i).key := by
      simp only [List.mem_map, List.mem_filter, not_exists, not_and, and_imp]
      intro j hj hjx hjk
      rw [hr.key_inj j hj i ho hjk, hx] at hjx
      cases hjx
    have hret : ((pendSweep now m t).table.node i).retries = (t.node i).retries + 1 := by
      rw [hs.retries]
      simp [ho, hx]
    have hlt : (t.node i).retries < arpRetryMax := by simpa [PendTable.expired] using hx
    rw [hs.key, asked_removed, if_neg hnd, hret]
    refine ⟨n, hn, ?_, hlt⟩
    simp only [List.not_mem_nil, if_false] at hle
    simp only [List.mem_filter, ho, hx, Bool.not_false, and_self, if_true]
    omega
  · rw [asked_removed]
    split
    · rfl
    · rename_i hnd
      refine h.idle k fun j hj hjk => ?_
      cases hx : t.expired j with
      | true => exact hnd (List.mem_map.mpr ⟨j, by simp [hx, (hr.used j).mp hj], hjk⟩)
      | false => exact hk j ((hused j).mpr ⟨hj, hx⟩) (by rw [hs.key]; exact hjk)

/-- Between calls no slot is owed a request. -/
def Settling (s : Plane) : Prop :=
  (∃ order chains, Parked s order chains) ∧ Asks s.pend s.trace []

/-- The loop of `pend_tick`, with the slots `is` still to do. -/
structure Asking (ks : List Key) (is : List Slot) (s : Plane) : Prop where
  parked : ∃ order chains, Parked s order chains
  keys : ks = is.map fun i => (s.pend.node i).key
  nodup : is.Nodup
  used : ∀ i ∈ is, (s.pend.node i).used = true
  asks : Asks s.pend s.trace is

/-- One round of the loop. -/
theorem Asking.step {k : Key} {ks : List Key} {is : List Slot} {s : Plane}
    (h : Asking (k :: ks) is s) : wp exec
      (fun _ s' => wp exec (fun _ s'' => ∃ is', Asking ks is' s'') (forwardFlushPending k) s')
      (arpRequest k) s := by
  obtain ⟨order, chains, hp⟩ := h.parked
  obtain ⟨i, is, rfl, rfl, rfl⟩ := List.map_eq_cons_iff.mp h.keys.symm
  obtain ⟨hi, hd⟩ := List.nodup_cons.mp h.nodup
  have hu := h.used i (by simp)
  have hinj := hp.rep.keyInj
  refine wp_mono (arpRequest_leaves hp.spares) fun _ s₁ hl => ?_
  -- the request is sent, or there is none to send
  obtain ⟨hp₁, hpend, ha₁⟩ : Parked s₁ order chains ∧ s₁.pend = s.pend ∧
      Asks s₁.pend s₁.trace is := by
    rcases hl with hl | hl
    · refine ⟨hl.parked hp, hl.pend, ?_⟩
      rw [hl.pend, hl.trace]
      exact h.asks.mono (by simp +contextual)
    · refine ⟨hl.parked hp, hl.pend, ?_⟩
      rw [hl.pend, hl.trace]
      exact h.asks.request hinj hu hi
  refine wp_mono (forwardFlushPending_spec hp₁) ?_
  rintro _ s₂ ⟨es, order', chains', hf, hp₂, htr, -⟩
  cases hf with
  | miss _ hpend' =>
      have e := hpend'.trans hpend
      refine ⟨is, ⟨_, _, hp₂⟩, by rw [e], hd, fun j hj => ?_, ?_⟩
      · rw [e]
        exact h.used j (by simp [hj])
      · rw [hpend', htr]
        exact ha₁
  | hit i' mac _ hi' hk hpend' =>
      have hu' := (hp₁.rep.used i').mpr hi'
      have hii : i' = i := by
        rw [hpend] at hk hu'
        exact hinj i' i hu' hu hk
      subst hii
      refine ⟨is, ⟨_, _, hp₂⟩, ?_, hd, fun j hj => ?_, ?_⟩
      · rw [hpend', hpend]
        simp only [key_releaseNode]
      · rw [hpend', used_releaseNode, hpend]
        exact ⟨h.used j (by simp [hj]), ne_of_mem_of_not_mem hj hi⟩
      · rw [hpend', htr, ← hk, List.append_assoc]
        exact (ha₁.release hp₁.rep.keyInj hu').sends _ _

/-- **A tick** keeps it. -/
theorem Settling.tick {s s' : Plane} (h : Settling s) (hrun : Runs exec pendTick s () s') :
    Settling s' := by
  obtain ⟨⟨order, chains, hp⟩, ha⟩ := h
  have hstart : ∀ e s', Leaves ∅ [] (exec .pendSweep e s).2 s' →
      Parked s' (order.filter fun i => !s.pend.expired i)
        (fun i => if i ∈ order ∧ s.pend.expired i then [] else chains i) →
      ∃ is, Asking ((order.filter fun i => !s.pend.expired i).map fun i => (s.pend.node i).key)
        is s' := by
    intro e s' hl hp'
    refine ⟨_, ⟨_, _, hp'⟩, ?_, hp.rep.list.nodup.filter _, fun i hi => (hp'.rep.used i).mpr hi, ?_⟩
    · rw [hl.pend]
      exact List.map_congr_left fun i _ => ((sweep_spec hp.rep e.clock).key i).symm
    · rw [hl.pend, hl.trace]
      exact ha.sweep hp.rep e.clock
  obtain ⟨is, h⟩ := wp_iff.mp (wp_pendTick (I := fun ks s => ∃ is, Asking ks is s) hp hstart
    fun k ks s ⟨is, h⟩ => h.step) () s' hrun
  obtain rfl := List.map_eq_nil_iff.mp h.keys.symm
  exact ⟨h.parked, h.asks⟩

/-! ### A frame to forward -/

/-- Where steps 1 to 4 of `forward_task` lead: the next hop, unless the frame is dropped. -/
def Plane.hop (s : Plane) (b : FwdFrame) : Option Key :=
  if !headerOk b.data b.len then none
  else if fwCheck s.rules b.data b.len = fwDrop then none
  else if isLocal s.ifaces (getBe32 b.data 30) then none
  else
    match s.ifaces.find? (·.covers (getBe32 b.data 30)) with
    | some it => some (getBe32 b.data 30, it.ifindex)
    | none => (routeLookup s.clz0 s.routes (getBe32 b.data 30)).map
        (·.nextHop (getBe32 b.data 30))

/-- The frame is to be forwarded to a next hop that does not resolve and has a pending slot. -/
def Plane.merges (s : Plane) (b : FwdFrame) : Bool :=
  1#8 < byteAt b.data 22 && (s.hop b).any fun k =>
    (s.arp.resolve k).isNone && (findPend s.pend k).isSome

/-- What a caller of `forward_task` hands over: a frame that is neither parked nor with the
allocator, with a null `next`. -/
structure InHand (b : Block) (s : Plane) : Prop where
  parked : ∀ i, b ∉ s.pend.frames s.mem i
  pool : ¬ s.pool.has b
  next : s.mem.next b = none

section Forward

variable {B : Set Block} {s : Plane} {b : Block} {k : Key} {Q : Unit → Plane → Prop}
  {order : List Slot} {chains : Slot → List Block}

/-- `forward_task` drops the frame, or goes on to step 5 with the next hop. -/
theorem wp_forwardTask (hs : s.pool.Spares B) (hb : b ∉ B) (hlose : ∀ s', Leaves B [] s s' → Q () s')
    (hto : ∀ k, s.hop (s.mem b) = some k → wp exec Q (forwardTo b (s.mem b).data k) s) :
    wp exec Q (forwardTask b) s := by
  have hdrop : ∀ c, wp exec Q (drop c b) s :=
    fun c => wp_mono (drop_leaves c hs hb) fun _ s' h => hlose s' h
  simp only [forwardTask, Prog.perform, Prog.cmd_bind, Prog.ret_bind]
  refine wp_read (fun _ => rfl) ?_
  by_cases hh : headerOk (s.mem b).data (s.mem b).len = true
  · simp only [hh, Bool.not_true, Bool.false_eq_true, if_false]
    refine wp_read (fun _ => rfl) ?_
    by_cases hf : fwCheck s.rules (s.mem b).data (s.mem b).len = fwDrop
    · simp only [hf, if_true]
      exact hdrop _
    · simp only [hf, if_false]
      refine wp_read (fun _ => rfl) ?_
      by_cases hl : isLocal s.ifaces (getBe32 (s.mem b).data 30) = true
      · simp only [hl, if_true]
        refine wp_plain rfl (.refl hs) fun _ s' h => wp_free hb h fun s' h => hlose s' h
      · simp only [hl, Bool.false_eq_true, if_false]
        refine wp_read (fun _ => rfl) ?_
        cases hc : s.ifaces.find? (·.covers (getBe32 (s.mem b).data 30)) with
        | some it => exact hto _ (by simp [Plane.hop, hh, hf, hl, hc])
        | none =>
            refine wp_read (fun _ => rfl) ?_
            cases hr : routeLookup s.clz0 s.routes (getBe32 (s.mem b).data 30) with
            | none => exact hdrop _
            | some rt => exact hto _ (by simp [Plane.hop, hh, hf, hl, hc, hr])
  · simp only [hh, Bool.not_false, if_true]
    exact hdrop _

/-- `pend_enqueue` keeps the frames of the chains from the allocator. -/
theorem pendEnqueue_parked (h : Parked s order chains) (hb : InHand b s) (e : Env) :
    ∃ order' chains', Parked (exec (.pendEnqueue k b) e s).2 order' chains' := by
  have hbc : ∀ i, b ∉ chains i := fun i hi => hb.parked i (by rwa [h.rep.frames_eq])
  obtain ⟨order', chains', hr, he⟩ :=
    enqueue_rep h.rep hbc hb.next (enqueue_step e.clock k b s.mem s.pend)
  refine ⟨order', chains', hr, ?_⟩
  have hs : s.pool.Spares (LinuxRouter.parked chains') := by
    rintro c ⟨i, hc⟩ hf
    by_cases e : c = b
    · exact hb.pool (e ▸ hf)
    · exact he.notMem e (fun j hj => h.spares c ⟨j, hj⟩ hf) i hc
  simp only [exec]
  generalize (pendEnqueue e.clock k b s.mem s.pend).1 = r at he
  generalize (fun i => ((pendEnqueue e.clock k b s.mem s.pend).2.2.node i).key) = key' at he
  refine hs.freeAll fun c hc => ?_
  cases he with
  | evict i hi =>
      rintro ⟨j, hj⟩
      have hc : c ∈ chains i := hc
      by_cases e : j = i
      · subst e
        rw [Function.update_self, List.mem_singleton] at hj
        exact hbc j (hj ▸ hc)
      · rw [Function.update_of_ne e] at hj
        exact e (h.rep.slot_unique hj hc)
  | _ => cases hc

/-- A frame for a next hop without a slot: a new slot, owed its request, or none. -/
theorem Asks.enqueue (h : Parked s order chains) (ha : Asks s.pend s.trace [])
    (hf : findPend s.pend k = none) (b : Block) (e : Env) :
    ((exec (.pendEnqueue k b) e s).1 = .noSlot ∧
        Leaves (LinuxRouter.parked chains) [] s (exec (.pendEnqueue k b) e s).2) ∨
      ∃ ev i, (exec (.pendEnqueue k b) e s).1 = .created ev ∧
        ((exec (.pendEnqueue k b) e s).2.pend.node i).used = true ∧
        ((exec (.pendEnqueue k b) e s).2.pend.node i).key = k ∧
        Asks (exec (.pendEnqueue k b) e s).2.pend (exec (.pendEnqueue k b) e s).2.trace [i] := by
  have hs := enqueue_step e.clock k b s.mem s.pend
  have hk : ∀ j, (s.pend.node j).used = true → (s.pend.node j).key ≠ k :=
    fun j hj => h.rep.findPend_eq_none.mp hf j ((h.rep.used j).mp hj)
  simp only [exec]
  generalize (pendEnqueue e.clock k b s.mem s.pend).1 = r,
    (pendEnqueue e.clock k b s.mem s.pend).2.1 = m,
    (pendEnqueue e.clock k b s.mem s.pend).2.2 = t at hs
  cases hs with
  | joined i hi => simp [hf] at hi
  | full i hi => simp [hf] at hi
  | noSlot => exact .inl ⟨rfl, rfl, rfl, rfl, fun _ _ => rfl, h.spares⟩
  | free i _ hu =>
      exact .inr ⟨none, i, rfl, by simp, by simp, ha.fill hu hk⟩
  | evict i _ hu =>
      refine .inr ⟨some _, i, rfl, by simp, by simp, (ha.release h.rep.keyInj hu).fill ?_ ?_⟩
      · simp [node_releaseNode]
      · intro j hj
        rw [key_releaseNode]
        exact hk j ((used_releaseNode _ _ _).mp hj).1

/-- The frame is dropped or sent. -/
theorem Settling.leaves {s' : Plane} {es : List Event} (h : Settling s)
    (hl : Leaves (LinuxRouter.parked chains) es s s') (hp : Parked s order chains)
    (he : es = [] ∨ ∃ mac, es = [.send b mac]) : Settling s' := by
  refine ⟨⟨_, _, hl.parked hp⟩, ?_⟩
  rw [hl.pend, hl.trace]
  rcases he with rfl | ⟨mac, rfl⟩
  · exact h.2
  · exact h.2.send b mac

/-- A request for a next hop whose slot is owed one, or that has no slot. -/
theorem Asks.arpRequest {o : List Slot} (hp : Parked s order chains)
    (h : Asks s.pend s.trace o)
    (ho : (∃ i, o = [i] ∧ (s.pend.node i).used = true ∧ (s.pend.node i).key = k) ∨
      (o = [] ∧ findPend s.pend k = none)) :
    wp exec (fun _ s' => Settling s') (arpRequest k) s := by
  refine wp_mono (arpRequest_leaves hp.spares) fun _ s' hl => ?_
  rcases hl with hl | hl
  · refine ⟨⟨_, _, hl.parked hp⟩, ?_⟩
    rw [hl.pend, hl.trace]
    exact h.mono (by simp)
  · refine ⟨⟨_, _, hl.parked hp⟩, ?_⟩
    rw [hl.pend, hl.trace]
    rcases ho with ⟨i, rfl, hu, rfl⟩ | ⟨rfl, hf⟩
    · exact h.request hp.rep.keyInj hu (by simp)
    · exact h.stray fun j hj => hp.rep.findPend_eq_none.mp hf j ((hp.rep.used j).mp hj)

/-- Step 6 of `forward_task` for a next hop that does not resolve and has no slot. -/
theorem Settling.enqueue (h : Settling s) (hb : InHand b s) (hf : findPend s.pend k = none) :
    wp exec (fun _ s' => Settling s') (pendEnqueueFrame k b >>= fun _ => LinuxRouter.arpRequest k) s
    := by
  obtain ⟨⟨order, chains, hp⟩, ha⟩ := h
  simp only [pendEnqueueFrame, Prog.perform, Prog.cmd_bind, Prog.ret_bind, Prog.pure_eq]
  intro e
  obtain ⟨order', chains', hp'⟩ := pendEnqueue_parked (k := k) hp hb e
  rcases Asks.enqueue hp ha hf b e with ⟨hr, hl⟩ | ⟨ev, i, hr, hu, hk, ha'⟩
  · rw [hr]
    have hbc : b ∉ LinuxRouter.parked chains := by
      rintro ⟨i, hi⟩
      exact hb.parked i (by rwa [hp.rep.frames_eq])
    refine wp_bind.mpr (wp_mono (drop_leaves .pendDrop hl.spares hbc) fun _ s' hl' => ?_)
    have hl := hl.trans hl'
    refine Asks.arpRequest (hl.parked hp) ?_ (.inr ⟨rfl, ?_⟩)
    · rw [hl.pend, hl.trace]
      exact ha
    · rw [hl.pend]
      exact hf
  · rw [hr]
    have hgo : ∀ s', Leaves (LinuxRouter.parked chains') [] (exec (.pendEnqueue k b) e s).2 s' →
        wp exec (fun _ s' => Settling s') (LinuxRouter.arpRequest k) s' := by
      intro s' hl
      refine Asks.arpRequest (hl.parked hp') (o := [i]) ?_ (.inl ⟨i, rfl, ?_⟩)
      · rw [hl.pend, hl.trace]
        exact ha'
      · rw [hl.pend]
        exact ⟨hu, hk⟩
    cases ev with
    | none => exact hgo _ (.refl hp'.spares)
    | some ev =>
        exact wp_plain rfl (.refl hp'.spares) fun _ _ h => wp_plain rfl h fun _ s' h => hgo s' h

/-- **`forward_task` asks at most once for a slot**, if the frame is not for a slot that is there. -/
theorem Settling.forward {s' : Plane} (h : Settling s) (hb : InHand b s)
    (hm : s.merges (s.mem b) = false) (hrun : Runs exec (forwardTask b) s () s') :
    Settling s' := by
  obtain ⟨⟨order, chains, hp⟩, ha⟩ := id h
  have hbc : b ∉ LinuxRouter.parked chains := by
    rintro ⟨i, hi⟩
    exact hb.parked i (by rwa [hp.rep.frames_eq])
  refine (wp_iff (Q := fun _ s' => Settling s')).mp (wp_forwardTask hp.spares hbc
    (fun s' hl => h.leaves (b := b) hl hp (.inl rfl)) fun k hk => ?_) () s' hrun
  simp only [forwardTo, Prog.perform, Prog.cmd_bind, Prog.ret_bind]
  split
  · exact wp_mono (drop_leaves _ hp.spares hbc) fun _ s' hl => h.leaves (b := b) hl hp (.inl rfl)
  · rename_i httl
    -- the frame stays in hand over the write to it and the lookup
    have hsp : s.pool.Spares (LinuxRouter.parked chains ∪ {b}) := by
      rintro c (hc | rfl)
      · exact hp.spares c hc
      · exact hb.pool
    refine wp_plain rfl (.refl hsp) fun _ s₁ hl e => ?_
    have hl₁ := hl.mono Set.subset_union_left
    have hp₁ : Parked (exec (.arpLookup k) e s₁).2 order chains :=
      ⟨(hl₁.parked hp).rep, (hl₁.parked hp).spares⟩
    have hb₁ : InHand b (exec (.arpLookup k) e s₁).2 := by
      refine ⟨fun i hi => hbc ⟨i, ?_⟩, hl.spares b (.inr rfl), ?_⟩
      · rwa [hp₁.rep.frames_eq] at hi
      · exact (hl.next b (.inr rfl)).trans hb.next
    have h₁ : Settling (exec (.arpLookup k) e s₁).2 := by
      obtain ⟨-, ha₁⟩ := h.leaves (b := b) hl₁ hp (.inl rfl)
      exact ⟨⟨_, _, hp₁⟩, ha₁⟩
    have hres : (exec (.arpLookup k) e s₁).1 = s.arp.resolve k :=
      (s₁.arp.arpLookup_fst e.clock k).trans (by rw [hl.arp])
    rw [hres]
    cases hr : s.arp.resolve k with
    | some mac =>
        exact wp_mono (forwardSend_leaves hp₁.spares hbc) fun _ s' hl' =>
          h₁.leaves hl' hp₁ (.inr ⟨mac, rfl⟩)
    | none =>
        refine h₁.enqueue hb₁ ?_
        have hne : (1#8 < byteAt (s.mem b).data 22) := by simpa using httl
        have hf : findPend s.pend k = none := by
          simpa [Plane.merges, hne, hk, hr] using hm
        exact (congrArg (findPend · k) hl.pend).trans hf

end Forward

/-! ### Runs -/

/-- A call, or what else happens between two calls: anything that leaves the parked frames, and
keeps them from the allocator.  `ok` restricts the frames that arrive. -/
inductive Call (ok : Plane → Block → Prop) (s : Plane) : Plane → Prop where
  | forward {b : Block} {s' : Plane} (hb : InHand b s) (hok : ok s b)
      (h : Runs exec (forwardTask b) s () s') : Call ok s s'
  | tick {s' : Plane} (h : Runs exec pendTick s () s') : Call ok s s'
  | other {s' : Plane} (hp : s'.pend = s.pend) (ht : s'.trace = s.trace)
      (hm : ∀ i, ∀ b ∈ s.pend.frames s.mem i, s'.mem.next b = s.mem.next b ∧ ¬ s'.pool.has b) :
      Call ok s s'

/-- The states that a sequence of calls leads to from the empty table. -/
def Called (ok : Plane → Block → Prop) (s : Plane) : Prop :=
  ∃ s₀ : Plane, s₀.pend = .init ∧ s₀.trace = [] ∧ Relation.ReflTransGen (Call ok) s₀ s

/-- **A call** keeps it. -/
theorem Settling.call {s s' : Plane} (h : Settling s)
    (hc : Call (fun s b => s.merges (s.mem b) = false) s s') : Settling s' := by
  cases hc with
  | forward hb hok hrun => exact h.forward hb hok hrun
  | tick hrun => exact h.tick hrun
  | other hp ht hm =>
      obtain ⟨⟨order, chains, hpk⟩, ha⟩ := h
      have hm' : ∀ i, ∀ b ∈ chains i, s'.mem.next b = s.mem.next b ∧ ¬ s'.pool.has b :=
        fun i b hb => hm i b (by rwa [hpk.rep.frames_eq])
      refine ⟨⟨order, chains, ?_, fun b ⟨i, hb⟩ => (hm' i b hb).2⟩, by rwa [hp, ht]⟩
      rw [hp]
      exact hpk.rep.congr_mem fun i b hb => (hm' i b hb).1

/-- **No request storm.**  In every sequence of calls in which no frame arrives for an unresolved
next hop that already has a pending slot, no slot is ever asked for more than `1 + ARP_RETRY_MAX`
times. -/
theorem requests_bounded {s : Plane} (h : Called (fun s b => s.merges (s.mem b) = false) s) :
    AskedBound s.trace := by
  obtain ⟨s₀, hp, ht, hr⟩ := h
  have h₀ : Settling s₀ := by
    refine ⟨⟨[], fun _ => [], ?_, fun b ⟨_, hb⟩ => by cases hb⟩, ?_⟩
    · rw [hp]
      exact .init _
    · rw [hp, ht]
      exact .init
  have hs : Settling s := by
    clear hp ht
    induction hr with
    | refl => exact h₀
    | tail _ hc ih => exact ih.call hc
  exact hs.2.bound

/-! ### Two next hops -/

/-- A packet for 10.0.0.2 and one for 10.0.0.3 are in hand, in blocks from `malloc`. -/
def Plane.pair : Plane :=
  { Plane.lan with
    mem := fun b =>
      { next := none, len := 34, outIfidx := 0, nexthop := 0
        data := if b = .heap 1 then lanPacket.set 33 3 else lanPacket }
    pool := { Pool.init with live := [0, 1] } }

/-- The first packet is forwarded, and `pend_tick` runs. -/
def pairTick : Plane :=
  (Program.replay exec .packet pendTick
    (Program.replay exec .packet (forwardTask (.heap 0)) Plane.pair).2).2

/-- Then the second one is forwarded, and `pend_tick` runs twice. -/
def pairTicks : Plane :=
  let s := (Program.replay exec .packet (forwardTask (.heap 1)) pairTick).2
  (Program.replay exec .packet pendTick (Program.replay exec .packet pendTick s).2).2

/-- Both slots are retried, the first one as often as may be. -/
theorem requests_bounded_first :
    asked (0x0a000002, 1) pairTicks.trace = some 4 ∧ asked (0x0a000003, 1) pairTicks.trace = some 3 ∧
      AskedBound pairTicks.trace := by
  have hlive : 1 ∈ pairTick.pool.live := by decide +kernel
  have h₀ : InHand (.heap 0) Plane.pair := ⟨by decide +kernel, fun h => h List.mem_cons_self, rfl⟩
  have h₁ : InHand (.heap 1) pairTick := ⟨by decide +kernel, fun h => h hlive, by decide +kernel⟩
  have htick : ∀ s : Plane, Call (fun s b => s.merges (s.mem b) = false) s
      (Program.replay exec .packet pendTick s).2 := fun s => .tick (replay_act .packet pendTick s)
  refine ⟨by decide +kernel, by decide +kernel, requests_bounded ⟨.pair, rfl, rfl, ?_⟩⟩
  have hfirst := (Relation.ReflTransGen.single
    (Call.forward h₀ (by decide +kernel) (replay_act .packet (forwardTask (.heap 0)) .pair))).tail (htick _)
  exact ((hfirst.tail (.forward h₁ (by decide +kernel)
    (replay_act .packet (forwardTask (.heap 1)) pairTick))).tail (htick _)).tail (htick _)

/-! ### A storm -/

/-- Packets for 10.0.0.2 are in hand, in blocks from `malloc`. -/
def Plane.burst : Plane :=
  { Plane.lan with
    mem := fun _ => { next := none, len := 34, outIfidx := 0, nexthop := 0, data := lanPacket }
    pool := { Pool.init with live := List.range 5 } }

/-- The first `n` of them have been forwarded. -/
def burst : ℕ → Plane
  | 0 => .burst
  | n + 1 => (Program.replay exec .packet (forwardTask (.heap n)) (burst n)).2

theorem burst_inHand : ∀ n : Fin 5, InHand (.heap n) (burst n) := by
  have hp : ∀ n : Fin 5, ∀ i, .heap n ∉ (burst n).pend.frames (burst n).mem i := by decide +kernel
  have hl : ∀ n : Fin 5, (n : ℕ) ∈ (burst n).pool.live := by decide +kernel
  have hn : ∀ n : Fin 5, (burst n).mem.next (.heap n) = none := by decide +kernel
  exact fun n => ⟨hp n, fun h => h (hl n), hn n⟩

theorem burst_called {ok : Plane → Block → Prop} {n : ℕ} (hn : n ≤ 5)
    (hok : ∀ m < n, ok (burst m) (.heap m)) : Called ok (burst n) := by
  refine ⟨.burst, rfl, rfl, ?_⟩
  induction n with
  | zero => exact .refl
  | succ n ih =>
      refine (ih (by omega) fun m hm => hok m (by omega)).tail ?_
      exact .forward (burst_inHand ⟨n, hn⟩) (hok n (by omega))
        (replay_act .packet (forwardTask (.heap n)) (burst n))

/-- **A request storm.**  Five packets for one unresolved next hop, one after the other, and five
requests go out: each miss is followed by `arp_request`, whether or not the packet joined a chain that
was asked for already. -/
theorem request_storm : ¬ ∀ s, Called (fun _ _ => True) s → AskedBound s.trace := by
  intro h
  have h5 := h (burst 5) (burst_called (le_refl 5) fun _ _ => trivial)
  have hn : asked (0x0a000002, 1) (burst 5).trace = some 5 := by decide +kernel
  exact absurd (h5.self hn) (by decide)

end LinuxRouter
