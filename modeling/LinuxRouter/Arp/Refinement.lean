import LinuxRouter.Support.Recency
import LinuxRouter.Arp.Table

/-!
# Arp — the table is a bounded map

Runs of `arp_insert`, `arp_lookup`, `arp_delete`, `arp_tick` and `arp_set_timeout` from `arp_init`,
each call one step, with clock readings that never go back.  `ArpSim us t` relates a table to a
history of the bounded map (`Recency`): the table has its shape, and a lookup finds what the map
holds.  Every call of a run is a call of the map (`ArpSim.call`).  Headline: `arp_refines_map`.

What a lookup finds is a partial map from keys to a MAC and a last use, `view`, and each operation
of `Arp/Table` changes it in one place.  The bounded map is `Support/Recency`, a history of uses
with a policy: what lives after a history is decided by the uses alone, without a table.  The
simulation matches one call with one use.  Lookups, deletions, sweeps and new limits evict nothing;
an insertion into a full table evicts, and there the scan for the smallest time is the map's choice
of the least recently used key, since the times of the entries are the times of the uses.
-/

namespace LinuxRouter

open Linked (IsChain)
open Recency (Use live dom limit clock Legal Ordered Evicts Kept)

/-- A call of the table's interface. -/
inductive ArpCall where
  | insert (k : Key) (mac : Mac)
  | lookup (k : Key)
  | delete (k : Key)
  | tick
  | setTimeout (sec : CInt)

/-- The table after a call at clock `now`. -/
def ArpTable.call (now : ℕ) (t : ArpTable) : ArpCall → Option ArpTable
  | .insert k mac => arpInsert now k mac t
  | .lookup k => some (arpLookup now k t).2
  | .delete k => some (arpDelete k t)
  | .tick => some (arpTick now t)
  | .setTimeout sec => some (arpSetTimeout sec t)

/-- A clock reading that may follow the calls. -/
def ClockOk (cs : List (ℕ × ArpCall)) (now : ℕ) : Prop :=
  (∀ x ∈ cs.head?, x.1 ≤ now) ∧ now < 2 ^ 64 - 1

/-- The runs from `arp_init`, with their calls, newest first. -/
inductive ArpRun : List (ℕ × ArpCall) → ArpTable → Prop where
  | init : ArpRun [] arpInit
  | call {cs : List (ℕ × ArpCall)} {t t' : ArpTable} (h : ArpRun cs t) (now : ℕ) (c : ArpCall)
      (hn : ClockOk cs now) (hc : t.call now c = some t') : ArpRun ((now, c) :: cs) t'

/-- The call, as one of the bounded map. -/
def ArpCall.abs : ArpCall → Recency.Call Key Mac
  | .insert k mac => .insert k mac
  | .lookup k => .lookup k
  | .delete k => .delete k
  | .tick => .sweep
  | .setTimeout sec => .setLimit sec.toInt

/-- The policy of the table: its capacity and its first limit. -/
def arpPolicy : Recency.Policy where
  cap := arpCap
  limit := arpTmo.toInt
  least := 10

/-! ### What the table holds -/

/-- What a lookup finds: the MAC, and the last use. -/
def ArpTable.view (t : ArpTable) (k : Key) : Option (Mac × ℕ) :=
  (t.walk k).map fun i => (t.entry i).val

/-- The MAC a key resolves to. -/
def ArpTable.resolve (t : ArpTable) (k : Key) : Option Mac := (t.view k).map Prod.fst

theorem ArpTable.arpLookup_fst (t : ArpTable) (now : ℕ) (k : Key) :
    (arpLookup now k t).1 = t.resolve k := by
  unfold arpLookup resolve view
  cases t.walk k <;> rfl

namespace ArpRep

variable {t : ArpTable} {chains : Bucket → List ArpSlot} {i : ArpSlot} {k : Key} {now : ℕ}
  {mac : Mac} {e : Mac × ℕ}

/-- What a lookup finds, of the entries in use. -/
theorem view_eq_some (hr : ArpRep t chains) :
    t.view k = some e ↔
      ∃ i, (t.entry i).used = true ∧ (t.entry i).key = k ∧ (t.entry i).val = e := by
  rw [ArpTable.view, Option.map_eq_some_iff]
  exact exists_congr fun i => by rw [hr.walk_eq_some, and_assoc]

/-- An entry given up, seen from outside. -/
theorem view_release (hr : ArpRep t chains) (hu : (t.entry i).used = true) (k : Key) :
    (t.release i).view k = if (t.entry i).key = k then none else t.view k := by
  ext e
  rw [(hr.release_rep hu).view_eq_some]
  simp only [t.used_release, t.key_release, t.val_release]
  by_cases hk : (t.entry i).key = k
  · rw [if_pos hk]
    constructor
    · rintro ⟨j, hj, hjk, -⟩
      obtain ⟨hju, hji⟩ := Bool.and_eq_true_iff.mp hj
      simp [hr.key_inj j i hju hu (hjk.trans hk.symm)] at hji
    · rintro ⟨⟩
  · rw [if_neg hk, hr.view_eq_some]
    refine exists_congr fun j => ?_
    by_cases e : j = i
    · subst e
      simp [hk]
    · simp [e]

/-- An entry that gets a key, seen from outside. -/
theorem view_fill (hr : ArpRep t chains) (hu : (t.entry i).used = false)
    (hk : ∀ j, (t.entry j).used = true → (t.entry j).key ≠ k) (k' : Key) :
    (arpFill now k mac i t).view k' = if k = k' then some (mac, now) else t.view k' := by
  have hself : ((arpFill now k mac i t).entry i).used = true ∧
      ((arpFill now k mac i t).entry i).key = k ∧
        ((arpFill now k mac i t).entry i).val = (mac, now) := by
    simp [arpFill, ArpEntry.key, ArpEntry.val]
  ext e
  rw [(hr.fill_rep hu hk).view_eq_some]
  by_cases hkk : k = k'
  · subst hkk
    rw [if_pos rfl, Option.some_inj]
    constructor
    · rintro ⟨j, hj, hjk, hv⟩
      by_cases e : j = i
      · subst e
        exact hself.2.2.symm.trans hv
      · rw [t.entry_arpFill i j now k mac e] at hj hjk
        exact absurd hjk (hk j hj)
    · rintro rfl
      exact ⟨i, hself⟩
  · rw [if_neg hkk, hr.view_eq_some]
    refine exists_congr fun j => ?_
    by_cases e : j = i
    · subst e
      simp [hself, hkk, hu]
    · rw [t.entry_arpFill i j now k mac e]

/-- An entry that gets a new value, seen from outside. -/
theorem view_renew (hr : ArpRep t chains) (hu : (t.entry i).used = true) (mac : Mac) (now : ℕ)
    (k : Key) :
    (t.setEntry i ((t.entry i).renew mac now)).view k =
      if (t.entry i).key = k then some (mac, now) else t.view k := by
  ext e
  rw [(hr.renew_rep i mac now).view_eq_some, ArpTable.entry_setEntry]
  by_cases hk : (t.entry i).key = k
  · rw [if_pos hk, Option.some_inj]
    constructor
    · rintro ⟨j, hj, hjk, hv⟩
      by_cases ej : j = i
      · subst ej
        simpa using hv
      · rw [Function.update_of_ne ej] at hj hjk
        exact absurd (hr.key_inj j i hj hu (hjk.trans hk.symm)) ej
    · rintro rfl
      exact ⟨i, by simp [hu, hk]⟩
  · rw [if_neg hk, hr.view_eq_some]
    refine exists_congr fun j => ?_
    by_cases ej : j = i
    · subst ej
      simp [hk]
    · rw [Function.update_of_ne ej]

/-- A lookup refreshes an entry, and changes no MAC. -/
theorem resolve_lookup (hr : ArpRep t chains) (now : ℕ) (k k' : Key) :
    (arpLookup now k t).2.resolve k' = t.resolve k' := by
  unfold arpLookup
  cases hw : t.walk k with
  | none => rfl
  | some i =>
      obtain ⟨hu, rfl⟩ := hr.walk_eq_some.mp hw
      have hv := hr.view_renew hu (t.entry i).mac now k'
      change ((t.setEntry i ((t.entry i).renew (t.entry i).mac now)).view k').map Prod.fst = _
      rw [hv, ArpTable.resolve]
      by_cases hk : (t.entry i).key = k'
      · subst hk
        rw [ArpTable.view, hw, if_pos rfl]
        rfl
      · rw [if_neg hk]

theorem view_aged {t' : ArpTable} (hr : ArpRep t chains)
    (h : ArpAged now (List.finRange arpCap) t t') (k : Key) :
    t'.view k = (t.view k).filter fun e => arpAge now e.2 ≤ t.timeout64 := by
  obtain ⟨_, hr'⟩ := h.rep
  ext e
  rw [hr'.view_eq_some, Option.filter_eq_some_iff, hr.view_eq_some]
  simp only [h.used, h.key, h.val]
  constructor
  · rintro ⟨j, hj, hk, rfl⟩
    obtain ⟨hu, ho⟩ := Bool.and_eq_true_iff.mp hj
    exact ⟨⟨j, hu, hk, rfl⟩, decide_eq_true (by simpa [ArpTable.old, ArpEntry.val] using ho)⟩
  · rintro ⟨⟨j, hu, hk, rfl⟩, ho⟩
    have ho := of_decide_eq_true ho
    exact ⟨j, by simpa [hu, ArpTable.old, ArpEntry.val] using ho, hk, rfl⟩

/-- The map holds as many keys as entries are in use. -/
theorem ncard_dom {us : List (Use Key Mac)} (hr : ArpRep t chains)
    (hv : ∀ k, t.view k = live arpPolicy us k) :
    (dom arpPolicy us).ncard = {i | (t.entry i).used = true}.ncard := by
  have hd : dom arpPolicy us = (fun i => (t.entry i).key) '' {i | (t.entry i).used = true} := by
    ext k
    rw [dom, Set.mem_ofPred_eq, ← hv, Option.isSome_iff_exists]
    constructor
    · rintro ⟨e, he⟩
      obtain ⟨i, hu, hk, -⟩ := hr.view_eq_some.mp he
      exact ⟨i, hu, hk⟩
    · rintro ⟨i, hu, hk⟩
      exact ⟨_, hr.view_eq_some.mpr ⟨i, hu, hk, rfl⟩⟩
  rw [hd]
  exact Set.InjOn.ncard_image fun i hi j hj => hr.key_inj i j hi hj

end ArpRep

/-! ### The simulation -/

/-- The table stands for the map with the history `us`. -/
structure ArpSim (us : List (Use Key Mac)) (t : ArpTable) : Prop where
  rep : ∃ chains, ArpRep t chains
  view : ∀ k, t.view k = live arpPolicy us k
  timeout : t.timeout.toInt = limit arpPolicy us
  ordered : Ordered us
  legal : Legal arpPolicy us

/-- The empty table and the empty history. -/
theorem ArpSim.init : ArpSim [] arpInit where
  rep := ⟨_, .init⟩
  view := fun _ => rfl
  timeout := rfl
  ordered := trivial
  legal := trivial

/-- In 64 bits the age of an entry is what it should be, unless it was seen in the future. -/
theorem arpAge_le_iff {t : ArpTable} {now last : ℕ} (hle : last ≤ now) (hlt : now < 2 ^ 64)
    (ht : 0 ≤ t.timeout.toInt) :
    arpAge now last ≤ t.timeout64 ↔ (now : ℤ) - last ≤ t.timeout.toInt := by
  have hb := t.timeout.toInt_lt
  have ha : arpAge now last = now - last := by
    unfold arpAge
    omega
  have hm : t.timeout.toInt % 2 ^ 64 = t.timeout.toInt := Int.emod_eq_of_lt ht (by omega)
  rw [ha, ArpTable.timeout64, hm]
  omega

namespace ArpSim

variable {us : List (Use Key Mac)} {t : ArpTable} {now : ℕ} {k : Key} {mac : Mac}

theorem timeout_nonneg (h : ArpSim us t) : 0 ≤ t.timeout.toInt := by
  have hl := Recency.least_le_limit (P := arpPolicy) (by decide) us
  have h10 : arpPolicy.least = 10 := rfl
  rw [h.timeout]
  omega

/-- A key the walk finds is one the map holds. -/
theorem walk_isSome (h : ArpSim us t) : (t.walk k).isSome ↔ k ∈ dom arpPolicy us := by
  rw [dom, Set.mem_ofPred_eq, ← h.view, ArpTable.view, Option.isSome_map]

/-- Calls that evict nothing and leave the limit. -/
theorem quiet (h : ArpSim us t) {t' : ArpTable} (c : Recency.Call Key Mac)
    (hc : ∀ k v, c = .insert k v → k ∈ dom arpPolicy us ∨ (dom arpPolicy us).ncard < arpCap)
    (hle : clock us ≤ now) (hr : ∃ chains, ArpRep t' chains)
    (hv : ∀ k, t'.view k = live arpPolicy (⟨now, c, none⟩ :: us) k)
    (ht : t'.timeout.toInt = limit arpPolicy (⟨now, c, none⟩ :: us)) :
    ArpSim (⟨now, c, none⟩ :: us) t' :=
  ⟨hr, hv, ht, ⟨h.ordered, hle⟩, h.legal, hc⟩

/-- A key that no walk finds is one the map does not hold. -/
theorem walk_none (h : ArpSim us t) {k : Key} (hw : t.walk k = none) : live arpPolicy us k = none := by
  rw [← h.view, ArpTable.view, hw, Option.map_none]

/-- `arp_lookup` is a use of the map. -/
theorem lookup (h : ArpSim us t) (hle : clock us ≤ now) (k : Key) :
    ArpSim (⟨now, .lookup k, none⟩ :: us) (arpLookup now k t).2 := by
  obtain ⟨_, hr⟩ := h.rep
  unfold arpLookup
  cases hw : t.walk k with
  | none =>
      refine h.quiet _ (by rintro _ _ ⟨⟩) hle h.rep (fun k' => ?_) h.timeout
      rw [h.view]
      by_cases hk : k = k'
      · subst hk
        simp [live, h.walk_none hw]
      · simp [live, hk]
  | some i =>
      obtain ⟨hu, rfl⟩ := hr.walk_eq_some.mp hw
      refine h.quiet _ (by rintro _ _ ⟨⟩) hle ⟨_, hr.renew_rep i _ now⟩ (fun k' => ?_) h.timeout
      refine (hr.view_renew hu _ now k').trans ?_
      by_cases hk : (t.entry i).key = k'
      · subst hk
        have hv : live arpPolicy us (t.entry i).key = some (t.entry i).val := by
          rw [← h.view, ArpTable.view, hw, Option.map_some]
        simp [live, hv, ArpEntry.val]
      · simp [live, hk, h.view]

theorem delete (h : ArpSim us t) (hle : clock us ≤ now) (k : Key) :
    ArpSim (⟨now, .delete k, none⟩ :: us) (arpDelete k t) := by
  obtain ⟨_, hr⟩ := h.rep
  rw [hr.arpDelete_eq]
  cases hw : t.walk k with
  | none =>
      refine h.quiet _ (by rintro _ _ ⟨⟩) hle h.rep (fun k' => ?_) h.timeout
      rw [h.view]
      by_cases hk : k = k'
      · subst hk
        simp [live, h.walk_none hw]
      · simp [live, hk]
  | some i =>
      obtain ⟨hu, rfl⟩ := hr.walk_eq_some.mp hw
      refine h.quiet _ (by rintro _ _ ⟨⟩) hle ⟨_, hr.release_rep hu⟩ (fun k' => ?_) h.timeout
      simp only [hr.view_release hu, live, h.view]

theorem tick (h : ArpSim us t) (hle : clock us ≤ now) (hlt : now < 2 ^ 64) :
    ArpSim (⟨now, .sweep, none⟩ :: us) (arpTick now t) := by
  obtain ⟨_, hr⟩ := h.rep
  have ha := arpTick_spec hr now
  refine h.quiet _ (by rintro _ _ ⟨⟩) hle ha.rep (fun k => ?_)
    ((congrArg Int32.toInt ha.timeout).trans h.timeout)
  rw [hr.view_aged ha, h.view, live]
  dsimp only
  cases hl : live arpPolicy us k with
  | none => rfl
  | some e =>
      have hage := arpAge_le_iff ((Recency.live_le_clock h.ordered hl).trans hle) hlt
        h.timeout_nonneg
      rw [h.timeout] at hage
      simp only [Option.filter_some, hage]

theorem setTimeout (h : ArpSim us t) (hle : clock us ≤ now) (sec : CInt) :
    ArpSim (⟨now, .setLimit sec.toInt, none⟩ :: us) (arpSetTimeout sec t) := by
  have h10 : 10 ≤ sec ↔ arpPolicy.least ≤ sec.toInt := Int32.le_iff_toInt_le
  unfold arpSetTimeout
  split
  · rename_i hs
    obtain ⟨_, hr⟩ := h.rep
    refine h.quiet _ (by rintro _ _ ⟨⟩) hle ⟨_, hr.chain, hr.mem, hr.key_inj⟩ h.view ?_
    rw [limit]
    exact (if_pos (h10.mp hs)).symm
  · rename_i hs
    refine h.quiet _ (by rintro _ _ ⟨⟩) hle h.rep h.view ?_
    rw [limit]
    exact h.timeout.trans (if_neg fun e => hs (h10.mpr e)).symm

/-- `arp_insert`: it renews the key, takes a free entry, or takes the entry of a key that the map
may evict. -/
theorem insert (h : ArpSim us t) (hle : clock us ≤ now) (hlt : now < 2 ^ 64 - 1) (k : Key)
    (mac : Mac) :
    ∃ t' x, arpInsert now k mac t = some t' ∧ ArpSim (⟨now, .insert k mac, x⟩ :: us) t' := by
  obtain ⟨_, hr⟩ := h.rep
  have hcard := hr.ncard_dom h.view
  have hval : ∀ i, (t.entry i).used = true →
      live arpPolicy us (t.entry i).key = some (t.entry i).val := by
    intro i hu
    rw [← h.view]
    exact hr.view_eq_some.mpr ⟨i, hu, rfl, rfl⟩
  cases arpInsert_step now k mac t with
  | renew i hw he =>
      obtain ⟨hu, rfl⟩ := hr.walk_eq_some.mp hw
      have hd : (t.entry i).key ∈ dom arpPolicy us := h.walk_isSome.mp (by rw [hw, Option.isSome_some])
      refine ⟨_, none, he, h.quiet _ ?_ hle ⟨_, hr.renew_rep i mac now⟩ (fun k' => ?_) h.timeout⟩
      · rintro _ _ ⟨⟩
        exact .inl hd
      · rw [hr.view_renew hu]
        simp [live, h.view]
  | free i hw hu he =>
      have hk := hr.walk_eq_none.mp hw
      refine ⟨_, none, he, h.quiet _ ?_ hle ⟨_, hr.fill_rep hu hk⟩ (fun k' => ?_) h.timeout⟩
      · -- a free entry: the map is not full
        rintro _ _ ⟨⟩
        refine .inr ?_
        have hss : {j | (t.entry j).used = true} ⊂ Set.univ := by
          refine ⟨Set.subset_univ _, fun hs => ?_⟩
          simpa [hu] using hs (Set.mem_univ i)
        rw [hcard]
        simpa using Set.ncard_lt_ncard hss
      · rw [hr.view_fill hu hk]
        simp [live, h.view]
  | evict i hw hall hold he =>
      have hk' := hr.key_ne_of_release (i := i) hw
      have hu := t.used_release_self i
      have hrel := hr.release_rep (hall i)
      -- every entry is in use, so the map is full and may evict
      have hfull : (dom arpPolicy us).ncard = arpPolicy.cap := by
        have hs : {j | (t.entry j).used = true} = Set.univ := Set.eq_univ_of_forall hall
        rw [hcard, hs, Set.ncard_univ, Nat.card_fin]
        rfl
      refine ⟨_, some (t.entry i).key, he, ⟨_, hrel.fill_rep hu hk'⟩, fun k' => ?_,
        h.timeout, ⟨h.ordered, hle⟩, h.legal, ⟨k, mac, rfl, ?_⟩, hfull, _, hval i (hall i), ?_⟩
      · rw [hrel.view_fill hu hk', hr.view_release (hall i)]
        simp [live, h.view]
      · rw [← h.walk_isSome, hw]
        simp
      · intro y e' hy
        rw [← h.view] at hy
        obtain ⟨j, -, -, rfl⟩ := hr.view_eq_some.mp hy
        exact hold j
  | stuck hall hmax he =>
      -- no entry is older than the clock allows, so one is always chosen
      have h0 := hmax ⟨0, by decide⟩
      have h1 := Recency.live_le_clock h.ordered (hval ⟨0, by decide⟩ (hall _))
      simp only [ArpEntry.val] at h1
      omega

/-- **One call of the table is one call of the map.** -/
theorem call (h : ArpSim us t) (hle : clock us ≤ now) (hlt : now < 2 ^ 64 - 1) (c : ArpCall) :
    ∃ t' x, t.call now c = some t' ∧ ArpSim (⟨now, c.abs, x⟩ :: us) t' := by
  cases c with
  | insert k mac => exact h.insert hle hlt k mac
  | lookup k => exact ⟨_, none, rfl, h.lookup hle k⟩
  | delete k => exact ⟨_, none, rfl, h.delete hle k⟩
  | tick => exact ⟨_, none, rfl, h.tick hle (by omega)⟩
  | setTimeout sec => exact ⟨_, none, rfl, h.setTimeout hle sec⟩

/-- What a lookup returns is what the key was inserted with last. -/
theorem arpLookup_eq_some (h : ArpSim us t) (n : ℕ) :
    (arpLookup n k t).1 = some mac ↔ Kept arpPolicy k mac us := by
  rw [t.arpLookup_fst, ArpTable.resolve, h.view, Recency.live_eq_some_iff]

end ArpSim

/-- The calls of a run, as the history of the map. -/
def Records (cs : List (ℕ × ArpCall)) (us : List (Use Key Mac)) : Prop :=
  us.map (fun u => (u.now, u.call)) = cs.map fun c => (c.1, c.2.abs)

/-- The clock of a history is that of its calls. -/
theorem Records.clock_le {cs : List (ℕ × ArpCall)} {us : List (Use Key Mac)} {now : ℕ}
    (h : Records cs us) (hn : ClockOk cs now) : clock us ≤ now := by
  cases us with
  | nil => exact Nat.zero_le _
  | cons u us =>
      cases cs with
      | nil => cases h
      | cons c cs =>
          have e : u.now = c.1 := congrArg Prod.fst (List.cons.inj h).1
          rw [clock, e]
          exact hn.1 c rfl

/-- **A run of the table is a history of the map.** -/
theorem ArpRun.sim {cs : List (ℕ × ArpCall)} {t : ArpTable} (h : ArpRun cs t) :
    ∃ us, Records cs us ∧ ArpSim us t := by
  induction h with
  | init => exact ⟨[], rfl, .init⟩
  | call h now c hn hc ih =>
      obtain ⟨us, hus, hs⟩ := ih
      obtain ⟨t', x, hc', hs'⟩ := hs.call (hus.clock_le hn) hn.2 c
      obtain rfl := Option.some.inj (hc.symm.trans hc')
      exact ⟨⟨now, c.abs, x⟩ :: us, congrArg (List.cons (now, c.abs)) hus, hs'⟩

/-! ### What holds in every state -/

/-- Every used entry is in the chain of its own bucket, once, no unused entry is in a chain, every
chain ends, and no two used entries have one key. -/
structure ArpTable.WellFormed (t : ArpTable) : Prop where
  chain : ∀ h, ∃ xs, IsChain t.next (t.bucket h) xs ∧ xs.Nodup ∧
    ∀ i, i ∈ xs ↔ (t.entry i).used = true ∧ hashIp (t.entry i).ip = h
  key : ∀ i j, (t.entry i).used = true → (t.entry j).used = true →
    (t.entry i).key = (t.entry j).key → i = j

/-- A table with its shape is well formed. -/
theorem ArpRep.wellFormed {t : ArpTable} {chains : Bucket → List ArpSlot}
    (hr : ArpRep t chains) : t.WellFormed where
  chain := fun h => ⟨chains h, hr.chain h, (hr.chain h).nodup, hr.mem h⟩
  key := hr.key_inj

/-- An insertion of a new key into a full table, after the history `us`, takes the place of one
entry, whose last use is the oldest; every other key keeps its MAC. -/
def EvictsOldest (us : List (Use Key Mac)) (t t' : ArpTable) (k : Key) (mac : Mac) : Prop :=
  ∃ x e, live arpPolicy us x = some e ∧ (∀ y e', live arpPolicy us y = some e' → e.2 ≤ e'.2) ∧
    ∀ n y, (arpLookup n y t').1 =
      if y = k then some mac else if y = x then none else (arpLookup n y t).1

/-- An insertion into a full table evicts the key used longest ago. -/
theorem ArpSim.evictsOldest {us : List (Use Key Mac)} {t t' : ArpTable} {now : ℕ} {k : Key}
    {mac : Mac} (h : ArpSim us t) (hle : clock us ≤ now) (hlt : now < 2 ^ 64 - 1)
    (hfull : ∀ i, (t.entry i).used = true) (hnew : t.walk k = none)
    (hi : arpInsert now k mac t = some t') : EvictsOldest us t t' k mac := by
  obtain ⟨t'', x, hi', hs⟩ := h.insert hle hlt k mac
  obtain rfl := Option.some.inj (hi.symm.trans hi')
  have hk : k ∉ dom arpPolicy us := by
    rw [← h.walk_isSome, hnew]
    simp
  obtain ⟨_, hr⟩ := h.rep
  have hcard : (dom arpPolicy us).ncard = arpPolicy.cap := by
    have hu : {j | (t.entry j).used = true} = Set.univ := Set.eq_univ_of_forall hfull
    rw [hr.ncard_dom h.view, hu, Set.ncard_univ, Nat.card_fin]
    rfl
  cases x with
  | none =>
      rcases hs.legal.2 k mac rfl with hd | hd
      · exact absurd hd hk
      · omega
  | some x =>
      obtain ⟨-, -, e, hx, hmin⟩ := hs.legal.2
      refine ⟨x, e, hx, hmin, fun n y => ?_⟩
      rw [ArpTable.arpLookup_fst, ArpTable.arpLookup_fst, ArpTable.resolve, ArpTable.resolve, hs.view,
        h.view, live]
      by_cases hy : k = y
      · simp [hy]
      · by_cases hyx : x = y
        · simp [hy, hyx, Ne.symm hy]
        · simp [hy, hyx, Ne.symm hy, Ne.symm hyx]

/-- The table after the calls `cs` stands for the map with the history `us`. -/
structure RefinesMap (cs : List (ℕ × ArpCall)) (us : List (Use Key Mac)) (t : ArpTable) :
    Prop where
  wellFormed : t.WellFormed
  /-- the history is the calls, with the key that each evicted -/
  records : Records cs us
  /-- each of these keys was one that the map may evict -/
  legal : Legal arpPolicy us
  /-- a lookup hits exactly if the key was inserted and neither deleted, aged out nor evicted since,
  and returns the MAC of its last insertion -/
  lookup : ∀ n k mac, (arpLookup n k t).1 = some mac ↔ Kept arpPolicy k mac us
  /-- the next call goes through; a new key in a full table evicts one key -/
  next : ∀ now, ClockOk cs now → ∀ c, ∃ t', t.call now c = some t' ∧
    ∀ k mac, c = .insert k mac → (∀ i, (t.entry i).used = true) →
      (∀ n, (arpLookup n k t).1 = none) → EvictsOldest us t t' k mac

/-- **The ARP table refines a bounded map.**  After any calls, at any times of a clock that does not
run back, there is a history that records them and what each evicted: by it the bucket lists are in
order, a lookup hits exactly the keys that were inserted and neither deleted, aged out nor evicted
since, with the MAC of their last insertion, and a new key that finds the table full takes the place of
the one used longest ago. -/
theorem arp_refines_map {cs : List (ℕ × ArpCall)} {t : ArpTable} (h : ArpRun cs t) :
    ∃ us, RefinesMap cs us t := by
  obtain ⟨us, hus, hs⟩ := h.sim
  obtain ⟨_, hr⟩ := hs.rep
  refine ⟨us, hr.wellFormed, hus, hs.legal, fun n k mac => hs.arpLookup_eq_some n,
    fun now hn c => ?_⟩
  obtain ⟨t', x, hc, -⟩ := hs.call (hus.clock_le hn) hn.2 c
  refine ⟨t', hc, ?_⟩
  rintro k mac rfl hfull hnew
  have hw : t.walk k = none := by
    have h0 := hnew 0
    rw [t.arpLookup_fst, ArpTable.resolve, Option.map_eq_none_iff, ArpTable.view,
      Option.map_eq_none_iff] at h0
    exact h0
  exact hs.evictsOldest (hus.clock_le hn) hn.2 hfull hw hc

/-- A run: a key is inserted, and aged out. -/
theorem arp_refines_map_aged :
    let t := arpFill 5 (7, 1) bcastMac ⟨0, by decide⟩ arpInit
    ∃ us, RefinesMap [(400, .tick), (5, .insert (7, 1) bcastMac)] us (arpTick 400 t) := by
  intro t
  have hi : ArpRun [(5, .insert (7, 1) bcastMac)] t :=
    .call .init 5 _ ⟨by simp, by decide⟩ rfl
  exact arp_refines_map (.call hi 400 .tick ⟨by simp, by decide⟩ rfl)

end LinuxRouter
