import LinuxRouter.Arp.Refinement

/-!
# Arp — the clock is read before the lock is taken

The calls of any number of threads.  A call reads the clock, and some time later has its critical
section with the value it read; the clock never goes back.  `ClockRun` keeps the critical sections
of `arp_tick`.

* `ArpSane`: what holds of the table whatever the clock readings are;
* `sweep_right_iff`: a sweep goes right exactly if no entry was seen after its clock reading;
* `onTime_of_schedule`: a schedule on which this is so.

Headline: `recent_kept`, with the counterexample `recent_aged_out`.

The sweep compares a clock value that was read before the lock with times that other threads have
stored since, in unsigned arithmetic; an entry seen after the reading has an age near 2^64 and is
taken for old.  The table is in order whatever the readings are (`ArpSane`), so that a sweep can be
judged alone, from the table it found and the value it brought: it goes right exactly if no entry in
use was seen after that value.  What an entry in use was last seen at is traced back along the run
(`ClockRun.seen`): to a call that found or inserted it.  So a sweep goes right on every schedule on
which no such call, with a later clock value, got the lock first.
-/

namespace LinuxRouter

/-! ### The table at any clock readings -/

/-- The ARP table has its shape, and no entry was seen at the end of time. -/
structure ArpSane (t : ArpTable) : Prop where
  rep : ∃ chains, ArpRep t chains
  seen : ∀ i, (t.entry i).val.2 < 2 ^ 63

namespace ArpSane

variable {t : ArpTable} (now : Fin (2 ^ 63)) (k : Key)

theorem init : ArpSane arpInit := ⟨⟨_, .init⟩, fun _ => by simp [arpInit, ArpEntry.val]⟩

/-- An entry seen at a clock value stays so. -/
theorem renew (h : ArpSane t) (i : ArpSlot) (mac : Mac) :
    ArpSane (t.setEntry i ((t.entry i).renew mac now)) := by
  obtain ⟨_, hr⟩ := h.rep
  refine ⟨⟨_, hr.renew_rep i mac now⟩, fun j => ?_⟩
  by_cases e : j = i
  · subst e
    simp
  · simpa [e] using h.seen j

/-- A lookup keeps the table sane. -/
theorem lookup (h : ArpSane t) : ArpSane (arpLookup now k t).2 := by
  unfold arpLookup
  split
  · exact h
  · exact h.renew now _ _

theorem fill {chains : Bucket → List ArpSlot} {i : ArpSlot} (hr : ArpRep t chains)
    (hs : ∀ j, (t.entry j).val.2 < 2 ^ 63) (hu : (t.entry i).used = false)
    (hk : ∀ j, (t.entry j).used = true → (t.entry j).key ≠ k) (mac : Mac) :
    ArpSane (arpFill now k mac i t) := by
  refine ⟨⟨_, hr.fill_rep hu hk⟩, fun j => ?_⟩
  by_cases e : j = i
  · subst e
    simp [arpFill, ArpEntry.val]
  · rw [t.entry_arpFill i j now k mac e]
    exact hs j

/-- `arp_insert` goes through, and the key resolves. -/
theorem insert (h : ArpSane t) (mac : Mac) :
    ∃ t', arpInsert now k mac t = some t' ∧ ArpSane t' ∧ t'.view k = some (mac, (now : ℕ)) := by
  obtain ⟨_, hr⟩ := h.rep
  cases arpInsert_step now k mac t with
  | renew i hw he =>
      obtain ⟨hu, rfl⟩ := hr.walk_eq_some.mp hw
      refine ⟨_, he, h.renew now i mac, ?_⟩
      rw [hr.view_renew hu, if_pos rfl]
  | free i hw hu he =>
      have hk := hr.walk_eq_none.mp hw
      refine ⟨_, he, fill now k hr h.seen hu hk mac, ?_⟩
      rw [hr.view_fill hu hk, if_pos rfl]
  | evict i hw hall hold he =>
      have hu := t.used_release_self i
      have hk := hr.key_ne_of_release (i := i) hw
      have hrel := hr.release_rep (hall i)
      refine ⟨_, he, fill now k hrel (fun j => ?_) hu hk mac, ?_⟩
      · rw [t.val_release]
        exact h.seen j
      · rw [hrel.view_fill hu hk, if_pos rfl]
  | stuck hall hmax he =>
      have h0 := hmax ⟨0, by decide⟩
      have h1 := h.seen ⟨0, by decide⟩
      simp only [ArpEntry.val] at h1
      omega

/-- So does a sweep, at any clock value. -/
theorem tick (h : ArpSane t) (now : ℕ) : ArpSane (arpTick now t) := by
  obtain ⟨_, hr⟩ := h.rep
  have ha := arpTick_spec hr now
  refine ⟨ha.rep, fun i => ?_⟩
  rw [ha.val]
  exact h.seen i

theorem setTimeout (h : ArpSane t) (sec : CInt) : ArpSane (arpSetTimeout sec t) := by
  obtain ⟨_, hr⟩ := h.rep
  unfold arpSetTimeout
  split
  · exact ⟨⟨_, hr.chain, hr.mem, hr.key_inj⟩, h.seen⟩
  · exact h

theorem delete (h : ArpSane t) : ArpSane (arpDelete k t) := by
  obtain ⟨_, hr⟩ := h.rep
  rw [hr.arpDelete_eq]
  cases hw : t.walk k with
  | none => exact h
  | some i =>
      refine ⟨⟨_, hr.release_rep (hr.walk_eq_some.mp hw).1⟩, fun j => ?_⟩
      rw [t.val_release]
      exact h.seen j

/-- **Every call keeps the table sane.** -/
theorem call (h : ArpSane t) {c : ArpCall} {t' : ArpTable} (hc : t.call now c = some t') :
    ArpSane t' := by
  cases c with
  | insert k mac =>
      obtain ⟨t₁, he, h₁, -⟩ := h.insert now k mac
      obtain rfl := Option.some.inj (he.symm.trans hc)
      exact h₁
  | lookup k => exact Option.some.inj hc ▸ h.lookup now k
  | delete k => exact Option.some.inj hc ▸ h.delete k
  | tick => exact Option.some.inj hc ▸ h.tick now
  | setTimeout sec => exact Option.some.inj hc ▸ h.setTimeout sec

end ArpSane

/-- No call leaves a limit below the least one. -/
theorem ArpSane.least_le {t t' : ArpTable} {now : ℕ} {c : ArpCall} (h : ArpSane t)
    (ht : 10 ≤ t.timeout.toInt) (hc : t.call now c = some t') : 10 ≤ t'.timeout.toInt := by
  obtain ⟨_, hr⟩ := h.rep
  cases c with
  | insert k mac =>
      have e : arpInsert now k mac t = some t' := hc
      cases arpInsert_step now k mac t with
      | renew i _ he => exact Option.some.inj (he.symm.trans e) ▸ ht
      | free i _ _ he => exact Option.some.inj (he.symm.trans e) ▸ ht
      | evict i _ _ _ he => exact Option.some.inj (he.symm.trans e) ▸ ht
      | stuck _ _ he => cases he.symm.trans e
  | lookup k =>
      rw [← Option.some.inj hc]
      unfold arpLookup
      split <;> exact ht
  | delete k =>
      rw [← Option.some.inj hc, hr.arpDelete_eq]
      split <;> exact ht
  | tick =>
      rw [← Option.some.inj hc, (arpTick_spec hr now).timeout]
      exact ht
  | setTimeout sec =>
      rw [← Option.some.inj hc]
      unfold arpSetTimeout
      split
      · rename_i hs
        exact Int32.le_iff_toInt_le.mp hs
      · exact ht

/-! ### Calls of several threads -/

/-- A critical section: the call, the clock value it read, and the table before and after. -/
structure LockedCall where
  call : ArpCall
  now : Fin (2 ^ 63)
  before : ArpTable
  after : ArpTable

/-- The table, the clock, and the calls that have read the clock and wait for the lock. -/
structure Clocked (ι : Type*) where
  table : ArpTable
  clock : Fin (2 ^ 63)
  waiting : ι → Option (ArpCall × Fin (2 ^ 63))

section

variable {ι : Type*} [DecidableEq ι]

/-- The runs from `arp_init`, with their critical sections, newest first. -/
inductive ClockRun : List LockedCall → Clocked ι → Prop where
  | init (now : Fin (2 ^ 63)) : ClockRun [] { table := arpInit, clock := now, waiting := fun _ => none }
  | pass {ss : List LockedCall} {s : Clocked ι} (h : ClockRun ss s) (now : Fin (2 ^ 63))
      (hn : s.clock ≤ now) : ClockRun ss { s with clock := now }
  | read {ss : List LockedCall} {s : Clocked ι} (h : ClockRun ss s) (i : ι) (c : ArpCall)
      (hi : s.waiting i = none) :
      ClockRun ss { s with waiting := Function.update s.waiting i (some (c, s.clock)) }
  | enter {ss : List LockedCall} {s : Clocked ι} (h : ClockRun ss s) (i : ι) (c : ArpCall)
      (now : Fin (2 ^ 63)) (t : ArpTable) (hi : s.waiting i = some (c, now))
      (hc : s.table.call now c = some t) :
      ClockRun ({ call := c, now := now, before := s.table, after := t } :: ss)
        { s with table := t, waiting := Function.update s.waiting i none }

/-- The sweep gave up only entries last seen more than `g_timeout` seconds before the clock value
that `arp_tick` read, and every entry seen then or later is as it was. -/
structure LockedCall.Right (w : LockedCall) : Prop where
  removed : ∀ i, (w.before.entry i).used = true → (w.after.entry i).used = false →
    w.before.timeout.toInt < (w.now : ℤ) - (w.before.entry i).lastSeen
  kept : ∀ i, (w.before.entry i).used = true → (w.now : ℕ) ≤ (w.before.entry i).lastSeen →
    (w.after.entry i).used = true ∧ (w.after.entry i).key = (w.before.entry i).key ∧
      (w.after.entry i).val = (w.before.entry i).val

/-- When the call got the lock, no entry had been seen after the clock value it read. -/
def LockedCall.OnTime (w : LockedCall) : Prop :=
  ∀ i, (w.before.entry i).used = true → (w.before.entry i).lastSeen ≤ w.now

/-- **The sweep of `arp_tick`** goes right exactly if it is on time. -/
theorem sweep_right_iff {t : ArpTable} {now : Fin (2 ^ 63)} (h : ArpSane t)
    (ht : 10 ≤ t.timeout.toInt) :
    ({ call := .tick, now := now, before := t, after := arpTick now t } : LockedCall).Right ↔
      ∀ i, (t.entry i).used = true → (t.entry i).lastSeen ≤ now := by
  obtain ⟨_, hr⟩ := h.rep
  have ha := arpTick_spec hr now
  have hused : ∀ i, (t.entry i).used = true →
      ((arpTick now t).entry i).used = !(t.old now i) := by
    intro i hu
    simp [ha.used, hu]
  constructor
  · intro hw i hu
    by_contra hl
    have hlt : (now : ℕ) < (t.entry i).lastSeen := not_le.mp hl
    have hseen : (t.entry i).lastSeen < 2 ^ 63 := h.seen i
    have hb := t.timeout.toInt_lt
    -- the age is negative, and wraps around
    have hage : t.timeout64 < arpAge now (t.entry i).lastSeen := by
      rw [arpAge, ArpTable.timeout64]
      omega
    have hold : t.old now i = true := decide_eq_true hage
    have hk := (hw.kept i hu hlt.le).1.symm.trans (hused i hu)
    rw [hold] at hk
    cases hk
  · intro hw
    have hold : ∀ i, (t.entry i).used = true →
        (t.old now i = true ↔ t.timeout.toInt < (now : ℤ) - (t.entry i).lastSeen) := by
      intro i hu
      have hle := arpAge_le_iff (t := t) (hw i hu) (now.2.trans (by decide)) (by omega)
      rw [ArpTable.old, decide_eq_true_iff, gt_iff_lt, ← not_le, hle, not_le]
    refine ⟨fun i hu hf => (hold i hu).mp ?_, fun i hu hl => ⟨?_, ha.key i, ha.val i⟩⟩
    · have hf : ((arpTick now t).entry i).used = false := hf
      simpa [hused i hu] using hf
    · have hl : (now : ℕ) ≤ (t.entry i).lastSeen := hl
      have hn : t.old now i = false := by
        rw [← Bool.not_eq_true, hold i hu]
        omega
      exact (hused i hu).trans (by rw [hn]; rfl)

/-- **Every run keeps the table sane.** -/
theorem ClockRun.sane {ss : List LockedCall} {s : Clocked ι} (h : ClockRun ss s) :
    ArpSane s.table ∧ 10 ≤ s.table.timeout.toInt := by
  induction h with
  | init now => exact ⟨.init, show 10 ≤ arpTmo.toInt by decide⟩
  | pass _ _ _ ih => exact ih
  | read _ _ _ _ ih => exact ih
  | enter _ i c now t hi hc ih => exact ⟨ih.1.call now hc, ih.1.least_le ih.2 hc⟩

/-- **A recently used entry is kept**, in every run, exactly if every sweep is on time: a sweep reads
the clock before it takes the lock, and if an entry is used in between, its age comes out negative,
which an unsigned difference does not show. -/
theorem recent_kept {ss : List LockedCall} {s : Clocked ι} (h : ClockRun ss s) :
    (∀ w ∈ ss, w.call = .tick → w.Right) ↔ ∀ w ∈ ss, w.call = .tick → w.OnTime := by
  have hiff : ∀ w ∈ ss, w.call = .tick → (w.Right ↔ w.OnTime) := by
    induction h with
    | init now => exact fun w hw => nomatch hw
    | pass _ _ _ ih => exact ih
    | read _ _ _ _ ih => exact ih
    | enter h i c now t hi hc ih =>
        rintro w hw hk
        rcases List.mem_cons.mp hw with rfl | hw
        · obtain rfl : c = .tick := hk
          obtain rfl := Option.some.inj hc
          exact sweep_right_iff h.sane.1 h.sane.2
        · exact ih w hw hk
  exact forall₂_congr fun w hw => forall_congr' fun hk => hiff w hw hk

/-! ### Schedules on which every sweep is on time -/

/-- The call stores its clock reading in the entry it finds or fills. -/
def ArpCall.stores : ArpCall → Bool
  | .insert _ _ => true
  | .lookup _ => true
  | .delete _ => false
  | .tick => false
  | .setTimeout _ => false

/-- The entry was in use, with its key, its MAC and its time. -/
def ArpTable.Keeps (t t' : ArpTable) (j : ArpSlot) : Prop :=
  (t.entry j).used = true ∧ (t'.entry j).key = (t.entry j).key ∧ (t'.entry j).mac = (t.entry j).mac ∧
    (t'.entry j).lastSeen = (t.entry j).lastSeen

section Entry

variable {t t' : ArpTable} {now : ℕ} {i j : ArpSlot} {k : Key} {mac : Mac}

/-- What a release leaves in use is as it was. -/
theorem ArpTable.keeps_release (hu : ((t.release i).entry j).used = true) : t.Keeps (t.release i) j := by
  obtain ⟨hm, hl⟩ := Prod.ext_iff.mp (t.val_release i j)
  rw [t.used_release] at hu
  exact ⟨(Bool.and_eq_true_iff.mp hu).1, t.key_release i j, hm, hl⟩

/-- An entry that is filled, and every other. -/
theorem ArpTable.entry_fill (h : t' = arpFill now k mac i t) :
    (t'.entry j).key = k ∧ (t'.entry j).val = (mac, now) ∨ t'.entry j = t.entry j := by
  subst h
  by_cases e : j = i
  · subst e
    exact .inl ⟨by simp [arpFill, ArpEntry.key], by simp [arpFill, ArpEntry.val]⟩
  · exact .inr (t.entry_arpFill i j now k mac e)

/-- The entries after an insertion: that of the call, and those that were there. -/
theorem ArpSane.entry_insert (h : ArpSane t) (hc : arpInsert now k mac t = some t')
    (hu : (t'.entry j).used = true) :
    (t'.entry j).key = k ∧ (t'.entry j).val = (mac, now) ∨ t.Keeps t' j := by
  obtain ⟨_, hr⟩ := h.rep
  cases arpInsert_step now k mac t with
  | renew i hw he =>
      obtain rfl := Option.some.inj (he.symm.trans hc)
      by_cases e : j = i
      · subst e
        refine .inl ⟨?_, by simp⟩
        rw [ArpTable.entry_setEntry, Function.update_self, ArpEntry.key_renew, (hr.walk_eq_some.mp hw).2]
      · have hsame : (t.setEntry i ((t.entry i).renew mac now)).entry j = t.entry j := by
          rw [ArpTable.entry_setEntry, Function.update_of_ne e]
        rw [hsame] at hu
        exact .inr ⟨hu, by rw [hsame], by rw [hsame], by rw [hsame]⟩
  | free i _ _ he =>
      refine (ArpTable.entry_fill (Option.some.inj (he.symm.trans hc)).symm).imp_right fun hj => ?_
      rw [hj] at hu
      exact ⟨hu, by rw [hj], by rw [hj], by rw [hj]⟩
  | evict i _ _ _ he =>
      refine (ArpTable.entry_fill (Option.some.inj (he.symm.trans hc)).symm).imp_right fun hj => ?_
      rw [hj] at hu
      obtain ⟨hused, hkey, hmac, hseen⟩ := ArpTable.keeps_release hu
      exact ⟨hused, by rw [hj, hkey], by rw [hj, hmac], by rw [hj, hseen]⟩
  | stuck _ _ he => cases he.symm.trans hc

/-- The entries after a lookup: a hit refreshes its own. -/
theorem entry_lookup (hu : ((arpLookup now k t).2.entry j).used = true) :
    (t.entry j).used = true ∧ ((arpLookup now k t).2.entry j).key = (t.entry j).key ∧
      ((arpLookup now k t).2.entry j).mac = (t.entry j).mac ∧
      (((arpLookup now k t).2.entry j).lastSeen = (t.entry j).lastSeen ∨
        ((arpLookup now k t).2.entry j).lastSeen = now) := by
  unfold arpLookup at hu ⊢
  split at hu
  · exact ⟨hu, rfl, rfl, .inl rfl⟩
  · rename_i i _
    by_cases e : j = i
    · subst e
      exact ⟨by simpa using hu, by simp [ArpEntry.key], by simp, .inr (by simp)⟩
    · dsimp only at hu ⊢
      rw [ArpTable.entry_setEntry, Function.update_of_ne e] at hu ⊢
      exact ⟨hu, rfl, rfl, .inl rfl⟩

/-- The entries after a call that only takes some out. -/
theorem ArpSane.entry_delete (h : ArpSane t) (hu : ((arpDelete k t).entry j).used = true) :
    t.Keeps (arpDelete k t) j := by
  obtain ⟨_, hr⟩ := h.rep
  rw [hr.arpDelete_eq] at hu ⊢
  split at hu
  · exact ⟨hu, rfl, rfl, rfl⟩
  · exact ArpTable.keeps_release hu

theorem ArpSane.entry_tick (h : ArpSane t) (hu : ((arpTick now t).entry j).used = true) :
    t.Keeps (arpTick now t) j := by
  obtain ⟨_, hr⟩ := h.rep
  have ha := arpTick_spec hr now
  rw [ha.used] at hu
  obtain ⟨hm, hl⟩ := Prod.ext_iff.mp (ha.val j)
  exact ⟨(Bool.and_eq_true_iff.mp hu).1, ha.key j, hm, hl⟩

/-- **What a call makes of an entry in use**: it was inserted by the call, or was in use with its key
and MAC, and was last seen when it was, or by the call. -/
theorem ArpSane.entry_call {c : ArpCall} (h : ArpSane t) (hc : t.call now c = some t')
    (hu : (t'.entry j).used = true) :
    (∃ mac, c = .insert (t'.entry j).key mac ∧ (t'.entry j).val = (mac, now)) ∨
      ((t.entry j).used = true ∧ (t'.entry j).key = (t.entry j).key ∧
        (t'.entry j).mac = (t.entry j).mac ∧
        ((t'.entry j).lastSeen = (t.entry j).lastSeen ∨
          c.stores = true ∧ (t'.entry j).lastSeen = now)) := by
  have hkeeps : t.Keeps t' j → (t.entry j).used = true ∧ (t'.entry j).key = (t.entry j).key ∧
      (t'.entry j).mac = (t.entry j).mac ∧ ((t'.entry j).lastSeen = (t.entry j).lastSeen ∨
        c.stores = true ∧ (t'.entry j).lastSeen = now) :=
    fun hk => ⟨hk.1, hk.2.1, hk.2.2.1, .inl hk.2.2.2⟩
  cases c with
  | insert k mac =>
      refine (h.entry_insert hc hu).imp ?_ hkeeps
      rintro ⟨rfl, hv⟩
      exact ⟨mac, rfl, hv⟩
  | lookup k =>
      have e : (arpLookup now k t).2 = t' := Option.some.inj hc
      subst e
      obtain ⟨hused, hkey, hmac, hseen⟩ := entry_lookup hu
      exact .inr ⟨hused, hkey, hmac, hseen.imp_right fun hl => ⟨rfl, hl⟩⟩
  | delete k =>
      have e : arpDelete k t = t' := Option.some.inj hc
      subst e
      exact .inr (hkeeps (h.entry_delete hu))
  | tick =>
      have e : arpTick now t = t' := Option.some.inj hc
      subst e
      exact .inr (hkeeps (h.entry_tick hu))
  | setTimeout sec =>
      have e : arpSetTimeout sec t = t' := Option.some.inj hc
      subst e
      have he : (arpSetTimeout sec t).entry = t.entry := by
        unfold arpSetTimeout
        split <;> rfl
      rw [he] at hu
      exact .inr (hkeeps ⟨hu, by rw [he], by rw [he], by rw [he]⟩)

end Entry

/-- A used entry was last seen by one of the calls. -/
theorem ClockRun.seen {ss : List LockedCall} {s : Clocked ι} (h : ClockRun ss s) {j : ArpSlot}
    (hu : (s.table.entry j).used = true) :
    ∃ v ∈ ss, v.call.stores = true ∧ (s.table.entry j).lastSeen = v.now := by
  induction h with
  | init now => cases hu
  | pass _ _ _ ih => exact ih hu
  | read _ _ _ _ ih => exact ih hu
  | enter h i c now t hi hc ih =>
      rcases h.sane.1.entry_call hc hu with ⟨mac, rfl, hv⟩ | ⟨hu', -, -, hl | ⟨hs, hl⟩⟩
      · exact ⟨_, List.mem_cons_self, rfl, congrArg Prod.snd hv⟩
      · obtain ⟨v, hv, hs, hl'⟩ := ih hu'
        exact ⟨v, List.mem_cons_of_mem _ hv, hs, hl.trans hl'⟩
      · exact ⟨_, List.mem_cons_self, hs, hl⟩

/-- **A schedule on which a sweep is on time**: no `arp_lookup` or `arp_insert` that read a later
clock value had the lock before it. -/
theorem onTime_of_schedule {ss later earlier : List LockedCall} {s : Clocked ι} {w : LockedCall}
    (h : ClockRun ss s) (hw : ss = later ++ w :: earlier)
    (hs : ∀ v ∈ earlier, v.call.stores = true → v.now ≤ w.now) : w.OnTime := by
  induction h generalizing later with
  | init now => simp at hw
  | pass _ _ _ ih => exact ih hw
  | read _ _ _ _ ih => exact ih hw
  | enter h i c now t hi hc ih =>
      cases later with
      | cons v later => exact ih (List.cons.inj hw).2
      | nil =>
          obtain ⟨rfl, rfl⟩ := List.cons.inj hw
          intro j hu
          obtain ⟨v, hv, hst, hl⟩ := h.seen hu
          rw [hl]
          exact hs v hv hst

end

/-- A run: a neighbour is learned at 5, and aged out at 400. -/
theorem recent_kept_aged :
    let t := arpFill 5 (7, 1) bcastMac ⟨0, by decide⟩ arpInit
    let w : LockedCall := ⟨.tick, 400, t, arpTick 400 t⟩
    ∃ s : Clocked Bool,
      ClockRun [w, ⟨.insert (7, 1) bcastMac, 5, arpInit, t⟩] s ∧ w.Right := by
  intro t w
  have h := (ClockRun.init (ι := Bool) 5).read true (.insert (7, 1) bcastMac) rfl
  have h := h.enter true _ 5 t rfl rfl
  have h := (h.pass 400 (by decide)).read false .tick rfl
  have h := h.enter false .tick 400 _ rfl rfl
  refine ⟨_, h, (recent_kept h).mpr (fun v hv hk => ?_) w List.mem_cons_self rfl⟩
  rcases List.mem_cons.mp hv with rfl | hv
  · refine @onTime_of_schedule _ _ _ [] _ _ _ h rfl fun v hv _ => ?_
    obtain rfl := List.mem_singleton.mp hv
    exact (by decide : (5 : Fin (2 ^ 63)) ≤ 400)
  · obtain rfl := List.mem_singleton.mp hv
    cases hk

/-! ### A neighbour that flaps -/

/-- A run of two threads.  A neighbour is learned at 5; `arp_tick` reads the clock at 10, and before
it gets the lock a lookup, at 11, finds the neighbour. -/
theorem clockRun_flap :
    ∃ (ss : List LockedCall) (s : Clocked Bool), ClockRun ss s ∧
      s.waiting false = some (.tick, 10) ∧
      (s.table.entry ⟨0, by decide⟩).used = true ∧
      (s.table.entry ⟨0, by decide⟩).lastSeen = 11 := by
  have h := (ClockRun.init (ι := Bool) 5).read true (.insert (7, 1) bcastMac) rfl
  have h := h.enter true _ 5 (arpFill 5 (7, 1) bcastMac ⟨0, by decide⟩ arpInit) rfl rfl
  have h := (h.pass 10 (by decide)).read false .tick rfl
  have h := (h.pass 11 (by decide)).read true (.lookup (7, 1)) rfl
  have h := h.enter true _ 11 _ rfl rfl
  exact ⟨_, _, h, rfl, by decide, by decide⟩

/-- **The neighbour is aged out**, although it was last seen after the clock value that `arp_tick`
read. -/
theorem recent_aged_out :
    ¬ ∀ (ss : List LockedCall) (s : Clocked Bool), ClockRun ss s →
      ∀ w ∈ ss, w.call = .tick → w.Right := by
  intro hall
  obtain ⟨ss, s, h, hi, hu, hl⟩ := clockRun_flap
  have hw := hall _ _ (h.enter false .tick 10 _ hi rfl) _ List.mem_cons_self rfl
  have hle := (sweep_right_iff h.sane.1 h.sane.2).mp hw _ hu
  rw [hl] at hle
  exact absurd hle (by decide)

end LinuxRouter
