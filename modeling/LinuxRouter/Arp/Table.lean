import Mathlib.Tactic.Simps.Basic
import LinuxRouter.Model.ArpTable

/-!
# Arp — the shape of the table

`ArpRep t chains` says that the chain of bucket `h` is `chains h`, that it holds exactly the used
entries whose address hashes to `h`, and that no two used entries have one key.

Each operation keeps the shape, and changes what a reader sees (`used`, the key and the value of
every entry) in one place:

* `walk_eq_some`, `walk_eq_none`: the lookup;
* `renew_rep`: an entry that gets a new value;
* `release_rep`, `arpDelete_eq`: an entry taken out of its chain and marked unused;
* `fill_rep`: a free entry that gets a key;
* `arpInsert_step`: the cases of `arp_insert`;
* `arpTick_spec`: the ageing sweep.

A table is a fixed array of entries with an index-linked chain for each bucket, and the code changes
both at once.  `ArpRep` is what ties them together; from it on a reader never looks at a chain
again, but only at the entries in use, and each operation is described by what it does to those.
The chains are those of `Support/Linked`, with the unlinking and pushing that its lemmas are about;
what is added here is the array beside them.
-/

namespace LinuxRouter

open Linked (IsChain)

/-- What `arp_lookup` returns and refreshes. -/
def ArpEntry.val (e : ArpEntry) : Mac × ℕ := (e.mac, e.lastSeen)

/-- The entry, inserted again or found. -/
@[simps] def ArpEntry.renew (e : ArpEntry) (mac : Mac) (now : ℕ) : ArpEntry :=
  { e with mac := mac, lastSeen := now }

@[simp] theorem ArpEntry.key_renew (e : ArpEntry) (mac : Mac) (now : ℕ) :
    (e.renew mac now).key = e.key := rfl

@[simp] theorem ArpEntry.val_renew (e : ArpEntry) (mac : Mac) (now : ℕ) :
    (e.renew mac now).val = (mac, now) := rfl

namespace ArpTable

variable (t : ArpTable) (i j : ArpSlot) (h : Bucket) (e : ArpEntry) (L : Linked.Links ArpSlot)

def next : ArpSlot → Option ArpSlot := fun i => (t.entry i).next

@[simp] theorem links_next : (t.links h).next = t.next := rfl

@[simp] theorem links_head : (t.links h).head = t.bucket h := rfl

@[simp] theorem entry_setEntry : (t.setEntry i e).entry = Function.update t.entry i e := rfl

@[simp] theorem bucket_setEntry : (t.setEntry i e).bucket = t.bucket := rfl

@[simp] theorem timeout_setEntry : (t.setEntry i e).timeout = t.timeout := rfl

@[simp] theorem bucket_setLinks :
    (t.setLinks h L).bucket = Function.update t.bucket h L.head := rfl

@[simp] theorem entry_setLinks :
    (t.setLinks h L).entry = fun i => { t.entry i with next := L.next i } := rfl

@[simp] theorem next_setLinks : (t.setLinks h L).next = L.next := rfl

/-- An entry written changes its own link only. -/
theorem next_setEntry : (t.setEntry i e).next = Function.update t.next i e.next := by
  funext j
  by_cases hj : j = i
  · subst hj
    simp [next]
  · simp [next, hj]

/-- An entry taken out of its chain and marked unused. -/
def release : ArpTable := (bucketRemove i t).clear i

@[simp] theorem timeout_release : (t.release i).timeout = t.timeout := rfl

/-- The entries after one is taken out. -/
theorem entry_release : (t.release i).entry j =
    if j = i then { t.entry i with used := false, next := none }
    else { t.entry j with
      next := ((t.links (hashIp (t.entry i).ip)).unlink (· == i) arpCap).next j } := by
  by_cases e : j = i
  · subst e
    simp [release, clear, bucketRemove]
  · simp [release, clear, bucketRemove, e]

@[simp] theorem key_release : ((t.release i).entry j).key = (t.entry j).key := by
  rw [entry_release]
  split
  · rename_i e
    rw [e]
    rfl
  · rfl

@[simp] theorem val_release : ((t.release i).entry j).val = (t.entry j).val := by
  rw [entry_release]
  split
  · rename_i e
    rw [e]
    rfl
  · rfl

/-- The entry taken out is unused. -/
theorem used_release_self : ((t.release i).entry i).used = false := by
  simp [entry_release]

/-- The others are as they were. -/
theorem used_release : ((t.release i).entry j).used = ((t.entry j).used && !decide (j = i)) := by
  rw [entry_release]
  split
  · rename_i e
    simp [e]
  · rename_i e
    simp [e]

/-- Only the entry filled changes. -/
theorem entry_arpFill (now : ℕ) (k : Key) (mac : Mac) (hj : j ≠ i) :
    (arpFill now k mac i t).entry j = t.entry j := by
  simp [arpFill, hj]

/-- The victim of `arp_insert` is overwritten: what is left is the table without it. -/
theorem arpFill_bucketRemove (now : ℕ) (k : Key) (mac : Mac) :
    arpFill now k mac i (bucketRemove i t) = arpFill now k mac i (t.release i) := by
  simp [arpFill, release, clear, setEntry]

end ArpTable

/-! ### The shape -/

/-- The chain of bucket `h` is `chains h`. -/
structure ArpRep (t : ArpTable) (chains : Bucket → List ArpSlot) : Prop where
  chain : ∀ h, IsChain t.next (t.bucket h) (chains h)
  mem : ∀ h i, i ∈ chains h ↔ (t.entry i).used = true ∧ hashIp (t.entry i).ip = h
  key_inj : ∀ i j, (t.entry i).used = true → (t.entry j).used = true →
    (t.entry i).key = (t.entry j).key → i = j

/-- The empty table has its shape. -/
theorem ArpRep.init : ArpRep arpInit fun _ => [] where
  chain := fun _ => .nil
  mem := by simp [arpInit]
  key_inj := by simp [arpInit]

namespace ArpRep

variable {t : ArpTable} {chains : Bucket → List ArpSlot} {i j : ArpSlot} {k : Key} {now : ℕ}
  {mac : Mac} {h : Bucket}

/-- No chain is longer than the table. -/
theorem length_le (hr : ArpRep t chains) (h : Bucket) : (chains h).length ≤ arpCap := by
  simpa using (hr.chain h).nodup.length_le_card

/-- A used entry is in the chain of its address. -/
theorem mem_home (hr : ArpRep t chains) (hu : (t.entry i).used = true) :
    i ∈ chains (hashIp (t.entry i).ip) :=
  (hr.mem _ i).mpr ⟨hu, rfl⟩

/-- Chains of different buckets share no entry. -/
theorem notMem (hr : ArpRep t chains) (hi : i ∈ chains h) {h' : Bucket} (e : h' ≠ h) :
    i ∉ chains h' := by
  intro hi'
  have h₁ := ((hr.mem h i).mp hi).2
  have h₂ := ((hr.mem h' i).mp hi').2
  exact e (h₂.symm.trans h₁)

/-! ### Lookup -/

/-- The walk of a lookup, on the list. -/
theorem walk_eq_find (hr : ArpRep t chains) (k : Key) :
    t.walk k = (chains (hashIp k.1)).find? fun i =>
      (t.entry i).used && (t.entry i).ip == k.1 && (t.entry i).ifidx == k.2 :=
  Linked.find_eq (hr.chain _) (hr.length_le _)

/-- **A lookup finds the used entry of the key.** -/
theorem walk_eq_some (hr : ArpRep t chains) :
    t.walk k = some i ↔ (t.entry i).used = true ∧ (t.entry i).key = k := by
  have hp : ∀ j, ((t.entry j).used && (t.entry j).ip == k.1 && (t.entry j).ifidx == k.2) = true ↔
      (t.entry j).used = true ∧ (t.entry j).key = k := by
    intro j
    simp [ArpEntry.key, Prod.ext_iff, and_assoc]
  rw [hr.walk_eq_find]
  constructor
  · intro e
    exact (hp i).mp (List.find?_some
      (p := fun i => (t.entry i).used && (t.entry i).ip == k.1 && (t.entry i).ifidx == k.2) e)
  · rintro ⟨hu, rfl⟩
    cases e : (chains (hashIp (t.entry i).key.1)).find? fun j =>
        (t.entry j).used && (t.entry j).ip == (t.entry i).key.1 &&
          (t.entry j).ifidx == (t.entry i).key.2 with
    | none => exact absurd ((hp i).mpr ⟨hu, rfl⟩) (List.find?_eq_none.mp e i (hr.mem_home hu))
    | some j =>
        obtain ⟨hj, hk⟩ := (hp j).mp (List.find?_some (p := fun j =>
          (t.entry j).used && (t.entry j).ip == (t.entry i).key.1 &&
            (t.entry j).ifidx == (t.entry i).key.2) e)
        rw [hr.key_inj j i hj hu hk]

/-- And finds none exactly if there is none. -/
theorem walk_eq_none (hr : ArpRep t chains) :
    t.walk k = none ↔ ∀ i, (t.entry i).used = true → (t.entry i).key ≠ k := by
  constructor
  · intro e i hu hk
    rw [hr.walk_eq_some.mpr ⟨hu, hk⟩] at e
    cases e
  · intro hn
    by_contra e
    obtain ⟨i, e⟩ := Option.ne_none_iff_exists'.mp e
    obtain ⟨hu, hk⟩ := hr.walk_eq_some.mp e
    exact hn i hu hk

/-! ### A new value -/

/-- A new value leaves the shape as it is. -/
theorem renew_rep (hr : ArpRep t chains) (i : ArpSlot) (mac : Mac) (now : ℕ) :
    ArpRep (t.setEntry i ((t.entry i).renew mac now)) chains := by
  have he : ∀ j, ∃ m l, (t.setEntry i ((t.entry i).renew mac now)).entry j =
      (t.entry j).renew m l := by
    intro j
    by_cases e : j = i
    · subst e
      exact ⟨mac, now, by simp⟩
    · exact ⟨(t.entry j).mac, (t.entry j).lastSeen, by simp [e, ArpEntry.renew]⟩
  constructor
  case chain =>
    intro h
    have hn : (t.setEntry i ((t.entry i).renew mac now)).next = t.next := by
      rw [ArpTable.next_setEntry]
      exact Function.update_eq_self i t.next
    rw [hn]
    exact hr.chain h
  case mem =>
    intro h j
    obtain ⟨_, _, e⟩ := he j
    rw [e]
    exact hr.mem h j
  case key_inj =>
    intro a c ha hc
    obtain ⟨_, _, ea⟩ := he a
    obtain ⟨_, _, ec⟩ := he c
    rw [ea] at ha ⊢
    rw [ec] at hc ⊢
    exact hr.key_inj a c ha hc

/-! ### An entry given up -/

/-- **An entry given up** leaves its chain without it. -/
theorem release_rep (hr : ArpRep t chains) (hu : (t.entry i).used = true) :
    ArpRep (t.release i) (Function.update chains (hashIp (t.entry i).ip)
      ((chains (hashIp (t.entry i).ip)).erase i)) := by
  have hi := hr.mem_home hu
  have hnd := (hr.chain (hashIp (t.entry i).ip)).nodup
  -- the chain of its bucket loses the entry; the other chains share no entry with it
  have hnext : (t.release i).next = Function.update
      ((t.links (hashIp (t.entry i).ip)).unlink (· == i) arpCap).next i none := by
    rw [ArpTable.release, ArpTable.clear, ArpTable.next_setEntry]
    rfl
  have hbucket : (t.release i).bucket = Function.update t.bucket (hashIp (t.entry i).ip)
      ((t.links (hashIp (t.entry i).ip)).unlink (· == i) arpCap).head := rfl
  constructor
  case chain =>
    intro h
    rw [hnext, hbucket]
    by_cases e : h = hashIp (t.entry i).ip
    · subst e
      have hc := Linked.Links.unlink_chain (p := (· == i)) (L := t.links (hashIp (t.entry i).ip))
        (hr.chain _) (hr.length_le _)
      simp only [Function.update_self]
      rw [List.erase_eq_eraseP']
      refine hc.update ?_
      rw [← List.erase_eq_eraseP']
      exact fun he => (hnd.mem_erase_iff.mp he).1 rfl
    · simp only [Function.update_of_ne e]
      refine (IsChain.congr (hr.chain h) fun j hj => ?_).update (hr.notMem hi e)
      exact Linked.Links.unlink_other (L := t.links _) (hr.chain _) (hr.length_le _)
        (hr.notMem hj (Ne.symm e))
  case mem =>
    intro h j
    have hip : ((t.release i).entry j).ip = (t.entry j).ip :=
      congrArg Prod.fst (t.key_release i j)
    rw [hip, ArpTable.used_release]
    by_cases e : h = hashIp (t.entry i).ip
    · subst e
      rw [Function.update_self, hnd.mem_erase_iff, hr.mem]
      by_cases ej : j = i
      · simp [ej]
      · simp [ej]
    · rw [Function.update_of_ne e, hr.mem]
      by_cases ej : j = i
      · simp [ej, Ne.symm e]
      · simp [ej]
  case key_inj =>
    intro a c ha hc
    rw [ArpTable.used_release] at ha hc
    simp only [Bool.and_eq_true] at ha hc
    rw [ArpTable.key_release, ArpTable.key_release]
    exact hr.key_inj a c ha.1 hc.1

/-- A key that the walk does not find is still not there. -/
theorem key_ne_of_release (hr : ArpRep t chains) (hw : t.walk k = none) :
    ∀ j, ((t.release i).entry j).used = true → ((t.release i).entry j).key ≠ k := by
  intro j hj
  rw [t.key_release]
  rw [t.used_release] at hj
  exact hr.walk_eq_none.mp hw j (Bool.and_eq_true_iff.mp hj).1

/-- `arp_delete` gives up the entry that a lookup would find. -/
theorem arpDelete_eq (hr : ArpRep t chains) (k : Key) :
    arpDelete k t = match t.walk k with
      | none => t
      | some i => t.release i := by
  have hp : ∀ j ∈ chains (hashIp k.1), ((t.entry j).ip == k.1 && (t.entry j).ifidx == k.2) =
      ((t.entry j).used && (t.entry j).ip == k.1 && (t.entry j).ifidx == k.2) := by
    intro j hj
    simp [((hr.mem _ j).mp hj).1]
  have hf : Linked.find (t.links (hashIp k.1)).next
      (fun j => (t.entry j).ip == k.1 && (t.entry j).ifidx == k.2) arpCap
      (t.bucket (hashIp k.1)) = t.walk k := by
    have hc := Linked.find_eq (p := fun j => (t.entry j).ip == k.1 && (t.entry j).ifidx == k.2)
      (hr.chain (hashIp k.1)) (hr.length_le _)
    rw [hr.walk_eq_find, ← List.head?_filter, ← List.filter_congr hp, List.head?_filter]
    exact hc
  unfold arpDelete
  dsimp only
  rw [hf]
  cases hw : t.walk k with
  | none => rfl
  | some i =>
      obtain ⟨hu, rfl⟩ := hr.walk_eq_some.mp hw
      dsimp only
      -- on this chain the walk's test picks out the one entry with the key
      have hpq : ∀ j ∈ chains (hashIp (t.entry i).key.1),
          ((t.entry j).ip == (t.entry i).key.1 && (t.entry j).ifidx == (t.entry i).key.2) =
            (j == i) := by
        intro j hj
        rw [Bool.eq_iff_iff]
        constructor
        · intro e
          have hk : (t.entry j).key = (t.entry i).key := by
            simpa [ArpEntry.key, Prod.ext_iff] using e
          simpa using hr.key_inj j i ((hr.mem _ j).mp hj).1 hu hk
        · intro e
          obtain rfl : j = i := by simpa using e
          simp [ArpEntry.key]
      rw [Linked.Links.unlink_congr (L := t.links _) (hr.chain _) hpq]
      rfl

/-! ### An entry that gets a key -/

/-- **A free entry that gets a key** comes to the front of the key's chain. -/
theorem fill_rep (hr : ArpRep t chains) (hu : (t.entry i).used = false)
    (hk : ∀ j, (t.entry j).used = true → (t.entry j).key ≠ k) :
    ArpRep (arpFill now k mac i t)
      (Function.update chains (hashIp k.1) (i :: chains (hashIp k.1))) := by
  have hi : ∀ h, i ∉ chains h := fun h hi => by simp [((hr.mem h i).mp hi).1] at hu
  -- the entry goes in front of the bucket of its key
  have hnext : (arpFill now k mac i t).next =
      Function.update t.next i (t.bucket (hashIp k.1)) := by
    have := t.next_setEntry i
      { ip := k.1, ifidx := k.2, mac := mac, lastSeen := now, used := true,
        next := t.bucket (hashIp k.1) }
    exact this
  have hself : (arpFill now k mac i t).entry i =
      { ip := k.1, ifidx := k.2, mac := mac, lastSeen := now, used := true,
        next := t.bucket (hashIp k.1) } := by
    simp [arpFill]
  have hne : ∀ j, j ≠ i → (arpFill now k mac i t).entry j = t.entry j :=
    fun j => t.entry_arpFill i j now k mac
  constructor
  case chain =>
    intro h
    rw [hnext]
    by_cases e : h = hashIp k.1
    · subst e
      have hb : (arpFill now k mac i t).bucket (hashIp k.1) = some i := by simp [arpFill]
      rw [hb, Function.update_self]
      exact (hr.chain _).push (hi _)
    · have hb : (arpFill now k mac i t).bucket h = t.bucket h := by simp [arpFill, e]
      rw [hb, Function.update_of_ne e]
      exact (hr.chain h).update (hi h)
  case mem =>
    intro h j
    by_cases ej : j = i
    · subst ej
      rw [hself]
      by_cases e : h = hashIp k.1
      · simp [e]
      · simp [e, hi, Ne.symm e]
    · rw [hne j ej]
      by_cases e : h = hashIp k.1
      · subst e
        simp [ej, hr.mem]
      · simp [e, hr.mem]
  case key_inj =>
    intro a c ha hc hac
    -- no live entry has the new key
    by_cases ea : a = i <;> by_cases ec : c = i
    · exact ea.trans ec.symm
    · subst ea
      rw [hne c ec] at hc hac
      rw [hself] at hac
      exact absurd hac.symm (hk c hc)
    · subst ec
      rw [hne a ea] at ha hac
      rw [hself] at hac
      exact absurd hac (hk a ha)
    · rw [hne a ea] at ha hac
      rw [hne c ec] at hc hac
      exact hr.key_inj a c ha hc hac

end ArpRep

/-! ### The cases of an insertion -/

theorem arpFree_eq_some {t : ArpTable} {i : ArpSlot} (h : arpFree t = some i) :
    (t.entry i).used = false := by
  simpa using List.find?_some (p := fun i => !(t.entry i).used) h

/-- Without a free entry all are in use. -/
theorem arpFree_eq_none {t : ArpTable} (h : arpFree t = none) (i : ArpSlot) :
    (t.entry i).used = true := by
  simpa using List.find?_eq_none.mp h i (List.mem_finRange i)

/-- The scan ends at an entry that no other is older than. -/
theorem scanOldest_eq_some {t : ArpTable} {is : List ArpSlot} {found : Option ArpSlot} {oldest : ℕ}
    {i : ArpSlot} (hf : ∀ j, found = some j → (t.entry j).lastSeen = oldest)
    (h : scanOldest t is found oldest = some i) :
    (t.entry i).lastSeen ≤ oldest ∧ ∀ j ∈ is, (t.entry i).lastSeen ≤ (t.entry j).lastSeen := by
  induction is generalizing found oldest with
  | nil => exact ⟨(hf i h).le, by simp⟩
  | cons j is ih =>
      rw [scanOldest] at h
      split at h
      · rename_i hlt
        obtain ⟨h₁, h₂⟩ := ih (fun l e => by rw [← Option.some.inj e]) h
        refine ⟨by omega, fun l hl => ?_⟩
        rcases List.mem_cons.mp hl with rfl | hl
        · exact h₁
        · exact h₂ l hl
      · rename_i hge
        obtain ⟨h₁, h₂⟩ := ih hf h
        refine ⟨h₁, fun l hl => ?_⟩
        rcases List.mem_cons.mp hl with rfl | hl
        · omega
        · exact h₂ l hl

/-- The scan finds no entry only if none is older than the bound. -/
theorem scanOldest_eq_none {t : ArpTable} {is : List ArpSlot} {found : Option ArpSlot} {oldest : ℕ}
    (h : scanOldest t is found oldest = none) :
    found = none ∧ ∀ j ∈ is, oldest ≤ (t.entry j).lastSeen := by
  induction is generalizing found oldest with
  | nil => exact ⟨h, by simp⟩
  | cons j is ih =>
      rw [scanOldest] at h
      split at h
      · exact absurd (ih h).1 (by simp)
      · rename_i hge
        obtain ⟨hn, h₂⟩ := ih h
        refine ⟨hn, fun l hl => ?_⟩
        rcases List.mem_cons.mp hl with rfl | hl
        · omega
        · exact h₂ l hl

/-- What `arp_insert` can do, with its guards. -/
inductive ArpInsertStep (now : ℕ) (k : Key) (mac : Mac) (t : ArpTable) : Prop where
  | renew (i : ArpSlot) (hw : t.walk k = some i)
      (he : arpInsert now k mac t = some (t.setEntry i ((t.entry i).renew mac now)))
  | free (i : ArpSlot) (hw : t.walk k = none) (hu : (t.entry i).used = false)
      (he : arpInsert now k mac t = some (arpFill now k mac i t))
  | evict (i : ArpSlot) (hw : t.walk k = none) (hall : ∀ j, (t.entry j).used = true)
      (hold : ∀ j, (t.entry i).lastSeen ≤ (t.entry j).lastSeen)
      (he : arpInsert now k mac t = some (arpFill now k mac i (t.release i)))
  | stuck (hall : ∀ j, (t.entry j).used = true) (hmax : ∀ j, 2 ^ 64 - 1 ≤ (t.entry j).lastSeen)
      (he : arpInsert now k mac t = none)

/-- The cases of `arp_insert`, with their guards. -/
theorem arpInsert_step (now : ℕ) (k : Key) (mac : Mac) (t : ArpTable) :
    ArpInsertStep now k mac t := by
  cases hw : t.walk k with
  | some i => exact .renew i hw (by simp only [arpInsert, hw, ArpEntry.renew])
  | none =>
      cases hf : arpFree t with
      | some i => exact .free i hw (arpFree_eq_some hf) (by simp only [arpInsert, hw, hf])
      | none =>
          have hall := arpFree_eq_none hf
          cases hs : scanOldest t (List.finRange arpCap) none (2 ^ 64 - 1) with
          | none =>
              have hm := (scanOldest_eq_none hs).2
              exact .stuck hall (fun j => hm j (List.mem_finRange j))
                (by simp only [arpInsert, hw, hf, hs])
          | some i =>
              have hm := (scanOldest_eq_some (by simp) hs).2
              refine .evict i hw hall (fun j => hm j (List.mem_finRange j)) ?_
              rw [← t.arpFill_bucketRemove]
              simp only [arpInsert, hw, hf, hs]

/-! ### The ageing sweep -/

/-- The entry is idle for longer than the limit. -/
def ArpTable.old (t : ArpTable) (now : ℕ) (i : ArpSlot) : Bool :=
  arpAge now (t.entry i).lastSeen > t.timeout64

/-- What the sweep over the entries `is` leaves. -/
structure ArpAged (now : ℕ) (is : List ArpSlot) (t t' : ArpTable) : Prop where
  rep : ∃ chains, ArpRep t' chains
  used : ∀ j, (t'.entry j).used = ((t.entry j).used && !(decide (j ∈ is) && t.old now j))
  key : ∀ j, (t'.entry j).key = (t.entry j).key
  val : ∀ j, (t'.entry j).val = (t.entry j).val
  timeout : t'.timeout = t.timeout

theorem arpTickAt_spec {t : ArpTable} {chains : Bucket → List ArpSlot} (hr : ArpRep t chains)
    (now : ℕ) (i : ArpSlot) : ArpAged now [i] t (arpTickAt now t i) := by
  unfold arpTickAt
  split
  · rename_i hc
    obtain ⟨hu, ho⟩ := Bool.and_eq_true_iff.mp hc
    refine ⟨⟨_, hr.release_rep hu⟩, fun j => ?_, t.key_release i, t.val_release i, rfl⟩
    refine (t.used_release i j).trans ?_
    by_cases e : j = i
    · subst e
      have ho : t.old now j = true := ho
      simp [ho]
    · simp [e]
  · rename_i hc
    refine ⟨⟨_, hr⟩, fun j => ?_, fun _ => rfl, fun _ => rfl, rfl⟩
    by_cases e : j = i
    · subst e
      cases hu : (t.entry j).used with
      | false => rfl
      | true =>
          have ho : t.old now j = false := by simpa [hu, ArpTable.old] using hc
          simp [ho]
    · simp [e]

/-- The sweep over some entries, and then over others. -/
theorem ArpAged.trans {now : ℕ} {is js : List ArpSlot} {t t' t'' : ArpTable}
    (h : ArpAged now is t t') (h' : ArpAged now js t' t'') : ArpAged now (is ++ js) t t'' := by
  refine ⟨h'.rep, fun j => ?_, fun j => (h'.key j).trans (h.key j),
    fun j => (h'.val j).trans (h.val j), h'.timeout.trans h.timeout⟩
  have ho : t'.old now j = t.old now j := by
    have hl : (t'.entry j).lastSeen = (t.entry j).lastSeen := congrArg Prod.snd (h.val j)
    rw [ArpTable.old, ArpTable.old, hl, ArpTable.timeout64, ArpTable.timeout64, h.timeout]
  rw [h'.used, h.used, ho]
  by_cases hi : j ∈ is <;> by_cases hj : j ∈ js <;> cases t.old now j <;> simp [hi, hj]

/-- **The sweep**: exactly the used entries that are idle too long are given up. -/
theorem arpTick_spec {t : ArpTable} {chains : Bucket → List ArpSlot} (hr : ArpRep t chains)
    (now : ℕ) : ArpAged now (List.finRange arpCap) t (arpTick now t) := by
  unfold arpTick
  induction List.finRange arpCap generalizing t chains with
  | nil => exact ⟨⟨_, hr⟩, by simp, fun _ => rfl, fun _ => rfl, rfl⟩
  | cons i is ih =>
      have h := arpTickAt_spec hr now i
      obtain ⟨_, hr'⟩ := h.rep
      exact h.trans (ih hr')

end LinuxRouter
