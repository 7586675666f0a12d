import Mathlib.Data.Set.Card
import Mathlib.Data.List.Basic

/-!
# Support — Recency

A map of bounded size whose entries age: an entry that is not used for longer than a limit is
dropped by the next sweep, and a new key that finds the map full takes the place of an entry whose
last use is the oldest.

The map is given by its history, a list of calls with their clock readings, newest first.  `live`
reads off it what the map holds.  The victim of an eviction is not determined by the calls alone (two
entries may have been used at the same time), so the history records it, and `Legal` says which
victims are allowed.

* `live_eq_some_iff`: a key is there exactly if it was inserted, and not removed since;
* `live_le_clock`: no entry was last used in the future.

An operation on such a map is one more use at the front of its history, so that facts about the map
are facts about a list, by induction, and an implementation is compared with it use by use.
-/

namespace Recency

/-- A call. -/
inductive Call (κ ν : Type*) where
  | insert (k : κ) (v : ν)
  | lookup (k : κ)
  | delete (k : κ)
  | sweep
  | setLimit (n : ℤ)

/-- A call as it took place: when, and which key it evicted. -/
structure Use (κ ν : Type*) where
  now : ℕ
  call : Call κ ν
  evicted : Option κ

/-- The size of the map, the idle time it starts with, and the least one it may be set to. -/
structure Policy where
  cap : ℕ
  limit : ℤ
  least : ℤ

variable {κ ν : Type*} [DecidableEq κ] (P : Policy)

/-- The idle time an entry may have. -/
def limit : List (Use κ ν) → ℤ
  | [] => P.limit
  | u :: us =>
      match u.call with
      | .setLimit n => if P.least ≤ n then n else limit us
      | .insert _ _ => limit us
      | .lookup _ => limit us
      | .delete _ => limit us
      | .sweep => limit us

/-- What the map holds for a key: its value and its last use. -/
def live : List (Use κ ν) → κ → Option (ν × ℕ)
  | [], _ => none
  | u :: us, k =>
      match u.call with
      | .insert k' v =>
          if k' = k then some (v, u.now) else if u.evicted = some k then none else live us k
      | .lookup k' => (live us k).map fun e => if k' = k then (e.1, u.now) else e
      | .delete k' => if k' = k then none else live us k
      | .sweep => (live us k).filter fun e => (u.now : ℤ) - e.2 ≤ limit P us
      | .setLimit _ => live us k

/-- The keys the map holds. -/
def dom (us : List (Use κ ν)) : Set κ := {k | (live P us k).isSome}

/-- The call may evict this key: only the insertion of a new key into a full map evicts, it evicts
one key, and no entry was last used before that key's. -/
def Evicts (us : List (Use κ ν)) (c : Call κ ν) : Option κ → Prop
  | none => ∀ k v, c = .insert k v → k ∈ dom P us ∨ (dom P us).ncard < P.cap
  | some x => (∃ k v, c = .insert k v ∧ k ∉ dom P us) ∧ (dom P us).ncard = P.cap ∧
      ∃ e, live P us x = some e ∧ ∀ y e', live P us y = some e' → e.2 ≤ e'.2

/-- Every eviction of the history was allowed. -/
def Legal : List (Use κ ν) → Prop
  | [] => True
  | u :: us => Legal us ∧ Evicts P us u.call u.evicted

/-- The last clock reading. -/
def clock : List (Use κ ν) → ℕ
  | [] => 0
  | u :: _ => u.now

/-- The clock never went back. -/
def Ordered : List (Use κ ν) → Prop
  | [] => True
  | u :: us => Ordered us ∧ clock us ≤ u.now

/-- The call `u`, after the history `us`, removes the key `k`: it deletes it, evicts it, or finds
it idle for longer than the limit. -/
def Removes (us : List (Use κ ν)) (u : Use κ ν) (k : κ) : Prop :=
  match u.call with
  | .insert _ _ => u.evicted = some k
  | .lookup _ => False
  | .delete k' => k' = k
  | .sweep => ∃ e, live P us k = some e ∧ limit P us < (u.now : ℤ) - e.2
  | .setLimit _ => False

/-- The value `k` was inserted with last, and has kept since. -/
inductive Kept (k : κ) (v : ν) : List (Use κ ν) → Prop where
  | insert {us : List (Use κ ν)} {u : Use κ ν} (h : u.call = .insert k v) : Kept k v (u :: us)
  | keep {us : List (Use κ ν)} {u : Use κ ν} (h : Kept k v us) (hi : ∀ v', u.call ≠ .insert k v')
      (hr : ¬ Removes P us u k) : Kept k v (u :: us)

variable {P} {us : List (Use κ ν)} {u : Use κ ν} {k : κ} {v : ν} {e : ν × ℕ}

/-- A call that does not insert the key keeps its value, unless it removes the key. -/
theorem live_keep (hi : ∀ v', u.call ≠ .insert k v') :
    (live P (u :: us) k).map Prod.fst = some v ↔
      (live P us k).map Prod.fst = some v ∧ ¬ Removes P us u k := by
  rw [live, Removes]
  cases hc : u.call with
  | insert k' v' =>
      have hk : k' ≠ k := by
        rintro rfl
        exact hi v' hc
      by_cases h : u.evicted = some k
      · simp [hk, h]
      · simp [hk, h]
  | lookup k' =>
      cases live P us k with
      | none => simp
      | some e => by_cases h : k' = k <;> simp [h]
  | delete k' => by_cases h : k' = k <;> simp [h]
  | sweep =>
      cases live P us k with
      | none => simp
      | some e =>
          have hr : (∃ e', some e = some e' ∧ limit P us < (u.now : ℤ) - e'.2) ↔
              ¬ (u.now : ℤ) - e.2 ≤ limit P us := by
            rw [not_le]
            constructor
            · rintro ⟨_, ⟨⟩, h⟩
              exact h
            · exact fun h => ⟨e, rfl, h⟩
          dsimp only
          rw [hr, not_not, Option.filter_some]
          by_cases h : (u.now : ℤ) - e.2 ≤ limit P us
          · simp only [h, decide_true, if_true, and_true]
          · simp only [h, decide_false, Bool.false_eq_true, if_false, and_false, Option.map_none,
              reduceCtorEq]
  | setLimit n => simp

/-- **What the map holds**: a key that was inserted and not removed since, with the value of its
last insertion. -/
theorem live_eq_some_iff : (live P us k).map Prod.fst = some v ↔ Kept P k v us := by
  induction us with
  | nil =>
      constructor
      · intro h
        cases h
      · intro h
        cases h
  | cons u us ih =>
      by_cases hi : ∃ v', u.call = .insert k v'
      · obtain ⟨v', hc⟩ := hi
        have hl : live P (u :: us) k = some (v', u.now) := by simp [live, hc]
        rw [hl]
        constructor
        · intro h
          obtain rfl : v' = v := by simpa using h
          exact .insert hc
        · rintro (h | ⟨_, hi, _⟩)
          · rw [hc] at h
            cases h
            rfl
          · exact absurd hc (hi v')
      · push Not at hi
        rw [live_keep hi, ih]
        constructor
        · rintro ⟨h, hr⟩
          exact .keep h hi hr
        · rintro (h | ⟨h, _, hr⟩)
          · exact absurd h (hi v)
          · exact ⟨h, hr⟩

omit [DecidableEq κ] in
theorem least_le_limit (h : P.least ≤ P.limit) (us : List (Use κ ν)) : P.least ≤ limit P us := by
  induction us with
  | nil => exact h
  | cons u us ih =>
      rw [limit]
      split
      · split
        · assumption
        · exact ih
      all_goals exact ih

/-- No entry was last used after the last call. -/
theorem live_le_clock (ho : Ordered us) (h : live P us k = some e) : e.2 ≤ clock us := by
  induction us generalizing e with
  | nil => cases h
  | cons u us ih =>
      obtain ⟨ho, hle⟩ := ho
      rw [clock]
      rw [live] at h
      split at h
      · split at h
        · cases h
          exact le_refl _
        · split at h
          · cases h
          · exact (ih ho h).trans hle
      · rw [Option.map_eq_some_iff] at h
        obtain ⟨e', he, rfl⟩ := h
        split
        · exact le_refl _
        · exact (ih ho he).trans hle
      · split at h
        · cases h
        · exact (ih ho h).trans hle
      · rw [Option.filter_eq_some_iff] at h
        exact (ih ho h.1).trans hle
      · exact (ih ho h).trans hle

end Recency
