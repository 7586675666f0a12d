import Mathlib.Logic.Function.Basic

/-!
# Support — Mutex

A mutex that records its owner, and threads that know whether they are in a section that it guards.
`Guards` says that the owner is the one thread in such a section; it is kept by the four ways in which
a thread can move: it takes the mutex, it moves within a section or outside one, it releases the mutex.

The four lemmas are about functions from threads to truth values, one of which changes at one place,
so that any state with a mutex in it can use them.
-/

namespace Mutex

variable {T : Type*} [DecidableEq T] {lock : Option T} {holds : T → Bool} {t u : T}

/-- The owner is the one thread in a section. -/
def Guards (lock : Option T) (holds : T → Bool) : Prop :=
  ∀ t, lock = some t ↔ holds t = true

omit [DecidableEq T] in
/-- **Mutual exclusion.** -/
theorem Guards.unique (h : Guards lock holds) (ht : holds t = true) (hu : holds u = true) : t = u := by
  have ht' := (h t).mpr ht
  rw [(h u).mpr hu] at ht'
  exact (Option.some.inj ht').symm

omit [DecidableEq T] in
theorem Guards.free (h : Guards lock holds) (hl : lock = none) (t : T) : holds t = false := by
  rw [← Bool.not_eq_true, ← h t, hl]
  exact (Option.some_ne_none t).symm

theorem Guards.take (h : Guards lock holds) (hl : lock = none) (t : T) :
    Guards (some t) (Function.update holds t true) := by
  intro u
  by_cases e : u = t
  · subst e
    simp
  · rw [Function.update_of_ne e, h.free hl u]
    simp [Ne.symm e]

theorem Guards.keep (h : Guards lock holds) {b : Bool} (hb : b = holds t) :
    Guards lock (Function.update holds t b) := by
  rw [hb, Function.update_eq_self]
  exact h

theorem Guards.release (h : Guards lock holds) (ht : holds t = true) :
    Guards none (Function.update holds t false) := by
  intro u
  by_cases e : u = t
  · subst e
    simp
  · rw [Function.update_of_ne e]
    have hu : holds u ≠ true := fun hu => e (h.unique hu ht)
    simp [hu]

end Mutex
