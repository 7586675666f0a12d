import Mathlib.Algebra.Order.BigOperators.Group.Finset
import Mathlib.Logic.Relation
import Mathlib.Order.WellFounded

/-!
# Support — Simulation

Two levels of one system, and systems that come to rest.

* `Simulates A B R`: each step of `A` is some run of `B`, and `R` relates what they reach; so is each
  run (`Simulates.run`).
* `Descends A P r m`: a step of `A` keeps `P` and lowers `m` along the well-founded `r`.  Then there
  is no endless run (`Descends.acc`).
* `sum_eq_of_ne`, `sum_update`: a sum over threads, of which one moves.

A simulation need not match a step with a step; a step of the finer level may be none of the other,
which is where the bookkeeping of a program disappears.  A measure may be any well-founded one, a
number or a multiset.
-/

namespace Simulation

open Relation (ReflTransGen)

variable {X S : Type*} {A : X → X → Prop} {B : S → S → Prop} {R : X → S → Prop}

/-- A step of the lower level is a run of the upper one. -/
def Simulates (A : X → X → Prop) (B : S → S → Prop) (R : X → S → Prop) : Prop :=
  ∀ ⦃x y s⦄, R x s → A x y → ∃ s', ReflTransGen B s s' ∧ R y s'

theorem Simulates.run (h : Simulates A B R) {x y : X} {s : S} (hr : R x s)
    (hxy : ReflTransGen A x y) : ∃ s', ReflTransGen B s s' ∧ R y s' := by
  induction hxy with
  | refl => exact ⟨s, .refl, hr⟩
  | tail _ hs ih =>
      obtain ⟨s₁, hb, hr₁⟩ := ih
      obtain ⟨s₂, hb', hr₂⟩ := h hr₁ hs
      exact ⟨s₂, hb.trans hb', hr₂⟩

variable {M : Type*} {r : M → M → Prop} {P : X → Prop} {m : X → M}

/-- A step keeps `P` and lowers `m`. -/
def Descends (A : X → X → Prop) (P : X → Prop) (r : M → M → Prop) (m : X → M) : Prop :=
  ∀ ⦃x y⦄, P x → A x y → P y ∧ r (m y) (m x)

/-- **No endless run.** -/
theorem Descends.acc (h : Descends A P r m) (hr : WellFounded r) {x : X} (hx : P x) :
    Acc (fun y x => A x y) x := by
  induction hk : m x using hr.induction generalizing x with
  | _ k ih =>
      subst hk
      refine .intro x fun y hxy => ?_
      obtain ⟨hy, hlt⟩ := h hx hxy
      exact ih _ hlt hy rfl

theorem Descends.run (h : Descends A P r m) {x y : X} (hx : P x) (hxy : ReflTransGen A x y) : P y := by
  induction hxy with
  | refl => exact hx
  | tail _ hs ih => exact (h ih hs).1

end Simulation

section Sum

variable {ι α : Type*} [Fintype ι] [DecidableEq ι]

/-- A sum that changes at one place. -/
theorem sum_eq_of_ne {f f' : ι → ℕ} (i : ι) (h : ∀ j, j ≠ i → f' j = f j) :
    ∑ j, f' j + f i = ∑ j, f j + f' i := by
  rw [← Finset.add_sum_erase _ f (Finset.mem_univ i), ← Finset.add_sum_erase _ f' (Finset.mem_univ i),
    Finset.sum_congr rfl fun j hj => h j (Finset.ne_of_mem_erase hj), Nat.add_right_comm,
    Nat.add_comm (f' i), Nat.add_right_comm]

theorem sum_update (F : α → ℕ) (f : ι → α) (i : ι) (a : α) :
    ∑ j, F (Function.update f i a j) + F (f i) = ∑ j, F (f j) + F a := by
  have hsum := sum_eq_of_ne i fun j hj => congrArg F (Function.update_of_ne hj a f)
  rwa [Function.update_self] at hsum

end Sum
