import Mathlib.Order.Lattice
import Mathlib.Data.List.Induction

/-!
# Support — Scan

The search of a list for its best element: one pass that replaces the best so far by every later
element that beats it strictly, starting below a bound.

* `First p f xs x`: `x` is the first of those elements of `xs` with the property `p` whose score `f`
  is the largest.  There is at most one (`First.unique`).
* `scan_eq_some`, `scan_eq_none`: the pass ends with it, if its score is above the bound, and with
  nothing otherwise.

The comparison is strict, so that of several best elements the first one is kept; and an element
that does not beat the bound is never kept, which is how a pass may end with nothing.  The induction
is on the list from its end, with the best of what is in front.
-/

namespace Scan

variable {α β : Type*} [LinearOrder β]

/-- The best so far and its score, one element later. -/
def step (p : α → Bool) (f : α → β) (best : Option α × β) (x : α) : Option α × β :=
  if p x = true ∧ best.2 < f x then (some x, f x) else best

/-- The pass over `xs`, from the bound `b` on. -/
def scan (p : α → Bool) (f : α → β) (b : β) (xs : List α) : Option α × β :=
  xs.foldl (step p f) (none, b)

/-- The first of the best elements with the property `p`. -/
def First (p : α → Bool) (f : α → β) (xs : List α) (x : α) : Prop :=
  ∃ before after, xs = before ++ x :: after ∧ p x = true ∧
    (∀ y ∈ before, p y = true → f y < f x) ∧ ∀ y ∈ after, p y = true → f y ≤ f x

variable {p : α → Bool} {f g : α → β} {b : β} {xs : List α} {x y : α}

namespace First

theorem mem (h : First p f xs x) : x ∈ xs := by
  obtain ⟨before, after, rfl, -⟩ := h
  simp

theorem holds (h : First p f xs x) : p x = true := by
  obtain ⟨-, -, -, hx, -⟩ := h
  exact hx

theorem le (h : First p f xs x) (hy : y ∈ xs) (hp : p y = true) : f y ≤ f x := by
  obtain ⟨before, after, rfl, -, hb, ha⟩ := h
  rcases List.mem_append.mp hy with hy | hy
  · exact (hb y hy hp).le
  · rcases List.mem_cons.mp hy with rfl | hy
    · exact le_rfl
    · exact ha y hy hp

/-- Another element is no better than the best. -/
theorem concat (h : First p f xs x) (hy : p y = true → f y ≤ f x) : First p f (xs ++ [y]) x := by
  obtain ⟨before, after, rfl, hx, hb, ha⟩ := h
  refine ⟨before, after ++ [y], by simp, hx, hb, fun z hz hp => ?_⟩
  rcases List.mem_append.mp hz with hz | hz
  · exact ha z hz hp
  · rw [List.mem_singleton.mp hz] at hp ⊢
    exact hy hp

/-- Another element is better than all. -/
theorem last (hy : p y = true) (h : ∀ z ∈ xs, p z = true → f z < f y) : First p f (xs ++ [y]) y :=
  ⟨xs, [], rfl, hy, h, fun _ hz => absurd hz List.not_mem_nil⟩

/-- There is one at most: of two different places, the later one would be worse and better. -/
theorem unique (hx : First p f xs x) (hy : First p f xs y) : x = y := by
  obtain ⟨cx, dx, rfl, hpx, hcx, hdx⟩ := hx
  obtain ⟨cy, dy, e, hpy, hcy, hdy⟩ := hy
  rcases List.append_eq_append_iff.mp e with ⟨m, rfl, hm⟩ | ⟨m, rfl, hm⟩
  · cases m with
    | nil => exact (List.cons.inj hm).1
    | cons z m =>
        obtain ⟨rfl, rfl⟩ := List.cons.inj hm
        exact absurd (hcy x (by simp) hpx) (not_lt.mpr (hdx y (by simp) hpy))
  · cases m with
    | nil => exact (List.cons.inj hm).1.symm
    | cons z m =>
        obtain ⟨rfl, rfl⟩ := List.cons.inj hm
        exact absurd (hcx y (by simp) hpy) (not_lt.mpr (hdy x (by simp) hpx))

/-- Only the scores of the elements with the property matter, and only their order. -/
theorem congr {γ : Type*} [LinearOrder γ] {g : α → γ} (h : First p f xs x)
    (hlt : ∀ y ∈ xs, ∀ z ∈ xs, p y = true → p z = true → (f y < f z ↔ g y < g z)) :
    First p g xs x := by
  have hmem := h.mem
  obtain ⟨before, after, rfl, hx, hb, ha⟩ := h
  refine ⟨before, after, rfl, hx, fun y hy hp => ?_, fun y hy hp => ?_⟩
  · exact (hlt y (by simp [hy]) x hmem hp hx).mp (hb y hy hp)
  · exact not_lt.mp fun hg =>
      not_lt.mpr (ha y hy hp) ((hlt x hmem y (by simp [hy]) hx hp).mpr hg)

end First

/-- What the pass has after `xs`. -/
inductive Best (p : α → Bool) (f : α → β) (b : β) (xs : List α) : Option α × β → Prop where
  | none (h : ∀ x ∈ xs, p x = true → f x ≤ b) : Best p f b xs (none, b)
  | some (x : α) (hb : b < f x) (h : First p f xs x) : Best p f b xs (some x, f x)

theorem Best.step {s : Option α × β} (h : Best p f b xs s) (y : α) :
    Best p f b (xs ++ [y]) (step p f s y) := by
  cases h with
  | none h =>
      by_cases hy : p y = true ∧ b < f y
      · rw [Scan.step, if_pos hy]
        exact .some y hy.2 (.last hy.1 fun z hz hp => (h z hz hp).trans_lt hy.2)
      · rw [Scan.step, if_neg hy]
        refine .none fun z hz hp => ?_
        rcases List.mem_append.mp hz with hz | hz
        · exact h z hz hp
        · rw [List.mem_singleton.mp hz] at hp ⊢
          exact not_lt.mp fun hlt => hy ⟨hp, hlt⟩
  | some x hb h =>
      by_cases hy : p y = true ∧ f x < f y
      · rw [Scan.step, if_pos hy]
        exact .some y (hb.trans hy.2) (.last hy.1 fun z hz hp => (h.le hz hp).trans_lt hy.2)
      · rw [Scan.step, if_neg hy]
        exact .some x hb (h.concat fun hp => not_lt.mp fun hlt => hy ⟨hp, hlt⟩)

theorem best_scan (p : α → Bool) (f : α → β) (b : β) (xs : List α) :
    Best p f b xs (scan p f b xs) := by
  induction xs using List.reverseRecOn with
  | nil => exact .none fun _ hx => absurd hx List.not_mem_nil
  | append_singleton xs x ih =>
      rw [scan, List.foldl_append]
      exact ih.step x

theorem scan_eq_none : (scan p f b xs).1 = none ↔ ∀ x ∈ xs, p x = true → f x ≤ b := by
  have hbest := best_scan p f b xs
  generalize scan p f b xs = s at hbest
  rcases hbest with h | ⟨x, hb, h⟩
  · exact iff_of_true rfl h
  · refine iff_of_false (fun e => nomatch e) fun hall => ?_
    exact absurd (hall x h.mem h.holds) (not_le.mpr hb)

/-- **The pass ends with the first of the best.** -/
theorem scan_eq_some : (scan p f b xs).1 = some x ↔ b < f x ∧ First p f xs x := by
  have hbest := best_scan p f b xs
  generalize scan p f b xs = s at hbest
  rcases hbest with h | ⟨y, hb, h⟩
  · refine iff_of_false (fun e => nomatch e) fun ⟨hb, hx⟩ => ?_
    exact absurd (h x hx.mem hx.holds) (not_le.mpr hb)
  · constructor
    · intro e
      cases e
      exact ⟨hb, h⟩
    · rintro ⟨-, hx⟩
      exact congrArg some (h.unique hx)

end Scan
