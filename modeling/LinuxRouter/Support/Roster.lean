import Mathlib.Data.List.Dedup
import Mathlib.Data.List.Induction

/-!
# Support — Roster

A list that takes new elements at its end, none of them twice, as long as there is room.

* `enter` is one element, `firsts` the elements of a list without the repetitions.
* `foldl_enter`: what a list of elements makes of a roster.
* `enter_empty_iff`: when a roster takes the same elements as an empty one does.

Entering a list from left to right keeps the first of each element, and stops when there is no more
room.  What was there before matters in two ways, by what it shares with the list and by the room it
takes, and `enter_empty_iff` is that neither does.
-/

namespace Roster

variable {α : Type*} [DecidableEq α]

/-- An element enters, unless it is there already or there is no room. -/
def enter (cap : ℕ) (xs : List α) (x : α) : List α :=
  if x ∈ xs ∨ cap ≤ xs.length then xs else xs ++ [x]

/-- The elements of a list, each where it comes first. -/
def firsts (xs : List α) : List α := xs.reverse.dedup.reverse

theorem mem_firsts {xs : List α} {x : α} : x ∈ firsts xs ↔ x ∈ xs := by
  rw [firsts, List.mem_reverse, List.mem_dedup, List.mem_reverse]

theorem length_firsts (xs : List α) : (firsts xs).length = xs.dedup.length := by
  rw [firsts, List.length_reverse]
  exact (List.Perm.dedup (List.reverse_perm xs)).length_eq

theorem firsts_concat_of_mem {xs : List α} {x : α} (h : x ∈ xs) : firsts (xs ++ [x]) = firsts xs := by
  rw [firsts, List.reverse_append, List.reverse_singleton, List.singleton_append,
    List.dedup_cons_of_mem (List.mem_reverse.mpr h), firsts]

theorem firsts_concat_of_notMem {xs : List α} {x : α} (h : x ∉ xs) :
    firsts (xs ++ [x]) = firsts xs ++ [x] := by
  rw [firsts, List.reverse_append, List.reverse_singleton, List.singleton_append,
    List.dedup_cons_of_notMem (fun hm => h (List.mem_reverse.mp hm)), List.reverse_cons, firsts]

/-- The elements of `ys` that a roster `xs` takes. -/
def taken (cap : ℕ) (xs ys : List α) : List α :=
  ((firsts ys).filter (· ∉ xs)).take (cap - xs.length)

theorem taken_of_nil (cap : ℕ) (xs : List α) : taken cap xs [] = [] := by simp [taken, firsts]

variable {cap : ℕ} {xs ys : List α} {y : α}

theorem taken_concat_of_mem (h : y ∈ xs ∨ y ∈ ys) : taken cap xs (ys ++ [y]) = taken cap xs ys := by
  by_cases hy : y ∈ ys
  · rw [taken, firsts_concat_of_mem hy, taken]
  · have hx : y ∈ xs := h.resolve_right hy
    rw [taken, firsts_concat_of_notMem hy, List.filter_append,
      List.filter_cons_of_neg (by simpa using hx), List.filter_nil, List.append_nil, taken]

theorem taken_sublist (cap : ℕ) (xs ys : List α) : (taken cap xs ys).Sublist ys := by
  have hfirsts : (firsts ys).Sublist ys := by
    have := (List.dedup_sublist ys.reverse).reverse
    rwa [List.reverse_reverse] at this
  exact (List.take_sublist _ _).trans (List.filter_sublist.trans hfirsts)

/-- New elements without repetitions, and room for them. -/
theorem taken_eq_self (hnd : (xs ++ ys).Nodup) (hroom : xs.length + ys.length ≤ cap) :
    taken cap xs ys = ys := by
  obtain ⟨-, hys, hne⟩ := List.nodup_append.mp hnd
  have hfirsts : firsts ys = ys := by
    rw [firsts, (List.nodup_reverse.mpr hys).dedup, List.reverse_reverse]
  have hfilter : ys.filter (· ∉ xs) = ys :=
    List.filter_eq_self.mpr fun y hy => by simpa using fun hm => hne y hm y hy rfl
  rw [taken, hfirsts, hfilter, List.take_of_length_le (by omega)]

/-- One more element of `ys`. -/
theorem enter_taken (y : α) : enter cap (xs ++ taken cap xs ys) y = xs ++ taken cap xs (ys ++ [y]) := by
  have hlen : (taken cap xs ys).length =
      min (cap - xs.length) ((firsts ys).filter (· ∉ xs)).length := List.length_take
  have hfull : (taken cap xs ys).length < ((firsts ys).filter (· ∉ xs)).length →
      cap ≤ (xs ++ taken cap xs ys).length := by
    intro h
    rw [List.length_append]
    omega
  by_cases hx : y ∈ xs
  · rw [taken_concat_of_mem (.inl hx), enter, if_pos (.inl (List.mem_append_left _ hx))]
  · by_cases hy : y ∈ ys
    · rw [taken_concat_of_mem (.inr hy), enter, if_pos]
      -- it is there, or it has been turned away
      by_cases hall : (taken cap xs ys).length < ((firsts ys).filter (· ∉ xs)).length
      · exact .inr (hfull hall)
      · have hmem : y ∈ (firsts ys).filter (· ∉ xs) :=
          List.mem_filter.mpr ⟨mem_firsts.mpr hy, by simpa using hx⟩
        refine .inl (List.mem_append_right _ ?_)
        rwa [taken, List.take_of_length_le (by omega)]
    · have hnew : taken cap xs (ys ++ [y]) =
          ((firsts ys).filter (· ∉ xs) ++ [y]).take (cap - xs.length) := by
        rw [taken, firsts_concat_of_notMem hy, List.filter_append,
          List.filter_cons_of_pos (by simpa using hx), List.filter_nil]
      have hnot : y ∉ xs ++ taken cap xs ys := by
        rw [List.mem_append, not_or]
        refine ⟨hx, fun hm => hy ?_⟩
        exact mem_firsts.mp (List.mem_of_mem_filter (List.mem_of_mem_take hm))
      rw [hnew, List.take_append, ← taken]
      by_cases hroom : cap ≤ (xs ++ taken cap xs ys).length
      · have hnone : cap - xs.length - ((firsts ys).filter (· ∉ xs)).length = 0 := by
          rw [List.length_append] at hroom
          omega
        rw [enter, if_pos (.inr hroom), hnone, List.take_zero, List.append_nil]
      · have hone : ([y] : List α).length ≤
            cap - xs.length - ((firsts ys).filter (· ∉ xs)).length := by
          have := mt hfull hroom
          rw [List.length_append] at hroom
          rw [List.length_singleton]
          omega
        rw [enter, if_neg (not_or.mpr ⟨hnot, hroom⟩), List.take_of_length_le hone,
          List.append_assoc]

/-- **What a list of elements makes of a roster.** -/
theorem foldl_enter (cap : ℕ) (xs ys : List α) :
    ys.foldl (enter cap) xs = xs ++ taken cap xs ys := by
  induction ys using List.reverseRecOn with
  | nil => rw [taken_of_nil, List.append_nil, List.foldl_nil]
  | append_singleton ys y ih => rw [List.foldl_append, ih, List.foldl_cons, List.foldl_nil, enter_taken]

theorem taken_nil (cap : ℕ) (ys : List α) : taken cap [] ys = (firsts ys).take cap := by
  simp [taken]

/-- **A roster takes what an empty one takes** exactly if it has none of the elements and room for all
of them. -/
theorem enter_empty_iff (h : xs.length ≤ cap) : taken cap xs ys = taken cap [] ys ↔
    xs = [] ∨ ((∀ y ∈ ys, y ∉ xs) ∧ xs.length + ys.dedup.length ≤ cap) := by
  have hlen := length_firsts ys
  by_cases hxs : xs = []
  · subst hxs
    exact iff_of_true rfl (.inl rfl)
  · have hpos : 0 < xs.length := List.length_pos_iff.mpr hxs
    rw [taken_nil]
    constructor
    · intro e
      have hshort : (taken cap xs ys).length ≤ cap - xs.length := by
        rw [taken, List.length_take]
        exact Nat.min_le_left _ _
      -- an empty roster would take more, unless it takes all of them
      have hall : (firsts ys).take cap = firsts ys := by
        rw [e, List.length_take] at hshort
        exact List.take_of_length_le (by omega)
      rw [e, hall] at hshort
      refine .inr ⟨fun y hy hm => ?_, by omega⟩
      have hmem : y ∈ taken cap xs ys := by
        rw [e, hall]
        exact mem_firsts.mpr hy
      have := List.of_mem_filter (List.mem_of_mem_take hmem)
      exact absurd hm (by simpa using this)
    · rintro (e | ⟨hnone, hroom⟩)
      · exact absurd e hxs
      · have hfilter : (firsts ys).filter (· ∉ xs) = firsts ys :=
          List.filter_eq_self.mpr fun y hy => by simpa using hnone y (mem_firsts.mp hy)
        rw [taken, hfilter, List.take_of_length_le (by omega), List.take_of_length_le (by omega)]

end Roster
