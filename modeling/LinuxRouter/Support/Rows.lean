import Mathlib.Logic.Function.Basic
import Mathlib.Data.List.Basic

/-!
# Support — Rows

A table kept as an array and a count: the first `n` cells are in use, and the others hold whatever
they hold.

* `rows a n` is the list that the table holds.
* `rows_push`: a cell written behind the last one.
* `rows_remove`: the cells behind a position, moved one place down.
* `filter_eraseIdx_pos`, `filter_eraseIdx_neg`: a row taken out, and what becomes of the rows with a
  property.
* `compact`: the loop that goes over the cells and writes those with a property over the first ones;
  `rows_compact`: it leaves the list filtered.

A loop over cells is described by what stands in front of its position and what behind it; the list
is put together of the two, and a round moves one cell from the one to the other.
-/

namespace Rows

variable {α : Type*}

/-- What a table of `n` cells holds, first to last. -/
def rows (a : ℕ → α) (n : ℕ) : List α := (List.range n).map a

@[simp] theorem rows_zero (a : ℕ → α) : rows a 0 = [] := rfl

@[simp] theorem length_rows (a : ℕ → α) (n : ℕ) : (rows a n).length = n := by simp [rows]

theorem rows_succ (a : ℕ → α) (n : ℕ) : rows a (n + 1) = rows a n ++ [a n] := by
  rw [rows, List.range_succ, List.map_append, List.map_singleton, rows]

theorem rows_congr {a b : ℕ → α} {n : ℕ} (h : ∀ i < n, a i = b i) : rows a n = rows b n :=
  List.map_congr_left fun i hi => h i (List.mem_range.mp hi)

theorem getElem?_rows (a : ℕ → α) (n i : ℕ) : (rows a n)[i]? = if i < n then some (a i) else none := by
  split
  · rename_i h
    rw [rows, List.getElem?_map, List.getElem?_range h, Option.map_some]
  · rename_i h
    exact List.getElem?_eq_none (by simpa using h)

/-! ### One more, one less -/

theorem rows_update_of_le {a : ℕ → α} {n i : ℕ} (h : n ≤ i) (x : α) :
    rows (Function.update a i x) n = rows a n :=
  rows_congr fun _ hj => Function.update_of_ne (Nat.ne_of_lt (Nat.lt_of_lt_of_le hj h)) _ _

/-- A cell written behind the last one. -/
theorem rows_push (a : ℕ → α) (n : ℕ) (x : α) :
    rows (Function.update a n x) (n + 1) = rows a n ++ [x] := by
  rw [rows_succ, rows_update_of_le (Nat.le_refl n), Function.update_self]

/-- The cells behind the position `k`, moved one place down; the last one stays where it is, too. -/
def remove (a : ℕ → α) (n k : ℕ) (i : ℕ) : α := if k ≤ i ∧ i < n - 1 then a (i + 1) else a i

theorem rows_remove (a : ℕ → α) {n k : ℕ} (h : k < n) :
    rows (remove a n k) (n - 1) = (rows a n).eraseIdx k := by
  refine List.ext_getElem? fun i => ?_
  rw [List.getElem?_eraseIdx, getElem?_rows, getElem?_rows, getElem?_rows]
  by_cases hi : i < k
  · have h₁ : i < n - 1 := by omega
    have h₂ : i < n := by omega
    rw [if_pos h₁, if_pos hi, if_pos h₂, remove, if_neg fun h => absurd h.1 (Nat.not_le.mpr hi)]
  · rw [if_neg hi]
    by_cases h₁ : i < n - 1
    · have h₂ : i + 1 < n := by omega
      rw [if_pos h₁, if_pos h₂, remove, if_pos ⟨Nat.not_lt.mp hi, h₁⟩]
    · have h₂ : ¬ i + 1 < n := by omega
      rw [if_neg h₁, if_neg h₂]

/-! ### A list and one of its elements -/

/-- A list around one of its elements. -/
theorem split_at {xs : List α} {k : ℕ} {x : α} (h : xs[k]? = some x) :
    xs = xs.take k ++ x :: xs.drop (k + 1) ∧ xs.eraseIdx k = xs.take k ++ xs.drop (k + 1) := by
  obtain ⟨hk, rfl⟩ := List.getElem?_eq_some_iff.mp h
  refine ⟨?_, List.eraseIdx_eq_take_drop_succ xs k⟩
  rw [← List.drop_eq_getElem_cons hk, List.take_append_drop]

/-- An element with a property, taken out of the list, is taken out of its part with the property. -/
theorem filter_eraseIdx_pos {p : α → Bool} {xs : List α} {k : ℕ} {x : α}
    (h : xs[k]? = some x) (hp : p x = true) :
    (xs.eraseIdx k).filter p = (xs.filter p).eraseIdx ((xs.take k).countP p) := by
  obtain ⟨hxs, herase⟩ := split_at h
  have hfilter : xs.filter p = (xs.take k).filter p ++ x :: (xs.drop (k + 1)).filter p := by
    conv_lhs => rw [hxs]
    rw [List.filter_append, List.filter_cons_of_pos hp]
  rw [herase, List.filter_append, hfilter, List.countP_eq_length_filter,
    List.eraseIdx_append_of_length_le (Nat.le_refl _), Nat.sub_self, List.eraseIdx_zero,
    List.tail_cons]

/-- An element without the property leaves that part as it is. -/
theorem filter_eraseIdx_neg {p : α → Bool} {xs : List α} {k : ℕ} {x : α}
    (h : xs[k]? = some x) (hp : p x = false) : (xs.eraseIdx k).filter p = xs.filter p := by
  obtain ⟨hxs, herase⟩ := split_at h
  have hne : ¬ p x = true := by
    rw [hp]
    exact Bool.false_ne_true
  conv_rhs => rw [hxs]
  rw [herase, List.filter_append, List.filter_append, List.filter_cons_of_neg hne]

/-! ### Compaction -/

/-- The loop from the cell `i` on, over `m` cells; the next one kept is written to `keep`. -/
def compactFrom (p : α → Bool) : ℕ → ℕ → (ℕ → α) × ℕ → (ℕ → α) × ℕ
  | 0, _, s => s
  | m + 1, i, (a, keep) =>
      compactFrom p m (i + 1) (if p (a i) then (Function.update a keep (a i), keep + 1) else (a, keep))

/-- The cells with the property `p` over the first ones, and their number. -/
def compact (p : α → Bool) (a : ℕ → α) (n : ℕ) : (ℕ → α) × ℕ := compactFrom p n 0 (a, 0)

/-- The loop at the cell `i` of the table `a`: what is kept so far stands in front, and the cells
that are still to be read are untouched. -/
structure Compacting (p : α → Bool) (a : ℕ → α) (i : ℕ) (s : (ℕ → α) × ℕ) : Prop where
  le : s.2 ≤ i
  kept : rows s.1 s.2 = (rows a i).filter p
  rest : ∀ j, i ≤ j → s.1 j = a j

variable {p : α → Bool} {a : ℕ → α} {i : ℕ} {s : (ℕ → α) × ℕ}

theorem Compacting.step (h : Compacting p a i s) : Compacting p a (i + 1)
    (if p (s.1 i) then (Function.update s.1 s.2 (s.1 i), s.2 + 1) else s) := by
  have hi : s.1 i = a i := h.rest i (Nat.le_refl i)
  have hfilter : (rows a (i + 1)).filter p = (rows a i).filter p ++ [a i].filter p := by
    rw [rows_succ, List.filter_append]
  rw [hi]
  cases hp : p (a i) with
  | false =>
      refine ⟨Nat.le_succ_of_le h.le, ?_, fun j hj => h.rest j (Nat.le_of_succ_le hj)⟩
      rw [hfilter, List.filter_singleton, hp]
      exact h.kept.trans (List.append_nil _).symm
  | true =>
      refine ⟨Nat.succ_le_succ h.le, ?_, fun j hj => ?_⟩
      · rw [hfilter, List.filter_singleton, hp]
        exact (rows_push s.1 s.2 (a i)).trans (congrArg (· ++ [a i]) h.kept)
      -- the write goes to a cell that has been read
      · have hlt : s.2 < j := Nat.lt_of_le_of_lt h.le hj
        exact (Function.update_of_ne (Nat.ne_of_gt hlt) _ _).trans (h.rest j (Nat.le_of_succ_le hj))

theorem compacting_from (m : ℕ) (h : Compacting p a i s) :
    Compacting p a (i + m) (compactFrom p m i s) := by
  induction m generalizing i s with
  | zero => exact h
  | succ m ih =>
      have := ih h.step
      rwa [Nat.add_right_comm] at this

theorem compacting (p : α → Bool) (a : ℕ → α) (n : ℕ) : Compacting p a n (compact p a n) := by
  have := compacting_from n (⟨Nat.le_refl 0, rfl, fun _ _ => rfl⟩ : Compacting p a 0 (a, 0))
  rwa [Nat.zero_add] at this

/-- **What the loop leaves is the filtered list.** -/
theorem rows_compact (p : α → Bool) (a : ℕ → α) (n : ℕ) :
    rows (compact p a n).1 (compact p a n).2 = (rows a n).filter p :=
  (compacting p a n).kept

end Rows
