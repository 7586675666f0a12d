import Mathlib.Data.List.Basic
import Mathlib.Data.List.Nodup
import Mathlib.Logic.Function.Basic

/-!
# Support — Linked

Singly linked chains threaded through a store of nodes.  A chain is given by a pointer and a
`next` field on every node; `IsChain next h xs` says that following `next` from `h` visits `xs`
and ends at a null.  The store may hold any number of chains over one `next` field.

* a pointer starts at most one chain (`IsChain.unique`), so a chain repeats no node
  (`IsChain.nodup`);
* the bounded walks `find` and `toList` compute what they name on a chain at most as long as the
  bound (`find_eq`, `toList_eq`);
* `Links.unlink` is the walk with a pointer to the cell that holds the current pointer: it removes
  the first node that passes a test, and touches no node off the chain (`unlink_chain`,
  `unlink_other`).
-/

namespace Linked

variable {α : Type*}

/-- Following `next` from the pointer `h` visits `xs`, in order, and ends at a null. -/
inductive IsChain (next : α → Option α) : Option α → List α → Prop where
  | nil : IsChain next none []
  | cons {a : α} {xs : List α} (t : IsChain next (next a) xs) : IsChain next (some a) (a :: xs)

namespace IsChain

variable {next next' : α → Option α} {h : Option α} {a : α} {xs ys : List α}

@[simp] theorem none_iff : IsChain next none xs ↔ xs = [] :=
  ⟨fun h => by cases h; rfl, fun h => h ▸ .nil⟩

theorem some_iff : IsChain next (some a) xs ↔ ∃ ys, xs = a :: ys ∧ IsChain next (next a) ys := by
  constructor
  · rintro (_ | t)
    exact ⟨_, rfl, t⟩
  · rintro ⟨ys, rfl, t⟩
    exact .cons t

theorem nil_iff : IsChain next h [] ↔ h = none := by
  constructor
  · intro t
    cases t
    rfl
  · rintro rfl
    exact .nil

theorem cons_iff : IsChain next h (a :: xs) ↔ h = some a ∧ IsChain next (next a) xs := by
  constructor
  · rintro (_ | t)
    exact ⟨rfl, t⟩
  · rintro ⟨rfl, t⟩
    exact .cons t

/-- A pointer starts at most one chain. -/
theorem unique (hx : IsChain next h xs) (hy : IsChain next h ys) : xs = ys := by
  induction hx generalizing ys with
  | nil => exact (none_iff.mp hy).symm
  | cons _ ih =>
      obtain ⟨zs, rfl, hz⟩ := some_iff.mp hy
      rw [ih hz]

/-- The nodes after the first occurrence of `a` are a chain from `a`'s pointer. -/
theorem suffix (hx : IsChain next h xs) (ha : a ∈ xs) :
    ∃ us vs, xs = us ++ a :: vs ∧ IsChain next (next a) vs := by
  induction hx with
  | nil => cases ha
  | @cons b zs t ih =>
      rcases List.mem_cons.mp ha with rfl | hz
      · exact ⟨[], zs, rfl, t⟩
      · obtain ⟨us, vs, rfl, hv⟩ := ih hz
        exact ⟨b :: us, vs, rfl, hv⟩

/-- A chain repeats no node: a node met twice would start two chains of different lengths. -/
theorem nodup (hx : IsChain next h xs) : xs.Nodup := by
  induction hx with
  | nil => exact List.nodup_nil
  | @cons b zs t ih =>
      refine List.nodup_cons.mpr ⟨fun hb => ?_, ih⟩
      obtain ⟨us, vs, e, hv⟩ := t.suffix hb
      have := congrArg List.length (e.symm.trans (t.unique hv))
      simp at this
      omega

theorem head?_eq (hx : IsChain next h xs) : h = xs.head? := by
  cases hx <;> rfl

/-- The tail of a chain is a chain from its own first node. -/
theorem append_right {us vs : List α} (hx : IsChain next h (us ++ vs)) :
    IsChain next vs.head? vs := by
  induction us generalizing h with
  | nil =>
      have hv : IsChain next h vs := hx
      exact hv.head?_eq ▸ hv
  | cons u us ih => exact ih (cons_iff.mp hx).2

/-- A chain does not depend on the nodes off it. -/
theorem congr (hx : IsChain next h xs) (hn : ∀ b ∈ xs, next' b = next b) :
    IsChain next' h xs := by
  induction hx with
  | nil => exact .nil
  | @cons b zs t ih =>
      refine .cons ?_
      rw [hn b (by simp)]
      exact ih fun c hc => hn c (by simp [hc])

/-- Writing the `next` field of a node off the chain keeps the chain. -/
theorem update [DecidableEq α] {v : Option α} (hx : IsChain next h xs) (ha : a ∉ xs) :
    IsChain (Function.update next a v) h xs :=
  hx.congr fun _ hb => Function.update_of_ne (ne_of_mem_of_not_mem hb ha) _ _

/-- Pushing a node off the chain in front of it. -/
theorem push [DecidableEq α] (hx : IsChain next h xs) (ha : a ∉ xs) :
    IsChain (Function.update next a h) (some a) (a :: xs) := by
  refine .cons ?_
  rw [Function.update_self]
  exact hx.update ha

end IsChain

/-! ### Bounded walks -/

/-- The first node that passes `p`, within `n` nodes of the pointer. -/
def find (next : α → Option α) (p : α → Bool) : ℕ → Option α → Option α
  | _, none => none
  | 0, some _ => none
  | n + 1, some a => if p a then some a else find next p n (next a)

/-- The nodes from the pointer on, at most `n` of them. -/
def toList (next : α → Option α) : ℕ → Option α → List α
  | _, none => []
  | 0, some _ => []
  | n + 1, some a => a :: toList next n (next a)

variable {next : α → Option α} {h : Option α} {xs : List α} {n : ℕ}

theorem find_eq {p : α → Bool} (hx : IsChain next h xs) (hn : xs.length ≤ n) :
    find next p n h = xs.find? p := by
  induction hx generalizing n with
  | nil => cases n <;> rfl
  | @cons a ys t ih =>
      cases n with
      | zero => simp at hn
      | succ n =>
          simp only [find, List.find?_cons]
          cases p a with
          | true => rfl
          | false => exact ih (by simpa using hn)

theorem toList_eq (hx : IsChain next h xs) (hn : xs.length ≤ n) : toList next n h = xs := by
  induction hx generalizing n with
  | nil => cases n <;> rfl
  | cons _ ih =>
      cases n with
      | zero => simp at hn
      | succ n => simp only [toList, ih (by simpa using hn)]

/-! ### Unlinking through a pointer to a cell -/

/-- One list head and the `next` fields of every node. -/
structure Links (α : Type*) where
  head : Option α
  next : α → Option α

/-- A cell that holds a pointer: the list head, or the `next` field of a node. -/
inductive Cell (α : Type*) where
  | head
  | next (a : α)

namespace Links

variable [DecidableEq α]

def get (L : Links α) : Cell α → Option α
  | .head => L.head
  | .next a => L.next a

def set (L : Links α) (v : Option α) : Cell α → Links α
  | .head => { L with head := v }
  | .next a => { L with next := Function.update L.next a v }

/-- The walk with the cell `c` as cursor, at most `n` nodes: the first node that passes `p` is
bypassed. -/
def unlinkFrom (p : α → Bool) : ℕ → Cell α → Links α → Links α
  | 0, _, L => L
  | n + 1, c, L =>
      match L.get c with
      | none => L
      | some b => if p b then L.set (L.next b) c else unlinkFrom p n (.next b) L

/-- The walk from the list head. -/
def unlink (p : α → Bool) (n : ℕ) (L : Links α) : Links α := unlinkFrom p n .head L

/-- The cell is not the `next` field of a node of `xs`. -/
def Off (xs : List α) : Cell α → Prop
  | .head => True
  | .next a => a ∉ xs

theorem get_set_self (L : Links α) (v : Option α) (c : Cell α) : (L.set v c).get c = v := by
  cases c <;> simp [set, get]

theorem next_set_of_off {L : Links α} {v : Option α} {c : Cell α} {xs : List α} {b : α}
    (hc : Off xs c) (hb : b ∈ xs) : (L.set v c).next b = L.next b := by
  cases c with
  | head => rfl
  | next a => exact Function.update_of_ne (ne_of_mem_of_not_mem hb hc) _ _

/-- What the walk writes: the cursor's cell or the `next` field of a node it passed. -/
theorem unlinkFrom_frame {p : α → Bool} {L : Links α} {c : Cell α} {xs : List α} {n : ℕ}
    (hx : IsChain L.next (L.get c) xs) (hn : xs.length ≤ n) :
    (∀ b, b ∉ xs → c ≠ .next b → (unlinkFrom p n c L).next b = L.next b) ∧
      (c ≠ .head → (unlinkFrom p n c L).head = L.head) := by
  induction n generalizing c xs with
  | zero => exact ⟨fun _ _ _ => rfl, fun _ => rfl⟩
  | succ n ih =>
      rw [unlinkFrom]
      cases hg : L.get c with
      | none => exact ⟨fun _ _ _ => rfl, fun _ => rfl⟩
      | some b =>
          obtain ⟨ys, rfl, t⟩ := IsChain.some_iff.mp (hg ▸ hx)
          dsimp only
          split
          · constructor
            · intro d _ hc
              cases c with
              | head => rfl
              | next a => exact Function.update_of_ne (fun e => hc (congrArg Cell.next e.symm)) _ _
            · intro hc
              cases c with
              | head => exact absurd rfl hc
              | next a => rfl
          · obtain ⟨h₁, h₂⟩ := ih (c := .next b) t (by simpa using hn)
            refine ⟨fun d hd _ => h₁ d (fun h => hd (by simp [h])) ?_, fun _ => h₂ (by simp)⟩
            rintro ⟨⟩
            exact hd (by simp)

/-- **Unlinking.**  On a chain the walk removes the first node that passes the test. -/
theorem unlinkFrom_chain {p : α → Bool} {L : Links α} {c : Cell α} {xs : List α} {n : ℕ}
    (hx : IsChain L.next (L.get c) xs) (hn : xs.length ≤ n) (hc : Off xs c) :
    IsChain (unlinkFrom p n c L).next ((unlinkFrom p n c L).get c) (xs.eraseP p) := by
  induction n generalizing c xs with
  | zero =>
      obtain rfl : xs = [] := List.length_eq_zero_iff.mp (Nat.le_zero.mp hn)
      exact hx
  | succ n ih =>
      cases hg : L.get c with
      | none =>
          obtain rfl := IsChain.none_iff.mp (hg ▸ hx)
          simp [unlinkFrom, hg]
      | some b =>
          obtain ⟨ys, rfl, t⟩ := IsChain.some_iff.mp (hg ▸ hx)
          have hy : b ∉ ys := (List.nodup_cons.mp (hg ▸ hx).nodup).1
          simp only [unlinkFrom, hg]
          cases hp : p b with
          | true =>
              rw [if_pos rfl, List.eraseP_cons_of_pos hp, get_set_self]
              exact t.congr fun d hd => next_set_of_off hc (by simp [hd])
          | false =>
              have hl : ys.length ≤ n := by simpa using hn
              rw [if_neg (by simp), List.eraseP_cons_of_neg (by simp [hp])]
              obtain ⟨h₁, h₂⟩ := unlinkFrom_frame (p := p) (c := .next b) t hl
              have hcur : (unlinkFrom p n (.next b) L).get c = some b := by
                rw [← hg]
                cases c with
                | head => exact h₂ (by simp)
                | next a =>
                    have ha : a ∉ b :: ys := hc
                    refine h₁ a (fun h => ha (by simp [h])) ?_
                    rintro ⟨⟩
                    exact ha (by simp)
              rw [hcur]
              exact .cons (ih t hl hy)

/-- The walk tests only the nodes of the chain. -/
theorem unlinkFrom_congr {p q : α → Bool} {L : Links α} {c : Cell α} {xs : List α} {n : ℕ}
    (hx : IsChain L.next (L.get c) xs) (hpq : ∀ a ∈ xs, p a = q a) :
    unlinkFrom p n c L = unlinkFrom q n c L := by
  induction n generalizing c xs with
  | zero => rfl
  | succ n ih =>
      rw [unlinkFrom, unlinkFrom]
      cases hg : L.get c with
      | none => rfl
      | some b =>
          obtain ⟨ys, rfl, t⟩ := IsChain.some_iff.mp (hg ▸ hx)
          dsimp only
          rw [hpq b (by simp), ih (c := .next b) t fun a ha => hpq a (by simp [ha])]

variable {p q : α → Bool} {L : Links α} {xs : List α} {n : ℕ}

theorem unlink_congr (hx : IsChain L.next L.head xs) (hpq : ∀ a ∈ xs, p a = q a) :
    L.unlink p n = L.unlink q n :=
  unlinkFrom_congr (c := .head) hx hpq

theorem unlink_chain (hx : IsChain L.next L.head xs) (hn : xs.length ≤ n) :
    IsChain (L.unlink p n).next (L.unlink p n).head (xs.eraseP p) :=
  unlinkFrom_chain (c := .head) hx hn trivial

theorem unlink_other (hx : IsChain L.next L.head xs) (hn : xs.length ≤ n) {b : α} (hb : b ∉ xs) :
    (L.unlink p n).next b = L.next b :=
  (unlinkFrom_frame (c := .head) hx hn).1 b hb (by simp)

end Links

end Linked
