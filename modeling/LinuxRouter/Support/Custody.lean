import Mathlib.Data.List.Basic
import Mathlib.Data.List.Nodup
import Mathlib.Algebra.BigOperators.Group.Finset.Basic
import Mathlib.Data.Fintype.BigOperators

/-!
# Support — Custody

A ledger of items.  An item enters a store under a key, and leaves it in some way; the ledger is
the list of these events, oldest first.  `fate a es` replays it for one item: `none` if the ledger
is not a history (the item enters while it is held, leaves while it is not, or leaves under
another key), else where the item is now.

* `run_leaves`: a list of different items that leave together;
* `left_of_held`: the first thing that happens to an item that is held;
* `balance`: entries and exits of one item, counted.
-/

namespace Custody

/-- An entry or an exit. -/
inductive Event (α κ ω : Type*) where
  | enter (k : κ) (a : α)
  | leave (k : κ) (w : ω) (a : α)

/-- The item that enters or leaves. -/
def Event.item : Event α κ ω → α
  | .enter _ a => a
  | .leave _ _ a => a

/-- Where an item is: not yet seen, held under a key, or gone. -/
inductive Fate (κ ω : Type*) where
  | fresh
  | held (k : κ)
  | left (k : κ) (w : ω)
  deriving DecidableEq

variable {α κ ω : Type*} [DecidableEq α] [DecidableEq κ]

/-- What an event makes of the item `a`. -/
def Event.act (a : α) : Event α κ ω → Fate κ ω → Option (Fate κ ω)
  | .enter k b, f =>
      if b = a then
        match f with
        | .held _ => none
        | .fresh => some (.held k)
        | .left _ _ => some (.held k)
      else some f
  | .leave k w b, f =>
      if b = a then
        match f with
        | .held k' => if k' = k then some (.left k w) else none
        | .fresh => none
        | .left _ _ => none
      else some f

/-- The ledger replayed for the item `a`. -/
def run (a : α) : Fate κ ω → List (Event α κ ω) → Option (Fate κ ω)
  | f, [] => some f
  | f, e :: es => (e.act a f).bind fun f => run a f es

/-- Where the item `a` is. -/
def fate (a : α) (es : List (Event α κ ω)) : Option (Fate κ ω) := run a .fresh es

variable {a b : α} {k : κ} {w : ω} {f f' : Fate κ ω} {es : List (Event α κ ω)}

theorem run_append (a : α) (f : Fate κ ω) (es fs : List (Event α κ ω)) :
    run a f (es ++ fs) = (run a f es).bind fun f => run a f fs := by
  induction es generalizing f with
  | nil => rfl
  | cons e es ih =>
      simp only [List.cons_append, run, Option.bind_assoc]
      exact congrArg _ (funext ih)

/-- An item that enters. -/
theorem run_enter_self (h : ∀ k, f ≠ .held k) :
    run a f (.enter k a :: es) = run a (.held k) es := by
  cases f with
  | held k' => exact absurd rfl (h k')
  | fresh => simp [run, Event.act]
  | left k' w => simp [run, Event.act]

theorem run_enter_ne (h : b ≠ a) : run a f (.enter k b :: es) = run a f es := by
  simp [run, Event.act, h]

/-- Items that leave together: the others stay where they are. -/
theorem run_leaves_of_notMem (bs : List α) (h : a ∉ bs) :
    run a f (bs.map (.leave k w)) = some f := by
  induction bs with
  | nil => rfl
  | cons b bs ih =>
      simp only [List.mem_cons, not_or] at h
      have hb : b ≠ a := Ne.symm h.1
      simp [run, Event.act, hb, ih h.2]

/-- Items that leave together: each of them is gone. -/
theorem run_leaves_of_mem (bs : List α) (hd : bs.Nodup) (h : a ∈ bs) :
    run a (.held k) (bs.map (.leave k w)) = some (.left k w) := by
  induction bs with
  | nil => cases h
  | cons b bs ih =>
      obtain ⟨hb, hd⟩ := List.nodup_cons.mp hd
      by_cases e : b = a
      · subst e
        simp [run, Event.act, run_leaves_of_notMem bs hb]
      · have h : a ∈ bs := (List.mem_cons.mp h).resolve_left (Ne.symm e)
        simp [run, Event.act, e, ih hd h]

/-- An item that enters does not meet the ones that leave. -/
theorem run_enter_comm {k' : κ} {bs : List α} (h : b ∉ bs) :
    run a f (.enter k b :: bs.map (.leave k' w)) =
      run a f (bs.map (.leave k' w) ++ [.enter k b]) := by
  by_cases e : b = a
  · subst e
    rw [run_append, run_leaves_of_notMem bs h, Option.bind_some, run, run]
    refine congrArg _ (funext fun g => ?_)
    rw [run_leaves_of_notMem bs h]
    rfl
  · rw [run_enter_ne e, run_append]
    cases run a f (bs.map (.leave k' w)) with
    | none => rfl
    | some g =>
        rw [Option.bind_some, run_enter_ne e]
        rfl

/-- An event of another item. -/
theorem Event.act_of_ne {e : Event α κ ω} (h : e.item ≠ a) : e.act a f = some f := by
  cases e with
  | enter k b => simp [act, show b ≠ a from h]
  | leave k w b => simp [act, show b ≠ a from h]

/-- **What becomes of an item that is held**: nothing, or it leaves before anything else happens to
it. -/
theorem left_of_held (h : (run a (.held k) es).isSome) :
    (∀ e ∈ es, e.item ≠ a) ∨
      ∃ before w after, es = before ++ .leave k w a :: after ∧ ∀ e ∈ before, e.item ≠ a := by
  induction es with
  | nil => simp
  | cons e es ih =>
      by_cases he : e.item = a
      · cases e with
        | enter k' b => simp [run, Event.act, show b = a from he] at h
        | leave k' w b =>
            obtain rfl : b = a := he
            by_cases hk : k = k'
            · exact .inr ⟨[], w, es, by rw [hk]; rfl, by simp⟩
            · simp [run, Event.act, hk] at h
      · rw [run, Event.act_of_ne he, Option.bind_some] at h
        rcases ih h with hn | ⟨before, w, after, rfl, hb⟩
        · exact .inl (List.forall_mem_cons.mpr ⟨he, hn⟩)
        · exact .inr ⟨e :: before, w, after, rfl, List.forall_mem_cons.mpr ⟨he, hb⟩⟩

/-! ### Counting -/

/-- The entries of `a`. -/
def entries (a : α) (es : List (Event α κ ω)) : ℕ :=
  es.countP fun e => match e with
    | .enter _ b => b = a
    | .leave _ _ _ => false

/-- The exits of `a` in the way `w`. -/
def exits [DecidableEq ω] (w : ω) (a : α) (es : List (Event α κ ω)) : ℕ :=
  es.countP fun e => match e with
    | .enter _ _ => false
    | .leave _ w' b => b = a && w' = w

/-- 1 for an item that is held. -/
def Fate.count : Fate κ ω → ℕ
  | .held _ => 1
  | .fresh => 0
  | .left _ _ => 0

/-- **Balance.**  Every entry of an item is answered by one exit, in one way, except for an item
that is held now. -/
theorem balance [Fintype ω] [DecidableEq ω] (h : run a f es = some f') :
    entries a es + f.count = (∑ w, exits w a es) + f'.count := by
  induction es generalizing f with
  | nil =>
      obtain rfl : f = f' := Option.some.inj h
      simp [entries, exits]
  | cons e es ih =>
      rw [run, Option.bind_eq_some_iff] at h
      obtain ⟨g, hg, hr⟩ := h
      have ih := ih hr
      cases e with
      | enter k b =>
          have hx : ∀ w, exits w a (.enter k b :: es) = exits w a es := fun w => by simp [exits]
          simp only [hx]
          by_cases e : b = a
          · have hen : entries a (.enter k b :: es) = entries a es + 1 := by simp [entries, e]
            cases f with
            | held _ => simp [Event.act, e] at hg
            | fresh =>
                obtain rfl : Fate.held k = g := by simpa [Event.act, e] using hg
                simp only [hen, Fate.count] at ih ⊢
                omega
            | left _ _ =>
                obtain rfl : Fate.held k = g := by simpa [Event.act, e] using hg
                simp only [hen, Fate.count] at ih ⊢
                omega
          · have hen : entries a (.enter k b :: es) = entries a es := by simp [entries, e]
            obtain rfl : f = g := by simpa [Event.act, e] using hg
            rw [hen, ih]
      | leave k v b =>
          have hen : entries a (.leave k v b :: es) = entries a es := by simp [entries]
          by_cases e : b = a
          · have hx : ∀ w, exits w a (.leave k v b :: es) =
                exits w a es + if v = w then 1 else 0 := by
              intro w
              by_cases hv : v = w <;> simp [exits, e, hv]
            cases f with
            | fresh => simp [Event.act, e] at hg
            | left _ _ => simp [Event.act, e] at hg
            | held k' =>
                obtain ⟨-, rfl⟩ : k' = k ∧ Fate.left k v = g := by simpa [Event.act, e] using hg
                simp only [hx, Finset.sum_add_distrib, Finset.sum_ite_eq, Finset.mem_univ, if_true,
                  hen, Fate.count] at ih ⊢
                omega
          · have hx : ∀ w, exits w a (.leave k v b :: es) = exits w a es := by
              intro w
              simp [exits, e]
            obtain rfl : f = g := by simpa [Event.act, e] using hg
            simp only [hx, hen, ih]

end Custody
