import LinuxRouter.Model.Arguments
import LinuxRouter.Commands.Grammar

/-!
# Commands — the words that `addfw` reads

`fw_parse_rule` on the array of `cmd_addfw`.

* `ArgRun`: a run of the loop, with the cells it reads; `argRun_lookArgs`.
* `scan_lookRule`: read cell by cell, the words give what `Firewall` says.
* `GoesPast`: words behind which the parser reads on.  `past_lookArgs`: it reads the cell behind some
  words exactly if they are such.
* `addfw_reads_iff`: every cell that is read was set, if and only if the line does not have 16 words
  or more behind `addfw`, the first 15 of which let the parser go on.

`cmd_addfw` has an array of 15 words and hands `fw_parse_rule` the number of words that there were,
which may be larger.  The parser is therefore taken as a function that asks for cells (`Fetch`), and
the run of its loop is written down with the cells it asks for (`ArgRun`).  The loop goes by at most
three cells at a time, and asks for the cell behind some words exactly if those words, taken alone,
end where a condition could go on: with a condition, or a word that needs an operand, or a source
behind which a destination might stand.  That is `GoesPast`, which speaks of the words only and not
of the array; the proof is an induction on the run, word group by word group.
-/

namespace LinuxRouter

open Text (lit)
open Program.Prog (Reads reads_ret reads_fetch scan_fetch)

/-- The words that begin a condition. -/
def IsOption (w : List Byte) : Prop := w = lit "ip" ∨ ∃ k : OptKey, w = k.word

/-- Words behind which the parser reads on: conditions, or conditions and a word that needs an
operand. -/
def GoesPast (L : List (List Byte)) (r : FwRule) : Prop :=
  (fwParseArgs L r).isSome ∨ ∃ w ∈ L.getLast?, IsOption w ∧ (fwParseArgs L.dropLast r).isSome

/-! ### Runs of the loop -/

/-- A run of the loop on the array `a`, with `n` words left from the cell `i` on: its result, and the
cells it reads. -/
inductive ArgRun (a : ℕ → List Byte) : ℕ → ℕ → FwRule → Option FwRule → List ℕ → Prop where
  | done (i : ℕ) (r : FwRule) : ArgRun a 0 i r (some r) []
  | other (n : ℕ) (r : FwRule) (h : ¬ IsOption (a i)) : ArgRun a (n + 1) i r none [i]
  | alone (r : FwRule) (h : IsOption (a i)) : ArgRun a 1 i r none [i]
  | badSource (n : ℕ) (hip : a i = lit "ip") (hs : r.setSource (a (i + 1)) = none) :
      ArgRun a (n + 2) i r none [i, i + 1]
  | lastSource (hip : a i = lit "ip") (hs : r.setSource (a (i + 1)) = some r₁) :
      ArgRun a 2 i r (some r₁) [i, i + 1]
  | badDest (n : ℕ) (hip : a i = lit "ip") (hs : r.setSource (a (i + 1)) = some r₁)
      (ha : isAddrToken (a (i + 2)) = true) (hd : r₁.setDest (a (i + 2)) = none) :
      ArgRun a (n + 3) i r none [i, i + 1, i + 2]
  | both (hip : a i = lit "ip") (hs : r.setSource (a (i + 1)) = some r₁)
      (ha : isAddrToken (a (i + 2)) = true) (hd : r₁.setDest (a (i + 2)) = some r₂)
      (rest : ArgRun a n (i + 3) r₂ x l) : ArgRun a (n + 3) i r x (i :: (i + 1) :: (i + 2) :: l)
  | source (hip : a i = lit "ip") (hs : r.setSource (a (i + 1)) = some r₁)
      (ha : isAddrToken (a (i + 2)) = false) (rest : ArgRun a (n + 1) (i + 2) r₁ x l) :
      ArgRun a (n + 3) i r x (i :: (i + 1) :: (i + 2) :: l)
  | badKey (n : ℕ) {o : OptKey} (ho : a i = o.word) (h : o.set (a (i + 1)) r = none) :
      ArgRun a (n + 2) i r none [i, i + 1]
  | key {o : OptKey} (ho : a i = o.word) (h : o.set (a (i + 1)) r = some r₁)
      (rest : ArgRun a n (i + 2) r₁ x l) : ArgRun a (n + 2) i r x (i :: (i + 1) :: l)

variable {n i k : ℕ} {r r₁ r₂ : FwRule} {x : Option FwRule} {a : ℕ → List Byte} {w : List Byte}
  {l : List ℕ} {L : List (List Byte)}

/-- A condition with one operand takes two cells. -/
theorem argRun_key {o : OptKey} (ho : a i = o.word)
    (ih : ∀ r, ArgRun a n (i + 2) r ((lookArgs n (i + 2) r).scan a).1
      ((lookArgs n (i + 2) r).scan a).2) :
    ArgRun a (n + 2) i r ((lookArgs (n + 2) i r).scan a).1 ((lookArgs (n + 2) i r).scan a).2 := by
  have hw : lit "sport" ≠ lit "proto" ∧ lit "dport" ≠ lit "proto" ∧ lit "dport" ≠ lit "sport" ∧
      lit "keyword" ≠ lit "proto" ∧ lit "keyword" ≠ lit "sport" ∧ lit "keyword" ≠ lit "dport" := by
    decide
  obtain ⟨h₁, h₂, h₃, h₄, h₅, h₆⟩ := hw
  rw [lookArgs, scan_fetch, ho, if_neg (word_ne_ip o)]
  cases o with
  | proto =>
      rw [OptKey.word, if_pos rfl, scan_fetch]
      cases hp : parseProto (a (i + 1)) with
      | none => exact .badKey n ho (by rw [OptKey.set, hp]; rfl)
      | some p => exact .key ho (by rw [OptKey.set, hp]; rfl) (ih _)
  | sport =>
      rw [OptKey.word, if_neg h₁, if_pos rfl, scan_fetch]
      cases hp : parsePort (a (i + 1)) with
      | none => exact .badKey n ho (by rw [OptKey.set, hp]; rfl)
      | some p => exact .key ho (by rw [OptKey.set, hp]; rfl) (ih _)
  | dport =>
      rw [OptKey.word, if_neg h₂, if_neg h₃, if_pos rfl, scan_fetch]
      cases hp : parsePort (a (i + 1)) with
      | none => exact .badKey n ho (by rw [OptKey.set, hp]; rfl)
      | some p => exact .key ho (by rw [OptKey.set, hp]; rfl) (ih _)
  | keyword =>
      rw [OptKey.word, if_neg h₄, if_neg h₅, if_neg h₆, if_pos rfl, scan_fetch]
      exact .key ho rfl (ih _)

/-- **The loop runs so.** -/
theorem argRun_lookArgs (n i : ℕ) (r : FwRule) :
    ArgRun a n i r ((lookArgs n i r).scan a).1 ((lookArgs n i r).scan a).2 := by
  induction n using Nat.strong_induction_on generalizing i r with
  | _ n ih =>
      cases n with
      | zero => exact .done i r
      | succ n =>
          by_cases hopt : IsOption (a i)
          · cases n with
            | zero => exact .alone r hopt
            | succ n =>
                rcases hopt with hip | ⟨o, ho⟩
                · rw [lookArgs, scan_fetch, if_pos hip, scan_fetch]
                  cases hs : r.setSource (a (i + 1)) with
                  | none => exact .badSource n hip hs
                  | some r₁ =>
                      cases n with
                      | zero => exact .lastSource hip hs
                      | succ n =>
                          dsimp only
                          rw [scan_fetch]
                          -- the look-ahead for a destination
                          by_cases ha : isAddrToken (a (i + 2)) = true
                          · rw [if_pos ha]
                            cases hd : r₁.setDest (a (i + 2)) with
                            | none => exact .badDest n hip hs ha hd
                            | some r₂ => exact .both hip hs ha hd (ih n (by omega) _ r₂)
                          · rw [if_neg ha]
                            exact .source hip hs (by simpa using ha) (ih (n + 1) (by omega) _ r₁)
                · exact argRun_key ho (ih n (by omega) (i + 2))
          -- a word that is no option: only it is read
          · obtain ⟨h₀, hk⟩ := not_or.mp hopt
            rw [not_exists] at hk
            have h₁ : a i ≠ lit "proto" := hk .proto
            have h₂ : a i ≠ lit "sport" := hk .sport
            have h₃ : a i ≠ lit "dport" := hk .dport
            have h₄ : a i ≠ lit "keyword" := hk .keyword
            cases n with
            | zero => exact .other 0 r hopt
            | succ n =>
                rw [lookArgs, scan_fetch, if_neg h₀, if_neg h₁, if_neg h₂, if_neg h₃, if_neg h₄]
                exact .other (n + 1) r hopt

/-! ### What the loop finds and reads -/

/-- The words in `k` cells from `i` on. -/
def cells (a : ℕ → List Byte) (i k : ℕ) : List (List Byte) := (List.range' i k).map a

@[simp] theorem cells_zero (a : ℕ → List Byte) (i : ℕ) : cells a i 0 = [] := rfl

/-- One cell, and those behind it. -/
@[simp] theorem cells_succ (a : ℕ → List Byte) (i k : ℕ) :
    cells a i (k + 1) = a i :: cells a (i + 1) k := by
  rw [cells, List.range'_succ, List.map_cons, cells]

/-- A word that begins no condition ends the parse. -/
theorem fwParseArgs_other (h : ¬ IsOption w) : fwParseArgs (w :: L) r = none := by
  obtain ⟨h₀, hk⟩ := not_or.mp h
  rw [not_exists] at hk
  have h₁ : w ≠ lit "proto" := hk .proto
  have h₂ : w ≠ lit "sport" := hk .sport
  have h₃ : w ≠ lit "dport" := hk .dport
  have h₄ : w ≠ lit "keyword" := hk .keyword
  cases L with
  | nil => rfl
  | cons v L => rw [fwParseArgs_option h₀, if_neg h₁, if_neg h₂, if_neg h₃, if_neg h₄]

/-- No words begin with an address. -/
theorem head_nil : ∀ w ∈ ([] : List (List Byte)).head?, isAddrToken w = false :=
  fun _ hw => nomatch hw

/-- A source that is not taken ends it. -/
theorem fwParseArgs_badSource {v : List Byte} (h : r.setSource v = none) :
    fwParseArgs (lit "ip" :: v :: L) r = none := by
  cases L with
  | nil =>
      rw [fwParseArgs, if_pos rfl]
      exact h
  | cons d L =>
      rw [fwParseArgs, if_pos rfl]
      simp only [h, Option.bind_none, ite_self]

/-- And a destination that is not. -/
theorem fwParseArgs_badDest {v d : List Byte} (hs : r.setSource v = some r₁)
    (ha : isAddrToken d = true) (hd : r₁.setDest d = none) :
    fwParseArgs (lit "ip" :: v :: d :: L) r = none := by
  rw [fwParseArgs, if_pos rfl]
  simp only [ha, hs, hd, if_true, Option.bind_some, Option.bind_none]

/-- **The loop, cell by cell.** -/
theorem ArgRun.result (h : ArgRun a n i r x l) : fwParseArgs (cells a i n) r = x := by
  induction h with
  | done i r => rfl
  | other n r h => rw [cells_succ, fwParseArgs_other h]
  | alone r h => rfl
  | badSource n hip hs => rw [cells_succ, cells_succ, hip, fwParseArgs_badSource hs]
  | lastSource hip hs =>
      rw [cells_succ, cells_succ, cells_zero, hip, fwParseArgs_source hs head_nil]
      rfl
  | badDest n hip hs ha hd =>
      rw [cells_succ, cells_succ, cells_succ, hip, fwParseArgs_badDest hs ha hd]
  | both hip hs ha hd rest ih =>
      rw [cells_succ, cells_succ, cells_succ, hip, fwParseArgs_both hs ha hd]
      exact ih
  | source hip hs ha rest ih =>
      rw [cells_succ, cells_succ, hip, fwParseArgs_source hs]
      · exact ih
      · rw [cells_succ]
        rintro _ ⟨⟩
        exact ha
  | badKey n ho h =>
      rw [cells_succ, cells_succ, ho, fwParseArgs_key, h]
      rfl
  | key ho h rest ih =>
      rw [cells_succ, cells_succ, ho, fwParseArgs_key, h]
      exact ih

/-- The loop reads its own cells. -/
theorem ArgRun.reads (h : ArgRun a n i r x l) : ∀ j ∈ l, j < i + n := by
  have hnil : ∀ m, ∀ j ∈ ([] : List ℕ), j < m := fun _ _ hj => nomatch hj
  induction h with
  | done i r => exact hnil _
  | other n r h =>
      simp only [List.forall_mem_cons]
      exact ⟨by omega, hnil _⟩
  | alone r h =>
      simp only [List.forall_mem_cons]
      exact ⟨by omega, hnil _⟩
  | badSource n hip hs =>
      simp only [List.forall_mem_cons]
      exact ⟨by omega, by omega, hnil _⟩
  | lastSource hip hs =>
      simp only [List.forall_mem_cons]
      exact ⟨by omega, by omega, hnil _⟩
  | badDest n hip hs ha hd =>
      simp only [List.forall_mem_cons]
      exact ⟨by omega, by omega, by omega, hnil _⟩
  | both hip hs ha hd rest ih =>
      simp only [List.forall_mem_cons]
      exact ⟨by omega, by omega, by omega, fun j hj => (ih j hj).trans_le (by omega)⟩
  | source hip hs ha rest ih =>
      simp only [List.forall_mem_cons]
      exact ⟨by omega, by omega, by omega, fun j hj => (ih j hj).trans_le (by omega)⟩
  | badKey n ho h =>
      simp only [List.forall_mem_cons]
      exact ⟨by omega, by omega, hnil _⟩
  | key ho h rest ih =>
      simp only [List.forall_mem_cons]
      exact ⟨by omega, by omega, fun j hj => (ih j hj).trans_le (by omega)⟩

/-! ### Words behind which the parser goes on -/

/-- Without words the rule stays as it is. -/
theorem fwParseArgs_nil (r : FwRule) : fwParseArgs [] r = some r := rfl

theorem fwParseArgs_one (w : List Byte) (r : FwRule) : fwParseArgs [w] r = none := rfl

/-- Behind no words the parser reads on. -/
theorem goesPast_nil (r : FwRule) : GoesPast [] r := .inl rfl

/-- Behind one word it does if the word begins a condition. -/
theorem goesPast_single : GoesPast [w] r ↔ IsOption w := by
  simp [GoesPast, fwParseArgs_nil, fwParseArgs_one]

/-- Behind a word that begins none it does not. -/
theorem not_goesPast_other (h : ¬ IsOption w) : ¬ GoesPast (w :: L) r := by
  cases L with
  | nil => exact fun hp => h (goesPast_single.mp hp)
  | cons v L => simp [GoesPast, List.dropLast_cons_cons, fwParseArgs_other h]

/-- Two words off the front. -/
theorem goesPast_two {u v : List Byte} {x : Option FwRule}
    (h : ∀ M, fwParseArgs (u :: v :: M) r = x.bind (fwParseArgs M)) :
    GoesPast (u :: v :: L) r ↔ ∃ r' ∈ x, GoesPast L r' := by
  cases L with
  | nil => cases x <;> simp [GoesPast, h, fwParseArgs_nil, fwParseArgs_one]
  | cons w L => cases x <;> simp [GoesPast, h, List.dropLast_cons_cons]

/-- Three words off the front; the last of them is no option. -/
theorem goesPast_three {u v d : List Byte} {x : Option FwRule} (hd : ¬ IsOption d)
    (h : ∀ M, fwParseArgs (u :: v :: d :: M) r = x.bind (fwParseArgs M)) :
    GoesPast (u :: v :: d :: L) r ↔ ∃ r' ∈ x, GoesPast L r' := by
  cases L with
  | nil => cases x <;> simp [GoesPast, h, hd, fwParseArgs_nil]
  | cons w L => cases x <;> simp [GoesPast, h, List.dropLast_cons_cons]

/-- A source off the front, with a word behind it that is no destination. -/
theorem goesPast_source {v d : List Byte} (hd : isAddrToken d = false) :
    GoesPast (lit "ip" :: v :: d :: L) r ↔ ∃ r' ∈ r.setSource v, GoesPast (d :: L) r' := by
  have h : ∀ M, fwParseArgs (lit "ip" :: v :: d :: M) r =
      (r.setSource v).bind (fwParseArgs (d :: M)) := fun M => by
    rw [fwParseArgs, if_pos rfl]
    simp only [hd, Bool.false_eq_true, if_false]
  have h₀ : fwParseArgs [lit "ip", v] r = r.setSource v := by
    rw [fwParseArgs, if_pos rfl]
  cases L with
  | nil => cases hv : r.setSource v <;> simp [GoesPast, h, h₀, hv, fwParseArgs_nil, fwParseArgs_one]
  | cons w L => cases hv : r.setSource v <;> simp [GoesPast, h, hv, List.dropLast_cons_cons]

/-- An earlier cell, read first, makes no difference. -/
theorem past_cons {m : ℕ} (h : i < m) : (∃ j ∈ i :: l, m ≤ j) ↔ ∃ j ∈ l, m ≤ j := by
  simp [Nat.not_le.mpr h]

/-- What looks like an address begins no condition. -/
theorem isAddrToken_not_option (h : isAddrToken w = true) : ¬ IsOption w := by
  rintro (rfl | ⟨o, rfl⟩)
  · exact absurd h (by decide)
  · rw [isAddrToken_word] at h
    cases h

theorem past_none (h : i ∈ l) : (∃ j ∈ l, i + 0 ≤ j) ↔ GoesPast (cells a i 0) r :=
  iff_of_true ⟨i, h, Nat.le_refl i⟩ (goesPast_nil r)

theorem past_one (h : i + 1 ∈ l) (ho : IsOption (a i)) :
    (∃ j ∈ l, i + 1 ≤ j) ↔ GoesPast (cells a i 1) r :=
  iff_of_true ⟨i + 1, h, Nat.le_refl _⟩ (goesPast_single.mpr ho)

theorem past_source (h : i + 2 ∈ l) (hip : a i = lit "ip") (hs : r.setSource (a (i + 1)) = some r₁) :
    (∃ j ∈ l, i + 2 ≤ j) ↔ GoesPast (cells a i 2) r := by
  refine iff_of_true ⟨i + 2, h, Nat.le_refl _⟩ (.inl ?_)
  rw [cells_succ, cells_succ, cells_zero, hip, fwParseArgs_source hs head_nil]
  rfl

/-- **The cell behind some words is read** exactly if the parser goes past them. -/
theorem ArgRun.past (h : ArgRun a n i r x l) (k : ℕ) (hk : k < n) :
    (∃ j ∈ l, i + k ≤ j) ↔ GoesPast (cells a i k) r := by
  induction h generalizing k with
  | done i r => exact absurd hk (Nat.not_lt_zero k)
  | other n r h =>
      cases k with
      | zero => exact past_none (by simp)
      | succ k =>
          rw [cells_succ]
          exact iff_of_false (by simp) (not_goesPast_other h)
  | alone r h =>
      -- an option without its operand
      obtain rfl : k = 0 := Nat.lt_one_iff.mp hk
      exact past_none (by simp)
  | badSource n hip hs =>
      match k with
      | 0 => exact past_none (by simp)
      | 1 => exact past_one (by simp) (.inl hip)
      | k + 2 =>
          -- the parser stops at the source, so it reads no further than that
          rw [cells_succ, cells_succ, hip, goesPast_two (x := none) fun M => fwParseArgs_badSource hs]
          exact iff_of_false (by simp) (by simp)
  | lastSource hip hs =>
      match k with
      | 0 => exact past_none (by simp)
      | 1 => exact past_one (by simp) (.inl hip)
  | badDest n hip hs ha hd =>
      match k with
      | 0 => exact past_none (by simp)
      | 1 => exact past_one (by simp) (.inl hip)
      | 2 => exact past_source (by simp) hip hs
      | k + 3 =>
          have hd' := isAddrToken_not_option ha
          rw [cells_succ, cells_succ, cells_succ, hip,
            goesPast_three (x := none) hd' fun M => fwParseArgs_badDest hs ha hd]
          exact iff_of_false (by simp) (by simp)
  | both hip hs ha hd rest ih =>
      match k with
      | 0 => exact past_none (by simp)
      | 1 => exact past_one (by simp) (.inl hip)
      | 2 => exact past_source (by simp) hip hs
      | k + 3 =>
          -- both operands are behind it: the rest of the words decide
          have hd' := isAddrToken_not_option ha
          rw [cells_succ, cells_succ, cells_succ, hip,
            goesPast_three (x := some _) hd' fun M => fwParseArgs_both hs ha hd,
            past_cons (by omega), past_cons (by omega), past_cons (by omega)]
          have hrest := ih k (by omega)
          simpa [Nat.add_assoc, Nat.add_comm 3] using hrest
  | source hip hs ha rest ih =>
      match k with
      | 0 => exact past_none (by simp)
      | 1 => exact past_one (by simp) (.inl hip)
      | 2 => exact past_source (by simp) hip hs
      | k + 3 =>
          -- the look-ahead reads the word that the rest starts with
          rw [cells_succ, cells_succ, cells_succ, hip, goesPast_source ha, hs,
            past_cons (by omega), past_cons (by omega), past_cons (by omega)]
          have hrest := ih (k + 1) (by omega)
          rw [cells_succ] at hrest
          simpa [Nat.add_assoc, Nat.add_comm 2] using hrest
  | badKey n ho h =>
      match k with
      | 0 => exact past_none (by simp)
      | 1 => exact past_one (by simp) (.inr ⟨_, ho⟩)
      | k + 2 =>
          rw [cells_succ, cells_succ, ho, goesPast_two (x := none) fun M => by
            rw [fwParseArgs_key, h]]
          exact iff_of_false (by simp) (by simp)
  | key ho h rest ih =>
      match k with
      | 0 => exact past_none (by simp)
      | 1 => exact past_one (by simp) (.inr ⟨_, ho⟩)
      | k + 2 =>
          rw [cells_succ, cells_succ, ho, goesPast_two (x := some _) fun M => by
            rw [fwParseArgs_key, h], past_cons (by omega), past_cons (by omega)]
          have hrest := ih k (by omega)
          simpa [Nat.add_assoc, Nat.add_comm 2] using hrest

/-! ### The rule -/

/-- The first words let the parser go on: they are a rule, or a rule and a word that needs an
operand. -/
def RuleGoesPast (L : List (List Byte)) : Prop :=
  (fwParseRule L).isSome ∨ ∃ w ∈ L.getLast?, IsOption w ∧ (fwParseRule L.dropLast).isSome

/-- **`fw_parse_rule`, cell by cell.** -/
theorem scan_lookRule (n : ℕ) : ((lookRule n).scan a).1 = fwParseRule (cells a 0 n) := by
  cases n with
  | zero => rfl
  | succ n =>
      rw [lookRule, scan_fetch, cells_succ, fwParseRule]
      split
      · exact (argRun_lookArgs n 1 _).result.symm
      · split
        · exact (argRun_lookArgs n 1 _).result.symm
        · rfl

/-- The parser asks for no cell beyond the number it is given. -/
theorem reads_lookRule (n : ℕ) : ∀ j ∈ ((lookRule n).scan a).2, j < n := by
  cases n with
  | zero => exact fun _ hj => nomatch hj
  | succ n =>
      have hrun : ∀ r, ∀ j ∈ ((lookArgs n 1 r).scan a).2, j < n + 1 := fun r j hj =>
        Nat.add_comm 1 n ▸ (argRun_lookArgs n 1 r).reads j hj
      rw [lookRule, scan_fetch, List.forall_mem_cons]
      refine ⟨Nat.succ_pos n, ?_⟩
      split
      · exact hrun _
      · split
        · exact hrun _
        · exact fun _ hj => nomatch hj

/-- Behind an action it goes on with the conditions. -/
theorem ruleGoesPast_cons (h : ∀ M, fwParseRule (w :: M) = fwParseArgs M r) :
    RuleGoesPast (w :: L) ↔ GoesPast L r := by
  cases L with
  | nil => simp [RuleGoesPast, GoesPast, h, fwParseArgs_nil]
  | cons v L => simp [RuleGoesPast, GoesPast, h, List.dropLast_cons_cons]

/-- Behind a word that is no action it stops. -/
theorem not_ruleGoesPast (h : ∀ M, fwParseRule (w :: M) = none) : ¬ RuleGoesPast (w :: L) := by
  cases L with
  | nil =>
      have hnil : fwParseRule [] = none := rfl
      simp [RuleGoesPast, h, hnil]
  | cons v L => simp [RuleGoesPast, h, List.dropLast_cons_cons]

/-- **The cell behind the first words** is read exactly if they let the parser go on. -/
theorem past_lookRule {m : ℕ} (hm : m + 1 < n) :
    (∃ j ∈ ((lookRule n).scan a).2, m + 1 ≤ j) ↔ RuleGoesPast (cells a 0 (m + 1)) := by
  obtain ⟨n, rfl⟩ : ∃ k, n = k + 1 := ⟨n - 1, by omega⟩
  have hrun := fun r => (argRun_lookArgs (a := a) n 1 r).past m (by omega)
  rw [Nat.add_comm 1 m] at hrun
  rw [lookRule, scan_fetch, past_cons (Nat.succ_pos m), cells_succ]
  by_cases h₁ : a 0 = lit "drop"
  · rw [if_pos h₁, ruleGoesPast_cons (r := .blank fwDrop) fun M => by rw [fwParseRule, if_pos h₁]]
    exact hrun _
  · by_cases h₂ : a 0 = lit "allow"
    · rw [if_neg h₁, if_pos h₂, ruleGoesPast_cons (r := .blank fwAllow) fun M => by
        rw [fwParseRule, if_neg h₁, if_pos h₂]]
      exact hrun _
    · rw [if_neg h₁, if_neg h₂]
      refine iff_of_false ?_ (not_ruleGoesPast fun M => ?_)
      · rintro ⟨_, hj, _⟩
        cases hj
      · rw [fwParseRule, if_neg h₁, if_neg h₂]

/-! ### The array of `addfw` -/

/-- A line with 16 words or more behind `addfw`, the first 15 of which let the parser go on. -/
def Overlong (line : List Byte) : Prop :=
  ∃ args, dispatchWords line = lit "addfw" :: args ∧ 15 < args.length ∧ RuleGoesPast (args.take 15)

/-- The array of a line, with what is in the cells that are not set. -/
def addfwArray (junk : ℕ → List Byte) (argv : List (List Byte)) (j : ℕ) : List Byte :=
  (addfwArg argv j).getD (junk j)

/-- The words that `cmd_addfw` has copied. -/
theorem addfwArg_cons (name : List Byte) (args : List (List Byte)) (j : ℕ) :
    addfwArg (name :: args) j = if j < 15 then args[j]? else none := by
  rw [addfwArg, List.getElem?_cons_succ]
  exact if_congr (by omega) rfl rfl

/-- The cells of a long line are its first words. -/
theorem cells_addfwArray (junk : ℕ → List Byte) (name : List Byte) {args : List (List Byte)}
    (h : 15 < args.length) : cells (addfwArray junk (name :: args)) 0 15 = args.take 15 := by
  refine List.ext_getElem? fun j => ?_
  rw [cells, List.getElem?_map, List.getElem?_take]
  by_cases hj : j < 15
  · have hget : (List.range' 0 15)[j]? = some j := by
      rw [List.getElem?_range' hj]
      simp
    rw [hget, if_pos hj, Option.map_some, addfwArray, addfwArg_cons, if_pos hj,
      List.getElem?_eq_getElem (by omega), Option.getD_some]
  · rw [if_neg hj, List.getElem?_eq_none (by simpa using Nat.not_lt.mp hj), Option.map_none]

/-- What `addfw` reads for a line. -/
theorem addfwReads_eq {line : List Byte} {args : List (List Byte)} (junk : ℕ → List Byte)
    (h : dispatchWords line = lit "addfw" :: args) (hne : args ≠ []) :
    addfwReads junk line =
      ((lookRule args.length).scan (addfwArray junk (lit "addfw" :: args))).2 := by
  rw [addfwReads, h]
  exact if_pos ⟨rfl, hne⟩

/-- An overlong line makes `addfw` read a cell that was not set, or none of the array. -/
theorem overlong_overreads {line : List Byte} (h : Overlong line) (junk : ℕ → List Byte) :
    ∃ j ∈ addfwReads junk line, 15 ≤ j := by
  obtain ⟨args, hw, hlen, hpast⟩ := h
  have hne : args ≠ [] := List.ne_nil_of_length_pos (by omega)
  rwa [← cells_addfwArray junk (lit "addfw") hlen, ← past_lookRule hlen,
    ← addfwReads_eq junk hw hne] at hpast

/-- And no other line does. -/
theorem addfwReads_lt {line : List Byte} {junk : ℕ → List Byte} (h : ¬ Overlong line) {j : ℕ}
    (hj : j ∈ addfwReads junk line) : j < 15 ∧ (addfwArg (dispatchWords line) j).isSome := by
  by_cases hw : ∃ args, dispatchWords line = lit "addfw" :: args ∧ args ≠ []
  · obtain ⟨args, hw, hne⟩ := hw
    rw [addfwReads_eq junk hw hne] at hj
    have hlt := reads_lookRule args.length j hj
    have hj₁₅ : j < 15 := by
      by_contra hge
      have hlen : 15 < args.length := by omega
      refine h ⟨args, hw, hlen, ?_⟩
      rw [← cells_addfwArray junk (lit "addfw") hlen, ← past_lookRule hlen]
      exact ⟨j, hj, by omega⟩
    rw [hw, addfwArg_cons, if_pos hj₁₅, List.getElem?_eq_getElem hlt]
    exact ⟨hj₁₅, rfl⟩
  · have hnone : addfwReads junk line = [] := by
      rw [addfwReads]
      split
      · rfl
      · rename_i name args hd
        exact if_neg fun ⟨hn, ha⟩ => hw ⟨args, hn ▸ hd, ha⟩
    rw [hnone] at hj
    cases hj

/-- No cell behind the fifteenth is set. -/
theorem addfwArg_of_le (argv : List (List Byte)) {j : ℕ} (h : 15 ≤ j) : addfwArg argv j = none :=
  if_neg (by omega)

/-- **`addfw` reads only what it was given** if and only if its line is not overlong.  `cmd_addfw` sets
fifteen cells of its array at most, but tells the parser of all the words, so that one that the first
fifteen do not stop goes on to a cell that nothing has set, and then behind the array. -/
theorem addfw_reads_iff (line : List Byte) :
    (∀ junk, ∀ j ∈ addfwReads junk line, j < 16 ∧ (addfwArg (dispatchWords line) j).isSome) ↔
      ¬ Overlong line := by
  constructor
  · intro h hlong
    obtain ⟨j, hj, hle⟩ := overlong_overreads hlong fun _ => []
    have hset := (h _ j hj).2
    rw [addfwArg_of_le _ hle] at hset
    cases hset
  · intro h junk j hj
    obtain ⟨hlt, hset⟩ := addfwReads_lt h hj
    exact ⟨by omega, hset⟩

/-- `drop` and eight times a source port: the seventeenth word is the port of the last. -/
def longLine : List Byte :=
  lit "addfw drop sport 1 sport 1 sport 1 sport 1 sport 1 sport 1 sport 1 sport 1"

/-- **A line that is too long** makes `addfw` read what was never set. -/
theorem addfw_overreads :
    ¬ ∀ junk, ∀ j ∈ addfwReads junk longLine,
      j < 16 ∧ (addfwArg (dispatchWords longLine) j).isSome := by
  have hlong : Overlong longLine :=
    ⟨(dispatchWords longLine).tail, by decide +kernel, by decide +kernel, .inl (by decide +kernel)⟩
  intro h
  obtain ⟨j, hj, hle⟩ := overlong_overreads hlong fun _ => []
  have hset := (h _ j hj).2
  rw [addfwArg_of_le _ hle] at hset
  cases hset

end LinuxRouter
