import LinuxRouter.Support.Text

/-!
# Support — Numeral

The texts that the numeric readers take.

* `number_split` and `number_spelled`: what a reader takes is blanks, a sign and digits, and what is
  spelled so is taken.
* `IsNumeral t`: a reader takes `t` whole.  `exists_numeral` cuts a numeral off the front of a text, and
  `number_append` reads one there.
* `fmtNat n` is the plain one among the numerals with the value `n`.

A reader is greedy: it takes digits as long as there are any.  So a numeral is read as a whole
exactly if no digit follows it, and a text can be cut at the end of a numeral in one way only.
-/

namespace Text

/-- An optional sign, and whether it is a minus. -/
inductive IsSign : List Byte → Bool → Prop where
  | none : IsSign [] false
  | minus : IsSign [45#8] true
  | plus : IsSign [43#8] false

/-- A reader takes the text whole. -/
def IsNumeral (t : List Byte) : Prop := (number t).digits ≠ [] ∧ (number t).rest = []

instance (t : List Byte) : Decidable (IsNumeral t) := inferInstanceAs (Decidable (_ ∧ _))

/-- The text does not go on with a digit. -/
def EndsDigits (u : List Byte) : Prop := ∀ c ∈ u.head?, isDigit c = false

variable {b g ds s t u : List Byte} {neg : Bool}

theorem endsDigits_nil : EndsDigits [] := fun _ hc => nomatch hc

theorem endsDigits_cons {c : Byte} (h : isDigit c = false) (u : List Byte) : EndsDigits (c :: u) := by
  rintro _ ⟨⟩
  exact h

/-! ### What a reader takes -/

theorem sign_split (s : List Byte) :
    ∃ g, s = g ++ (sign s).2 ∧ IsSign g (sign s).1 := by
  cases s with
  | nil => exact ⟨[], rfl, .none⟩
  | cons c s =>
      by_cases h₁ : c = 45#8
      · subst h₁
        exact ⟨[45#8], rfl, .minus⟩
      · by_cases h₂ : c = 43#8
        · subst h₂
          exact ⟨[43#8], rfl, .plus⟩
        · refine ⟨[], ?_, ?_⟩
          · simp [sign, h₁, h₂]
          · simp only [sign, h₁, h₂, if_false]
            exact .none

/-- **What a reader takes** of a text, and what it leaves. -/
theorem number_split (s : List Byte) :
    ∃ b g, s = b ++ g ++ (number s).digits ++ (number s).rest ∧ (∀ c ∈ b, isSpace c = true) ∧
      IsSign g (number s).neg ∧ (∀ c ∈ (number s).digits, isDigit c = true) ∧
      EndsDigits (number s).rest := by
  obtain ⟨g, hg, hsign⟩ := sign_split (s.dropWhile isSpace)
  refine ⟨s.takeWhile isSpace, g, ?_, fun c hc => List.mem_takeWhile_imp hc, hsign,
    fun c hc => List.mem_takeWhile_imp hc, fun c hc => ?_⟩
  · simp only [number]
    rw [List.append_assoc, List.takeWhile_append_dropWhile, List.append_assoc, ← hg,
      List.takeWhile_append_dropWhile]
  · have hend := List.head?_dropWhile_not isDigit (sign (s.dropWhile isSpace)).2
    rw [show (number s).rest = ((sign (s.dropWhile isSpace)).2).dropWhile isDigit from rfl] at hc
    obtain ⟨u, hu⟩ : ∃ u, ((sign (s.dropWhile isSpace)).2).dropWhile isDigit = c :: u := by
      cases hd : ((sign (s.dropWhile isSpace)).2).dropWhile isDigit with
      | nil =>
          rw [hd] at hc
          cases hc
      | cons d u =>
          rw [hd] at hc
          cases hc
          exact ⟨u, rfl⟩
    rw [hu] at hend
    simpa using hend

theorem not_isSpace_of_isDigit {c : Byte} (h : isDigit c = true) : isSpace c = false := by
  revert h
  revert c
  decide

theorem not_sign_of_isDigit {c : Byte} (h : isDigit c = true) : c ≠ 45#8 ∧ c ≠ 43#8 := by
  constructor <;> rintro rfl <;> simp [isDigit] at h

/-- **What is spelled so is taken.** -/
theorem number_spelled (hb : ∀ c ∈ b, isSpace c = true) (hg : IsSign g neg)
    (hd : ∀ c ∈ ds, isDigit c = true) (hne : ds ≠ []) (hu : EndsDigits u) :
    number (b ++ g ++ ds ++ u) = { neg := neg, digits := ds, rest := u } := by
  obtain ⟨d, ds', rfl⟩ := List.exists_cons_of_ne_nil hne
  have hd₀ := hd d List.mem_cons_self
  have hspace : (b ++ g ++ (d :: ds') ++ u).dropWhile isSpace = g ++ (d :: ds' ++ u) := by
    have hnot : ∀ c r, isSpace c = false → (c :: r).dropWhile isSpace = c :: r := fun c r hc =>
      List.dropWhile_cons_of_neg (by simp [hc])
    rw [List.append_assoc, List.append_assoc, List.dropWhile_append_of_pos hb]
    cases hg with
    | none => exact hnot _ _ (not_isSpace_of_isDigit hd₀)
    | minus => exact hnot _ _ (by decide)
    | plus => exact hnot _ _ (by decide)
  have hsign : sign (g ++ (d :: ds' ++ u)) = (neg, d :: ds' ++ u) := by
    obtain ⟨h₁, h₂⟩ := not_sign_of_isDigit hd₀
    cases hg with
    | none => simp [sign, h₁, h₂]
    | minus => rfl
    | plus => rfl
  have hend : u.takeWhile isDigit = [] ∧ u.dropWhile isDigit = u := by
    cases u with
    | nil => exact ⟨rfl, rfl⟩
    | cons c u => simp [hu c rfl]
  simp only [number, hspace, hsign]
  rw [List.takeWhile_append_of_pos hd, List.dropWhile_append_of_pos hd, hend.1, hend.2,
    List.append_nil]

/-! ### Numerals -/

/-- **A numeral off the front** of a text. -/
theorem exists_numeral (h : (number s).digits ≠ []) :
    ∃ t, s = t ++ (number s).rest ∧ IsNumeral t ∧ number t = { number s with rest := [] } ∧
      EndsDigits (number s).rest := by
  obtain ⟨b, g, hs, hb, hg, hd, hu⟩ := number_split s
  have ht := number_spelled hb hg hd h endsDigits_nil
  rw [List.append_nil] at ht
  refine ⟨b ++ g ++ (number s).digits, hs, ?_, ht, hu⟩
  rw [IsNumeral, ht]
  exact ⟨h, rfl⟩

/-- **A numeral is read** up to its end. -/
theorem number_append (ht : IsNumeral t) (hu : EndsDigits u) :
    number (t ++ u) = { number t with rest := u } := by
  obtain ⟨b, g, hs, hb, hg, hd, -⟩ := number_split t
  rw [ht.2, List.append_nil] at hs
  conv_lhs => rw [hs]
  exact number_spelled hb hg hd ht.1 hu

/-- The bytes of a numeral are blanks, signs and digits. -/
theorem mem_numeral {c : Byte} (ht : IsNumeral t) (hc : c ∈ t) :
    isSpace c = true ∨ c = 45#8 ∨ c = 43#8 ∨ isDigit c = true := by
  obtain ⟨b, g, hs, hb, hg, hd, -⟩ := number_split t
  rw [ht.2, List.append_nil] at hs
  rw [hs, List.mem_append, List.mem_append] at hc
  generalize (number t).neg = neg at hg
  rcases hc with (hc | hc) | hc
  · exact .inl (hb c hc)
  · cases hg with
    | none => cases hc
    | minus => exact .inr (.inl (List.mem_singleton.mp hc))
    | plus => exact .inr (.inr (.inl (List.mem_singleton.mp hc)))
  · exact .inr (.inr (.inr (hd c hc)))

theorem notMem_numeral {c : Byte} (ht : IsNumeral t)
    (hc : ¬ (isSpace c = true ∨ c = 45#8 ∨ c = 43#8 ∨ isDigit c = true)) : c ∉ t :=
  fun hm => hc (mem_numeral ht hm)

/-! The readers. -/

theorem strtoul_append (ht : IsNumeral t) (hu : EndsDigits u) : strtoul (t ++ u) = strtoul t := by
  simp only [strtoul, number_append ht hu]

theorem scanU_append (ht : IsNumeral t) (hu : EndsDigits u) :
    scanU (t ++ u) = some (strtoul t % 2 ^ 32, u) := by
  simp only [scanU, number_append ht hu, strtoul_append ht hu, ht.1, if_false]

/-- **What `%u` reads.** -/
theorem scanU_eq_some {n : ℕ} : scanU s = some (n, u) ↔
    ∃ t, s = t ++ u ∧ IsNumeral t ∧ EndsDigits u ∧ strtoul t % 2 ^ 32 = n := by
  constructor
  · intro h
    simp only [scanU] at h
    split at h
    · cases h
    · rename_i hd
      obtain ⟨hn, hu⟩ := Prod.mk.inj (Option.some.inj h)
      obtain ⟨t, hs, ht, -, hend⟩ := exists_numeral hd
      rw [hu] at hs hend
      refine ⟨t, hs, ht, hend, ?_⟩
      rw [← hn, hs, strtoul_append ht hend]
  · rintro ⟨t, rfl, ht, hu, rfl⟩
    exact scanU_append ht hu

/-! ### Plain numerals -/

theorem isNumeral_fmtNat (n : ℕ) : IsNumeral (fmtNat n) := by
  rw [IsNumeral, number_digits (digits_fmtNat n) (fmtNat_ne_nil n)]
  exact ⟨fmtNat_ne_nil n, rfl⟩

theorem ne_fmtNat {c : Byte} (hc : c ∈ t) (h : isDigit c = false) (n : ℕ) : t ≠ fmtNat n := by
  rintro rfl
  rw [digits_fmtNat n c hc] at h
  cases h

theorem strtoul_fmtNat {n : ℕ} (h : n < 2 ^ 64) : strtoul (fmtNat n) = n := by
  simp only [strtoul, number_digits (digits_fmtNat n) (fmtNat_ne_nil n), value_fmtNat,
    Bool.false_eq_true, if_false]
  rw [if_neg (by omega)]

theorem toInt_atoi_fmtNat {n : ℕ} (h : n < 2 ^ 31) : (atoi (fmtNat n)).toInt = n := by
  have hs : strtol (fmtNat n) = n := by
    have hf : fmtInt n = fmtNat n := by
      rw [fmtInt, if_neg (by omega), Int.natAbs_natCast]
    rw [← hf, strtol_fmtInt (by omega) (by omega)]
  rw [atoi, hs]
  exact Int32.toInt_ofInt_of_le (by omega) (by omega)

end Text
