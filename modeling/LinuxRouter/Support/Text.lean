import Mathlib.Data.Nat.Digits.Defs
import Mathlib.Data.List.Basic
import Mathlib.Data.List.TakeWhile
import Mathlib.Tactic.IntervalCases
import Mathlib.Tactic.NormNum

/-!
# Support — Text

Byte strings as C's library functions see them.

* `cstr` is the string a buffer holds, up to the first NUL; `CStr n` is a string stored in a
  `char[n]`, and `CStr.store` is `snprintf(buf, n, "%s", s)`.
* `fmtNat` and `fmtInt` are `%u` and `%d`; `atoi`, `strtoul`, `scanU` and `scanD` are the numeric
  readers, with the saturation of the 64-bit `strtol` and the truncation to `int`.
  `atoi_fmtInt` is the round trip.
* `fgetsAll n` is what successive calls of `fgets(line, n, fp)` return on a file.

The printers are right by construction, and the readers are described by what they take off the
front of a text.  Lines and words come in two forms: as the code cuts them, with a limit, and as a
reader sees them, without one; where the limit is not met the two are the same.
-/

namespace Text

abbrev Byte := BitVec 8

instance lawfulBEq_byte : LawfulBEq Byte := inferInstance

/-- A C `int`. -/
abbrev CInt := Int32

/-- The bytes of a string literal. -/
def lit (s : String) : List Byte :=
  s.toList.flatMap fun c => (String.utf8EncodeChar c).map (·.toBitVec)

def nul : Byte := 0#8
def nl : Byte := 10#8
def cr : Byte := 13#8
def tab : Byte := 9#8
def blank : Byte := 32#8

/-- `isspace`. -/
def isSpace (c : Byte) : Bool := c == blank || (9#8 ≤ c && c ≤ 13#8)

def isDigit (c : Byte) : Bool := 48#8 ≤ c && c ≤ 57#8

/-- The string a buffer holds. -/
def cstr (s : List Byte) : List Byte := s.takeWhile (· != nul)

theorem nul_notMem_cstr (s : List Byte) : nul ∉ cstr s := by
  intro h
  have := List.mem_takeWhile_imp h
  simp at this

theorem cstr_eq_self {s : List Byte} (h : nul ∉ s) : cstr s = s := by
  refine List.takeWhile_eq_self_iff.mpr fun c hc => ?_
  have : c ≠ nul := fun e => h (e ▸ hc)
  simpa using this

theorem cstr_append_nul {s : List Byte} (h : nul ∉ s) (t : List Byte) : cstr (s ++ nul :: t) = s := by
  have hs : ∀ c ∈ s, (c != nul) = true := by
    intro c hc
    have : c ≠ nul := fun e => h (e ▸ hc)
    simpa using this
  rw [cstr, List.takeWhile_append_of_pos hs]
  simp

/-! ### Literals -/

/-- UTF-8 has no zero byte but that of the zero character. -/
theorem ne_zero_of_mem_utf8 {c : Char} (hc : c ≠ '\x00') : ∀ b ∈ String.utf8EncodeChar c, b ≠ 0 := by
  have hv : c.val.toNat ≠ 0 := fun h => hc (Char.ext (UInt32.toNat_inj.mp h))
  have hmax : c.val.toNat < 0x110000 := by
    have := c.valid
    rcases this with h | h
    · omega
    · omega
  have hne : ∀ n : ℕ, 0 < n → n < 256 → UInt8.ofNat n ≠ 0 := by
    intro n h₀ h₁ h
    have := congrArg UInt8.toNat h
    rw [UInt8.toNat_ofNat_of_lt' h₁] at this
    exact Nat.ne_of_gt h₀ this
  intro b hb
  rw [String.utf8EncodeChar] at hb
  split at hb
  · rw [List.mem_singleton.mp hb]
    exact hne _ (by omega) (by omega)
  · split at hb
    · simp only [List.mem_cons, List.not_mem_nil, or_false] at hb
      rcases hb with rfl | rfl <;> exact hne _ (by omega) (by omega)
    · split at hb
      · simp only [List.mem_cons, List.not_mem_nil, or_false] at hb
        rcases hb with rfl | rfl | rfl <;> exact hne _ (by omega) (by omega)
      · simp only [List.mem_cons, List.not_mem_nil, or_false] at hb
        rcases hb with rfl | rfl | rfl | rfl <;> exact hne _ (by omega) (by omega)

/-- The characters of a literal are seen without decoding it. -/
theorem nul_notMem_lit {cs : List Char} (h : '\x00' ∉ cs) : nul ∉ lit (String.ofList cs) := by
  intro hm
  rw [lit, String.toList_ofList] at hm
  obtain ⟨c, hc, hb⟩ := List.mem_flatMap.mp hm
  obtain ⟨b, hb, he⟩ := List.mem_map.mp hb
  exact ne_zero_of_mem_utf8 (fun e => h (e ▸ hc)) b hb (UInt8.toBitVec_inj.mp he)

theorem length_lit_le (cs : List Char) : (lit (String.ofList cs)).length ≤ 4 * cs.length := by
  rw [lit, String.toList_ofList]
  induction cs with
  | nil => exact Nat.le_refl 0
  | cons c cs ih =>
      rw [List.flatMap_cons, List.length_append, List.length_map, String.length_utf8EncodeChar,
        List.length_cons]
      have := Char.utf8Size_le_four c
      omega

/-! ### Stored strings -/

/-- A string stored in a `char[n]`. -/
def CStr (n : ℕ) : Type := {s : List Byte // s.length < n ∧ nul ∉ s}

namespace CStr

variable {n : ℕ}

instance : DecidableEq (CStr n) := inferInstanceAs (DecidableEq {s : List Byte // s.length < n ∧ nul ∉ s})

/-- `snprintf(buf, n, "%s", s)`. -/
def store (n : ℕ) [hn : Fact (0 < n)] (s : List Byte) : CStr n :=
  ⟨(cstr s).take (n - 1), by
    have := hn.out
    rw [List.length_take]
    omega, fun hm => nul_notMem_cstr s (List.mem_of_mem_take hm)⟩

theorem store_val [Fact (0 < n)] {s : List Byte} (hs : nul ∉ s) (hl : s.length < n) :
    (store n s).1 = s := by
  simp only [store, cstr_eq_self hs]
  exact List.take_of_length_le (by omega)

theorem store_self [Fact (0 < n)] (x : CStr n) : store n x.1 = x :=
  Subtype.ext (store_val x.2.2 x.2.1)

end CStr

/-! ### Numbers -/

def digit (d : ℕ) : Byte := BitVec.ofNat 8 (48 + d)

/-- `%u`. -/
def fmtNat (n : ℕ) : List Byte :=
  if n = 0 then [digit 0] else (Nat.digits 10 n).reverse.map digit

/-- `%d`. -/
def fmtInt (x : ℤ) : List Byte :=
  if x < 0 then 45#8 :: fmtNat x.natAbs else fmtNat x.natAbs

/-- The value of a run of digits. -/
def value (s : List Byte) : ℕ := s.foldl (fun a c => 10 * a + (c.toNat - 48)) 0

/-- An optional sign: whether it is a minus, and the rest. -/
def sign : List Byte → Bool × List Byte
  | [] => (false, [])
  | c :: s => if c = 45#8 then (true, s) else if c = 43#8 then (false, s) else (false, c :: s)

/-- What the readers share: skip blanks, take a sign and a run of digits. -/
structure Number where
  neg : Bool
  digits : List Byte
  rest : List Byte

def number (s : List Byte) : Number :=
  let (neg, t) := sign (s.dropWhile isSpace)
  { neg, digits := t.takeWhile isDigit, rest := t.dropWhile isDigit }

/-- `strtol(s, NULL, 10)`, 64 bits, saturating. -/
def strtol (s : List Byte) : ℤ :=
  let m := number s
  if m.neg then max (-(value m.digits : ℤ)) (-2 ^ 63)
  else min (value m.digits : ℤ) (2 ^ 63 - 1)

/-- `atoi`. -/
def atoi (s : List Byte) : CInt := Int32.ofInt (strtol s)

/-- `strtoul(s, NULL, 10)`, 64 bits: a minus negates the saturated magnitude. -/
def strtoul (s : List Byte) : ℕ :=
  let m := number s
  let v := value m.digits
  if 2 ^ 64 ≤ v then 2 ^ 64 - 1 else if m.neg then (2 ^ 64 - v) % 2 ^ 64 else v

/-- `sscanf`'s `%u`: the value as `unsigned int` and the rest, or a matching failure. -/
def scanU (s : List Byte) : Option (ℕ × List Byte) :=
  let m := number s
  if m.digits = [] then none else some (strtoul s % 2 ^ 32, m.rest)

/-- `sscanf`'s `%d`. -/
def scanD (s : List Byte) : Option (CInt × List Byte) :=
  let m := number s
  if m.digits = [] then none else some (atoi s, m.rest)

theorem toNat_digit {d : ℕ} (h : d < 10) : (digit d).toNat = 48 + d := by
  simp [digit]
  omega

theorem isDigit_digit {d : ℕ} (h : d < 10) : isDigit (digit d) = true := by
  interval_cases d <;> decide

theorem digits_fmtNat (n : ℕ) : ∀ c ∈ fmtNat n, isDigit c = true := by
  intro c hc
  unfold fmtNat at hc
  split at hc
  · obtain rfl := List.mem_singleton.mp hc
    exact isDigit_digit (by omega)
  · obtain ⟨d, hd, rfl⟩ := List.mem_map.mp hc
    exact isDigit_digit (Nat.digits_lt_base (by omega) (List.mem_reverse.mp hd))

theorem fmtNat_ne_nil (n : ℕ) : fmtNat n ≠ [] := by
  unfold fmtNat
  split
  · simp
  · rename_i h
    simpa [Nat.digits_eq_nil_iff_eq_zero] using h

theorem value_map_digit (l : List ℕ) (h : ∀ d ∈ l, d < 10) :
    value (l.reverse.map digit) = Nat.ofDigits 10 l := by
  induction l with
  | nil => rfl
  | cons d l ih =>
      have hd : (digit d).toNat - 48 = d := by
        rw [toNat_digit (h d (by simp))]
        omega
      have hl := ih fun e he => h e (by simp [he])
      simp only [value] at hl ⊢
      simp only [List.reverse_cons, List.map_append, List.map_cons, List.map_nil,
        List.foldl_append, List.foldl_cons, List.foldl_nil, hl, hd, Nat.ofDigits_cons]
      omega

theorem value_fmtNat (n : ℕ) : value (fmtNat n) = n := by
  unfold fmtNat
  split
  · subst n
    rfl
  · rw [value_map_digit _ fun d hd => Nat.digits_lt_base (by omega) hd, Nat.ofDigits_digits]

/-- A run of digits is read up to its end. -/
theorem number_run {s t : List Byte} (h : ∀ c ∈ s, isDigit c = true) (hs : s ≠ [])
    (ht : ∀ c ∈ t.head?, isDigit c = false) :
    number (s ++ t) = { neg := false, digits := s, rest := t } := by
  obtain ⟨c, u, rfl⟩ := List.exists_cons_of_ne_nil hs
  have hc : isDigit c = true := h c (by simp)
  have hsp : isSpace c = false := by
    simp only [isDigit, Bool.and_eq_true, decide_eq_true_eq, BitVec.le_def] at hc
    simp [isSpace, blank, BitVec.le_def, ← BitVec.toNat_inj]
    simp at hc
    omega
  have hm : c ≠ 45#8 ∧ c ≠ 43#8 := by
    constructor <;> rintro rfl <;> simp [isDigit] at hc
  have hend : t.takeWhile isDigit = [] ∧ t.dropWhile isDigit = t := by
    cases t with
    | nil => exact ⟨rfl, rfl⟩
    | cons d t =>
        have hd : isDigit d = false := ht d rfl
        simp [hd]
  simp only [number, List.cons_append, List.dropWhile_cons_of_neg (Bool.not_eq_true _ ▸ hsp), sign,
    hm.1, hm.2, if_false]
  rw [← List.cons_append, List.takeWhile_append_of_pos h, List.dropWhile_append_of_pos h, hend.1,
    hend.2, List.append_nil]

/-- A run of digits reads back whole. -/
theorem number_digits {s : List Byte} (h : ∀ c ∈ s, isDigit c = true) (hs : s ≠ []) :
    number s = { neg := false, digits := s, rest := [] } := by
  simpa using number_run h hs (t := []) fun c hc => nomatch hc

theorem number_minus {s : List Byte} (h : ∀ c ∈ s, isDigit c = true) :
    number (45#8 :: s) = { neg := true, digits := s, rest := [] } := by
  have hsp : isSpace 45#8 = false := by decide
  simp only [number, List.dropWhile_cons, hsp, sign, Bool.false_eq_true, if_false, if_true]
  rw [List.takeWhile_eq_self_iff.mpr h, List.dropWhile_eq_nil_iff.mpr h]

theorem strtol_fmtInt {x : ℤ} (h₁ : -2 ^ 63 ≤ x) (h₂ : x < 2 ^ 63) : strtol (fmtInt x) = x := by
  unfold fmtInt
  split
  · simp only [strtol, number_minus (digits_fmtNat _), value_fmtNat, if_true]
    omega
  · simp only [strtol, number_digits (digits_fmtNat _) (fmtNat_ne_nil _), value_fmtNat,
      Bool.false_eq_true, if_false]
    omega

/-- **A printed `int` reads back.** -/
theorem atoi_fmtInt (x : CInt) : atoi (fmtInt x.toInt) = x := by
  have h₁ := x.le_toInt
  have h₂ := x.toInt_lt
  rw [atoi, strtol_fmtInt (by omega) (by omega)]
  exact Int32.ofInt_toInt x

/-- The bytes `%d` prints are digits or a minus. -/
theorem mem_fmtInt {x : ℤ} {c : Byte} (h : c ∈ fmtInt x) : isDigit c = true ∨ c = 45#8 := by
  unfold fmtInt at h
  split at h
  · rcases List.mem_cons.mp h with rfl | h
    · exact .inr rfl
    · exact .inl (digits_fmtNat _ c h)
  · exact .inl (digits_fmtNat _ c h)

/-- `%u` reads a printed number up to its end. -/
theorem scanU_fmtNat {n : ℕ} {t : List Byte} (hn : n < 2 ^ 32)
    (ht : ∀ c ∈ t.head?, isDigit c = false) : scanU (fmtNat n ++ t) = some (n, t) := by
  have hm := number_run (digits_fmtNat n) (fmtNat_ne_nil n) ht
  have hv : strtoul (fmtNat n ++ t) = n := by
    simp only [strtoul, hm, value_fmtNat, Bool.false_eq_true, if_false]
    rw [if_neg (by omega)]
  simp only [scanU, hm, fmtNat_ne_nil, if_false, hv, Nat.mod_eq_of_lt hn]

/-- `%d` reads a printed `int`. -/
theorem scanD_fmtInt (x : CInt) : scanD (fmtInt x.toInt) = some (x, []) := by
  have hm : (number (fmtInt x.toInt)).digits ≠ [] ∧ (number (fmtInt x.toInt)).rest = [] := by
    unfold fmtInt
    split
    · rw [number_minus (digits_fmtNat _)]
      exact ⟨fmtNat_ne_nil _, rfl⟩
    · rw [number_digits (digits_fmtNat _) (fmtNat_ne_nil _)]
      exact ⟨fmtNat_ne_nil _, rfl⟩
  simp only [scanD, hm.1, if_false, atoi_fmtInt, hm.2]

/-! ### Lines -/

/-- The lines of `fgets`, with `room` bytes left in the current line, which holds `acc`. -/
def fgetsFrom (n : ℕ) : ℕ → List Byte → List Byte → List (List Byte)
  | _, acc, [] => if acc = [] then [] else [acc]
  | room, acc, c :: s =>
      if c = nl ∨ room ≤ 1 then (acc ++ [c]) :: fgetsFrom n (n - 1) [] s
      else fgetsFrom n (room - 1) (acc ++ [c]) s

/-- What successive calls of `fgets(line, n, fp)` return: at most `n - 1` bytes each, ended by a
newline or by the end of the file. -/
def fgetsAll (n : ℕ) (file : List Byte) : List (List Byte) := fgetsFrom n (n - 1) [] file

theorem fgetsFrom_line {n room : ℕ} {acc l s : List Byte} (hl : nl ∉ l) (hr : l.length < room) :
    fgetsFrom n room acc (l ++ nl :: s) = (acc ++ l ++ [nl]) :: fgetsAll n s := by
  induction l generalizing room acc with
  | nil => simp [fgetsFrom, fgetsAll]
  | cons c l ih =>
      have hc : c ≠ nl := fun e => hl (by simp [e])
      simp only [List.length_cons] at hr
      have hroom : ¬ room ≤ 1 := by omega
      rw [List.cons_append, fgetsFrom, if_neg (by simp [hc, hroom]),
        ih (fun h => hl (by simp [h])) (by omega)]
      simp

/-- A line short enough to fit is read in one call. -/
theorem fgetsAll_line {n : ℕ} {l s : List Byte} (hl : nl ∉ l) (hn : l.length + 1 < n) :
    fgetsAll n (l ++ nl :: s) = (l ++ [nl]) :: fgetsAll n s := by
  rw [fgetsAll, fgetsFrom_line hl (by omega), List.nil_append]

/-- A newline is only ever the last byte of a line. -/
theorem fgetsFrom_nl {n room : ℕ} {acc s : List Byte} (ha : nl ∉ acc) :
    ∀ l ∈ fgetsFrom n room acc s, nl ∉ l.dropLast := by
  induction s generalizing room acc with
  | nil =>
      intro l hl
      simp only [fgetsFrom] at hl
      split at hl
      · cases hl
      · obtain rfl := List.mem_singleton.mp hl
        exact fun h => ha (List.dropLast_subset _ h)
  | cons c s ih =>
      intro l hl
      simp only [fgetsFrom] at hl
      split at hl
      · rcases List.mem_cons.mp hl with rfl | hl
        · simpa using ha
        · exact ih (by simp) l hl
      · rename_i hc
        refine ih ?_ l hl
        simp only [List.mem_append, List.mem_singleton, not_or]
        exact ⟨ha, fun e => hc (.inl e.symm)⟩

/-- No NUL and no newline: what a line can hold. -/
def Plain (s : List Byte) : Prop := nul ∉ s ∧ nl ∉ s

instance (s : List Byte) : Decidable (Plain s) := inferInstanceAs (Decidable (_ ∧ _))

theorem plain_append {s t : List Byte} : Plain (s ++ t) ↔ Plain s ∧ Plain t := by
  simp only [Plain, List.mem_append, not_or]
  tauto

theorem plain_flatten {ss : List (List Byte)} : Plain ss.flatten ↔ ∀ s ∈ ss, Plain s := by
  simp only [Plain, List.mem_flatten, not_exists, not_and]
  exact ⟨fun h s hs => ⟨h.1 s hs, h.2 s hs⟩, fun h => ⟨fun s hs => (h s hs).1, fun s hs => (h s hs).2⟩⟩

theorem Plain.subset {s t : List Byte} (h : Plain t) (hs : s ⊆ t) : Plain s :=
  ⟨fun hm => h.1 (hs hm), fun hm => h.2 (hs hm)⟩

theorem plain_of_digits {s : List Byte} (h : ∀ c ∈ s, isDigit c = true ∨ c = 45#8) : Plain s := by
  constructor <;> intro hm <;> have := h _ hm <;> revert this <;> decide

theorem plain_fmtInt (x : ℤ) : Plain (fmtInt x) := plain_of_digits fun _ => mem_fmtInt

theorem plain_fmtNat (n : ℕ) : Plain (fmtNat n) :=
  plain_of_digits fun c hc => .inl (digits_fmtNat n c hc)

theorem CStr.plain_store {n : ℕ} [Fact (0 < n)] {s : List Byte} (hs : nl ∉ s) :
    Plain (CStr.store n s).1 :=
  ⟨(CStr.store n s).2.2,
    fun hm => hs ((List.takeWhile_prefix _).subset (List.mem_of_mem_take hm))⟩

/-- Lines, each ended by a newline. -/
def unlines (ls : List (List Byte)) : List Byte := ls.flatMap (· ++ [nl])

/-- **Lines short enough to fit are read one by one.** -/
theorem fgetsAll_unlines {n : ℕ} {ls : List (List Byte)}
    (h : ∀ l ∈ ls, nl ∉ l ∧ l.length + 1 < n) : fgetsAll n (unlines ls) = ls.map (· ++ [nl]) := by
  induction ls with
  | nil => simp [unlines, fgetsAll, fgetsFrom]
  | cons l ls ih =>
      obtain ⟨hl, hn⟩ := h l (by simp)
      rw [unlines, List.flatMap_cons, ← unlines, List.append_assoc, List.singleton_append,
        fgetsAll_line hl hn, ih fun l' hl' => h l' (by simp [hl']), List.map_cons]

/-- `strstr`: the string from the first occurrence on. -/
def strstr (needle : List Byte) : List Byte → Option (List Byte)
  | [] => if needle = [] then some [] else none
  | c :: s => if needle.isPrefixOf (c :: s) then some (c :: s) else strstr needle s

/-! ### Words -/

/-- What separates words: blank, tab, CR and LF. -/
def isWhite (c : Byte) : Bool := c == blank || c == tab || c == cr || c == nl

/-- Words in place, at most `max` of them: the last one of these is the rest of the string. -/
def splitWords : ℕ → List Byte → List (List Byte)
  | 0, _ => []
  | n + 1, s =>
      match s.dropWhile isWhite with
      | [] => []
      | c :: t =>
          if n = 0 then [c :: t]
          else (c :: t).takeWhile (fun c => !isWhite c) ::
            splitWords n ((c :: t).dropWhile fun c => !isWhite c)

theorem subset_of_mem_splitWords {n : ℕ} {s w : List Byte} (h : w ∈ splitWords n s) : w ⊆ s := by
  induction n generalizing s with
  | zero => cases h
  | succ n ih =>
      have hd := (List.dropWhile_sublist (l := s) isWhite).subset
      rw [splitWords] at h
      split at h
      · cases h
      · rename_i c t hs
        rw [hs] at hd
        split at h
        · rw [List.mem_singleton.mp h]
          exact hd
        · rcases List.mem_cons.mp h with rfl | h
          · exact fun b hb => hd ((List.takeWhile_prefix _).subset hb)
          · exact fun b hb => hd ((List.dropWhile_sublist _).subset (ih h hb))

theorem splitWords_cons_white {c : Byte} (hc : isWhite c = true) (n : ℕ) (s : List Byte) :
    splitWords n (c :: s) = splitWords n s := by
  cases n with
  | zero => rfl
  | succ n => rw [splitWords, splitWords, List.dropWhile_cons_of_pos hc]

/-- The words of a string: its maximal runs of other bytes than the white ones. -/
def words (s : List Byte) : List (List Byte) := (s.splitOnP isWhite).filter (· ≠ [])

theorem words_white {c : Byte} (hc : isWhite c = true) (s : List Byte) :
    words (c :: s) = words s := by
  simp [words, List.splitOnP_cons_eq_if_modifyHead, hc]

theorem words_run {w s : List Byte} (hw : w ≠ []) (hb : ∀ c ∈ w, isWhite c = false)
    (hs : ∀ c ∈ s.head?, isWhite c = true) : words (w ++ s) = w :: words s := by
  have h : ∀ (t : List (List Byte)) (w s : List Byte), (∀ c ∈ w, isWhite c = false) →
      s.splitOnP isWhite = [] :: t → (w ++ s).splitOnP isWhite = w :: t := by
    intro t w s hb hs
    induction w with
    | nil => exact hs
    | cons c w ih =>
        have := ih fun c' hc' => hb c' (by simp [hc'])
        simp [List.splitOnP_cons_eq_if_modifyHead, hb c (by simp), this]
  cases s with
  | nil =>
      rw [words, h [] w [] hb (by simp)]
      simp [words, hw]
  | cons c s =>
      have hc : isWhite c = true := hs c (by simp)
      have hsp : (c :: s).splitOnP isWhite = [] :: s.splitOnP isWhite := by
        simp [List.splitOnP_cons_eq_if_modifyHead, hc]
      rw [words, h _ w _ hb hsp, words, hsp]
      simp [hw]

theorem words_dropWhile (s : List Byte) : words (s.dropWhile isWhite) = words s := by
  induction s with
  | nil => rfl
  | cons c s ih =>
      by_cases hc : isWhite c = true
      · rw [List.dropWhile_cons_of_pos hc, ih, words_white hc]
      · rw [List.dropWhile_cons_of_neg hc]

/-- The first word, and the words after it. -/
theorem words_eq (s : List Byte) :
    words s = match s.dropWhile isWhite with
      | [] => []
      | c :: t => (c :: t).takeWhile (fun c => !isWhite c) ::
          words ((c :: t).dropWhile fun c => !isWhite c) := by
  rw [← words_dropWhile]
  cases h : s.dropWhile isWhite with
  | nil => rfl
  | cons c t =>
      have hc : isWhite c = false := by
        have := List.head?_dropWhile_not isWhite s
        rw [h] at this
        simpa using this
      have hrun : ∀ b ∈ (c :: t).takeWhile (fun c => !isWhite c), isWhite b = false := by
        intro b hb
        simpa using List.mem_takeWhile_imp hb
      conv_lhs => rw [← List.takeWhile_append_dropWhile (p := fun c => !isWhite c) (l := c :: t)]
      refine words_run ?_ hrun ?_
      · simp [hc]
      · intro b hb
        have := List.head?_dropWhile_not (fun c => !isWhite c) (c :: t)
        cases hd : (c :: t).dropWhile fun c => !isWhite c with
        | nil =>
            rw [hd] at hb
            cases hb
        | cons d u =>
            rw [hd] at hb this
            cases hb
            simpa using this

/-- As many words in place as there are, up to the limit. -/
theorem length_splitWords (n : ℕ) (s : List Byte) :
    (splitWords n s).length = min n (words s).length := by
  induction n generalizing s with
  | zero => simp [splitWords]
  | succ n ih =>
      rw [splitWords, words_eq]
      split
      · simp
      · rename_i c t h
        by_cases hn : n = 0
        · simp [hn]
        · simp only [hn, if_false, List.length_cons, ih]
          omega

/-- **Words in place, but for the last one there is room for, are the words.** -/
theorem take_splitWords (n : ℕ) (s : List Byte) :
    (splitWords (n + 1) s).take n = (words s).take n := by
  induction n generalizing s with
  | zero => simp
  | succ n ih =>
      rw [splitWords, words_eq]
      split
      · rfl
      · simp only [Nat.succ_ne_zero, if_false, List.take_succ_cons, ih]

/-- A string is white, or has a first word. -/
inductive Split : List Byte → Prop
  | white {u : List Byte} (hu : ∀ b ∈ u, isWhite b = true) : Split u
  | word {u : List Byte} (c : Byte) {w v : List Byte} (hu : ∀ b ∈ u, isWhite b = true)
      (hw : ∀ b ∈ c :: w, isWhite b = false) (hv : ∀ b ∈ v.head?, isWhite b = true) :
      Split (u ++ (c :: w ++ v))

theorem split (s : List Byte) : Split s := by
  have hu : ∀ b ∈ s.takeWhile isWhite, isWhite b = true := fun _ => List.mem_takeWhile_imp
  have hsplit := (List.takeWhile_append_dropWhile (p := isWhite) (l := s)).symm
  cases hd : s.dropWhile isWhite with
  | nil =>
      rw [hd, List.append_nil] at hsplit
      exact .white fun b hb => hu b (hsplit ▸ hb)
  | cons c t =>
      have hc : isWhite c = false := by
        have := List.head?_dropWhile_not isWhite s
        rw [hd] at this
        simpa using this
      have hw : ∀ b ∈ c :: t.takeWhile fun c => !isWhite c, isWhite b = false := by
        intro b hb
        rcases List.mem_cons.mp hb with rfl | hb
        · exact hc
        · simpa using List.mem_takeWhile_imp hb
      have hv : ∀ b ∈ (t.dropWhile fun c => !isWhite c).head?, isWhite b = true := by
        intro b hb
        have := List.head?_dropWhile_not (fun c => !isWhite c) t
        rw [hb] at this
        simpa using this
      have h := Split.word c hu hw hv
      rwa [List.cons_append, List.takeWhile_append_dropWhile, ← hd, List.takeWhile_append_dropWhile] at h

section Split

variable {u w v : List Byte} {c : Byte} (hu : ∀ b ∈ u, isWhite b = true)
include hu

theorem dropWhile_white : u.dropWhile isWhite = [] := List.dropWhile_eq_nil_iff.mpr hu

theorem splitWords_white (n : ℕ) : splitWords n u = [] := by
  cases n with
  | zero => rfl
  | succ n => rw [splitWords, dropWhile_white hu]

theorem words_of_white : words u = [] := by
  rw [words_eq, dropWhile_white hu]

variable (hw : ∀ b ∈ c :: w, isWhite b = false) (hv : ∀ b ∈ v.head?, isWhite b = true)
include hw

theorem dropWhile_word : (u ++ (c :: w ++ v)).dropWhile isWhite = c :: w ++ v := by
  have hc : isWhite c = false := hw c List.mem_cons_self
  rw [List.dropWhile_append_of_pos hu, List.cons_append, List.dropWhile_cons_of_neg (by simp [hc])]

include hv

theorem words_word : words (u ++ (c :: w ++ v)) = (c :: w) :: words v := by
  rw [← words_dropWhile, dropWhile_word hu hw]
  exact words_run (List.cons_ne_nil c w) hw hv

/-- The first word is given back; the last one there is room for, with what follows it. -/
theorem splitWords_word (n : ℕ) : splitWords (n + 1) (u ++ (c :: w ++ v)) =
    if n = 0 then [c :: w ++ v] else (c :: w) :: splitWords n v := by
  have hpos : ∀ b ∈ c :: w, (!isWhite b) = true := fun b hb => by simp [hw b hb]
  have hend : v.takeWhile (fun c => !isWhite c) = [] ∧ v.dropWhile (fun c => !isWhite c) = v := by
    cases v with
    | nil => exact ⟨rfl, rfl⟩
    | cons d v => simp [hv d rfl]
  rw [splitWords, dropWhile_word hu hw]
  simp only [List.cons_append]
  rw [← List.cons_append, List.takeWhile_append_of_pos hpos, List.dropWhile_append_of_pos hpos, hend.1,
    hend.2, List.append_nil]

end Split

theorem white_of_words {s : List Byte} (h : words s = []) : ∀ b ∈ s, isWhite b = true := by
  cases split s with
  | white hu => exact hu
  | word c hu hw hv =>
      rw [words_word hu hw hv] at h
      cases h

/-- **Words in place are the words**, if there are fewer than the limit, or as many and nothing
behind the last one. -/
theorem splitWords_eq_iff {n : ℕ} (hn : 0 < n) (s : List Byte) :
    splitWords n s = (words s).take n ↔
      (words s).length < n ∨ (words s).length = n ∧ ∀ b ∈ s.getLast?, isWhite b = false := by
  induction n generalizing s with
  | zero => exact absurd hn (Nat.lt_irrefl 0)
  | succ n ih =>
      cases split s with
      | white hu =>
          rw [splitWords_white hu, words_of_white hu]
          exact iff_of_true rfl (.inl (Nat.succ_pos n))
      | @word u c w v hu hw hv =>
          rw [splitWords_word hu hw hv, words_word hu hw hv, List.take_succ_cons, List.length_cons]
          by_cases hv₀ : v = []
          · -- the string ends with the word
            subst hv₀
            have hlast : ∀ b ∈ (u ++ (c :: w ++ [])).getLast?, isWhite b = false := fun b hb => by
              rw [List.append_nil, List.getLast?_append_of_ne_nil _ (List.cons_ne_nil c w)] at hb
              exact hw b (List.mem_of_getLast? hb)
            refine iff_of_true ?_ ?_
            · cases n with
              | zero => simp
              | succ n => rfl
            · cases n with
              | zero => exact .inr ⟨rfl, hlast⟩
              | succ n => exact .inl (Nat.succ_lt_succ (Nat.succ_pos n))
          · have hlast : (u ++ (c :: w ++ v)).getLast? = v.getLast? := by
              rw [← List.append_assoc, List.getLast?_append_of_ne_nil _ hv₀]
            rw [hlast, Nat.add_lt_add_iff_right, Nat.add_right_cancel_iff]
            cases n with
            | zero =>
                refine iff_of_false (by simpa using hv₀) ?_
                rintro (h | ⟨h, hb⟩)
                · exact Nat.not_lt_zero _ h
                · have hwhite := white_of_words (List.eq_nil_of_length_eq_zero h)
                  have hmem := List.getLast_mem hv₀
                  have := hb _ (List.getLast?_eq_some_getLast hv₀)
                  rw [hwhite _ hmem] at this
                  cases this
            | succ n =>
                rw [if_neg (Nat.succ_ne_zero n), List.cons_inj_right]
                exact ih (Nat.succ_pos n) v

/-- Words, each after a blank. -/
def spaced (ws : List (List Byte)) : List Byte := ws.flatMap (blank :: ·)

theorem spaced_append (ws ws' : List (List Byte)) : spaced (ws ++ ws') = spaced ws ++ spaced ws' :=
  List.flatMap_append

/-- Something that `splitWords` gives back whole. -/
def IsWord (w : List Byte) : Prop := w ≠ [] ∧ ∀ c ∈ w, isWhite c = false

instance (w : List Byte) : Decidable (IsWord w) := inferInstanceAs (Decidable (_ ∧ _))

theorem notMem_spaced {c : Byte} {ws : List (List Byte)} (hc : isWhite c = true) (hb : c ≠ blank)
    (h : ∀ w ∈ ws, IsWord w) : c ∉ spaced ws := by
  intro hm
  obtain ⟨w, hw, hm⟩ := List.mem_flatMap.mp hm
  rcases List.mem_cons.mp hm with e | hm
  · exact hb e
  · rw [(h w hw).2 c hm] at hc
    cases hc

theorem words_spaced {ws : List (List Byte)} (h : ∀ w ∈ ws, IsWord w) : words (spaced ws) = ws := by
  induction ws with
  | nil => rfl
  | cons w ws ih =>
      obtain ⟨hw, hb⟩ := h w (by simp)
      have hs : ∀ c ∈ (spaced ws).head?, isWhite c = true := by
        cases ws with
        | nil => exact fun c hc => nomatch hc
        | cons w' ws => simp [spaced, isWhite]
      rw [spaced, List.flatMap_cons, List.cons_append, words_white (by decide), ← spaced,
        words_run hw hb hs, ih fun w' hw' => h w' (by simp [hw'])]

/-- **Words with a blank between them are split again.** -/
theorem splitWords_spaced {n : ℕ} {w : List Byte} {ws : List (List Byte)} (hw : IsWord w)
    (h : ∀ w ∈ ws, IsWord w) (hn : ws.length < n) :
    splitWords (n + 1) (w ++ spaced ws) = w :: ws := by
  have hwords : words (w ++ spaced ws) = w :: ws := by
    rw [← words_white (c := blank) (by decide), ← List.cons_append]
    exact @words_spaced (w :: ws) (by simpa using ⟨hw, h⟩)
  have hlen := length_splitWords (n + 1) (w ++ spaced ws)
  have htake := take_splitWords n (w ++ spaced ws)
  rw [hwords, List.length_cons] at hlen
  rw [hwords] at htake
  rwa [List.take_of_length_le (by omega), List.take_of_length_le (by simp; omega)] at htake

end Text
