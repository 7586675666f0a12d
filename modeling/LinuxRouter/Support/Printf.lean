import LinuxRouter.Support.Text

/-!
# Support — Printf

A buffer of `size` bytes filled by one `snprintf(buf + off, size - off, …)` after the other, where
`off` adds up what the calls return: the lengths the texts would have had, not what was written.
`size - off` is unsigned, so it wraps once `off` is past `size`.

* `putAll_inBounds`: every call is given what is left of the buffer exactly if the texts but the
  last one fit;
* `putAll_outside`: then nothing is written outside the buffer;
* `putAll_text`: if the whole text is shorter than `size`, the buffer holds it.

`Holds` is the string that a call leaves, cut off where the buffer ends.

* `snprintf_holds`: a call behind the text that is there; `Holds.append`: at `strlen(buf)`.
* `putAll_holds`: one call after the other, whether or not the texts fit;
* `putRows_holds`: a loop that stops once `off` is past `size`.
-/

namespace Printf

open Text

/-- The memory from the start of the buffer on, the offset, and the calls made: their offset and
the size they were given. -/
structure Out where
  mem : ℕ → Byte
  off : ℕ
  calls : List (ℕ × ℕ)

/-- `snprintf(buf + off, n, …)` of the text `s`: its first `n - 1` bytes and a NUL. -/
def snprintf (mem : ℕ → Byte) (off n : ℕ) (s : List Byte) : ℕ → Byte :=
  if n = 0 then mem
  else fun j =>
    if off ≤ j ∧ j < off + min (n - 1) s.length then s.getD (j - off) 0
    else if j = off + min (n - 1) s.length then nul
    else mem j

/-- `off += (size_t)snprintf(buf + off, size - off, …)`. -/
def put (size : ℕ) (o : Out) (s : List Byte) : Out :=
  let n := (2 ^ 64 + size - o.off) % 2 ^ 64
  { mem := snprintf o.mem o.off n s
    off := (o.off + s.length) % 2 ^ 64
    calls := o.calls ++ [(o.off, n)] }

def putAll (size : ℕ) (ss : List (List Byte)) (o : Out) : Out := ss.foldl (put size) o

/-- The buffer before the first call. -/
def start (mem : ℕ → Byte) : Out where
  mem := mem
  off := 0
  calls := []

/-- The first `n` bytes. -/
def Out.bytes (o : Out) (n : ℕ) : List Byte := (List.range n).map o.mem

/-- The call starts in the buffer, and is given what is left of it. -/
def InBounds (size : ℕ) (c : ℕ × ℕ) : Prop := c.1 ≤ size ∧ c.2 = size - c.1

variable {size : ℕ} {ss : List (List Byte)} {s : List Byte} {o : Out} {mem : ℕ → Byte}

/-- It writes only to the `n` bytes it is given. -/
theorem snprintf_other {off n j : ℕ} (h : j < off ∨ off + n ≤ j) :
    snprintf mem off n s j = mem j := by
  by_cases hn : n = 0
  · simp [snprintf, hn]
  · simp only [snprintf, hn, if_false]
    rw [if_neg (by omega), if_neg (by omega)]

theorem snprintf_text {off n j : ℕ} (hn : s.length < n) (h₁ : off ≤ j) (h₂ : j - off < s.length) :
    snprintf mem off n s j = s[j - off] := by
  have hn' : n ≠ 0 := by omega
  simp only [snprintf, hn', if_false]
  rw [if_pos (by omega), List.getD_eq_getElem?_getD, List.getElem?_eq_getElem h₂, Option.getD_some]

theorem snprintf_nul {off n : ℕ} (hn : s.length < n) :
    snprintf mem off n s (off + s.length) = nul := by
  have hn' : n ≠ 0 := by omega
  have hm : min (n - 1) s.length = s.length := by omega
  simp only [snprintf, hn', if_false, hm]
  rw [if_neg (by omega)]
  simp

theorem left_eq (hs : size < 2 ^ 64) (ho : o.off ≤ size) :
    (2 ^ 64 + size - o.off) % 2 ^ 64 = size - o.off := by
  omega

theorem putAll_off (h : o.off + ss.flatten.length < 2 ^ 64) :
    (putAll size ss o).off = o.off + ss.flatten.length := by
  induction ss generalizing o with
  | nil => rfl
  | cons s ss ih =>
      simp only [List.flatten_cons, List.length_append] at h ⊢
      have e : (put size o s).off = o.off + s.length := Nat.mod_eq_of_lt (by omega)
      have := ih (o := put size o s) (by omega)
      rw [e] at this
      rw [putAll, List.foldl_cons, ← putAll, this]
      omega

/-- **Every call is in bounds exactly if the texts but the last one fit.** -/
theorem putAll_inBounds (hs : size < 2 ^ 64) (h : o.off + ss.flatten.length < 2 ^ 64) :
    (∀ c ∈ (putAll size ss o).calls, InBounds size c) ↔
      (∀ c ∈ o.calls, InBounds size c) ∧
        (ss = [] ∨ o.off + ss.dropLast.flatten.length ≤ size) := by
  induction ss generalizing o with
  | nil => simp [putAll]
  | cons s ss ih =>
      simp only [List.flatten_cons, List.length_append] at h
      have e : (put size o s).off = o.off + s.length := Nat.mod_eq_of_lt (by omega)
      have hc : (∀ c ∈ (put size o s).calls, InBounds size c) ↔
          (∀ c ∈ o.calls, InBounds size c) ∧ o.off ≤ size := by
        simp only [put, List.mem_append, List.mem_singleton, or_imp, forall_and, forall_eq,
          InBounds]
        constructor
        · exact fun ⟨⟨h₁, hle⟩, h₂, _⟩ => ⟨⟨h₁, h₂⟩, hle⟩
        · exact fun ⟨⟨h₁, h₂⟩, hle⟩ => ⟨⟨h₁, hle⟩, h₂, left_eq hs hle⟩
      rw [putAll, List.foldl_cons, ← putAll, ih (by omega), hc, e, and_assoc]
      refine and_congr_right fun _ => ?_
      cases ss with
      | nil => simp
      | cons s' ss =>
          simp only [reduceCtorEq, false_or, List.dropLast_cons_cons, List.flatten_cons,
            List.length_append]
          omega

/-- **Nothing is written outside the buffer**, if the calls are in bounds. -/
theorem putAll_outside (hs : size < 2 ^ 64) (h : o.off + ss.flatten.length < 2 ^ 64)
    (hb : ss = [] ∨ o.off + ss.dropLast.flatten.length ≤ size) {j : ℕ} (hj : size ≤ j) :
    (putAll size ss o).mem j = o.mem j := by
  induction ss generalizing o with
  | nil => rfl
  | cons s ss ih =>
      simp only [List.flatten_cons, List.length_append] at h
      have e : (put size o s).off = o.off + s.length := Nat.mod_eq_of_lt (by omega)
      replace hb := hb.resolve_left (by simp)
      have hle : o.off ≤ size := by omega
      have hput : (put size o s).mem j = o.mem j := by
        refine snprintf_other (.inr ?_)
        rw [left_eq hs hle]
        omega
      rw [putAll, List.foldl_cons, ← putAll, ih (by omega) ?_, hput]
      cases ss with
      | nil => exact .inl rfl
      | cons s' ss =>
          rw [List.dropLast_cons_cons, List.flatten_cons, List.length_append] at hb
          rw [e]
          exact .inr (by omega)

/-- One text that fits. -/
theorem put_bytes (hs : size < 2 ^ 64) (h : o.off + s.length < size) :
    (put size o s).bytes (o.off + s.length) = o.bytes o.off ++ s := by
  have hn := left_eq hs (o := o) (by omega)
  refine List.ext_getElem (by simp [Out.bytes]) fun j h₁ h₂ => ?_
  simp only [Out.bytes, List.length_map, List.length_range] at h₁
  simp only [Out.bytes, List.getElem_map, List.getElem_range, put, hn]
  by_cases hj : j < o.off
  · rw [snprintf_other (.inl hj), List.getElem_append_left (by simpa using hj)]
    simp
  · rw [snprintf_text (by omega) (by omega) (by omega),
      List.getElem_append_right (by simpa using hj)]
    simp only [List.length_map, List.length_range]

/-- All of them. -/
theorem putAll_bytes (hs : size < 2 ^ 64) (h : o.off + ss.flatten.length < size) :
    (putAll size ss o).bytes (o.off + ss.flatten.length) = o.bytes o.off ++ ss.flatten := by
  induction ss generalizing o with
  | nil => simp [putAll]
  | cons s ss ih =>
      simp only [List.flatten_cons, List.length_append] at h ⊢
      have e : (put size o s).off = o.off + s.length := Nat.mod_eq_of_lt (by omega)
      have := ih (o := put size o s) (by omega)
      rw [e, put_bytes hs (by omega), Nat.add_assoc] at this
      rw [putAll, List.foldl_cons, ← putAll, this, List.append_assoc]

/-- And a NUL after them. -/
theorem putAll_nul (hs : size < 2 ^ 64) (h : o.off + ss.flatten.length < size) (hne : ss ≠ []) :
    (putAll size ss o).mem (o.off + ss.flatten.length) = nul := by
  induction ss generalizing o with
  | nil => exact absurd rfl hne
  | cons s ss ih =>
      simp only [List.flatten_cons, List.length_append] at h ⊢
      have e : (put size o s).off = o.off + s.length := Nat.mod_eq_of_lt (by omega)
      rw [putAll, List.foldl_cons, ← putAll]
      cases ss with
      | nil =>
          have hn := left_eq hs (o := o) (by omega)
          simp only [putAll, List.foldl_nil, put, hn, List.flatten_nil, List.length_nil,
            Nat.add_zero]
          exact snprintf_nul (by simp at h; omega)
      | cons s' ss =>
          have := ih (o := put size o s) (by omega) (by simp)
          rwa [e, Nat.add_assoc] at this

/-- **If the text is shorter than the buffer, the buffer holds it.** -/
theorem putAll_text (hs : size < 2 ^ 64) (h : ss.flatten.length < size) :
    (putAll size ss (start mem)).bytes ss.flatten.length = ss.flatten := by
  have := putAll_bytes (o := start mem) hs (by simpa [start] using h)
  simpa [start, Out.bytes] using this

/-- The string the buffer holds. -/
def Out.string (o : Out) (size : ℕ) : List Byte := cstr (o.bytes size)

theorem putAll_string (hs : size < 2 ^ 64) (h : ss.flatten.length < size) (hne : ss ≠ [])
    (hz : nul ∉ ss.flatten) : (putAll size ss (start mem)).string size = ss.flatten := by
  obtain ⟨k, rfl⟩ : ∃ k, size = ss.flatten.length + 1 + k := ⟨size - ss.flatten.length - 1, by omega⟩
  have hb := @putAll_text _ ss mem hs h
  have hn := putAll_nul (o := start mem) hs (by simpa [start] using h) hne
  rw [show (start mem).off = 0 from rfl, Nat.zero_add] at hn
  have hr : (putAll (ss.flatten.length + 1 + k) ss (start mem)).bytes (ss.flatten.length + 1 + k) =
      ss.flatten ++ nul :: (List.range k).map fun j =>
        (putAll (ss.flatten.length + 1 + k) ss (start mem)).mem (ss.flatten.length + 1 + j) := by
    conv_lhs => rw [Out.bytes, List.range_add, List.map_append, List.range_succ, List.map_append]
    rw [← Out.bytes, hb]
    simp only [List.map_cons, List.map_nil, hn, List.map_map, Function.comp_def, List.append_assoc,
      List.singleton_append]
  rw [Out.string, hr, cstr_append_nul hz]

/-! ### The string that a call leaves -/

/-- The buffer holds the string `s`, which is all of its bytes up to the first NUL. -/
structure Holds (size : ℕ) (mem : ℕ → Byte) (s : List Byte) : Prop where
  lt : s.length < size
  clean : nul ∉ s
  text : ∀ j (h : j < s.length), mem j = s[j]
  ended : mem s.length = nul

/-- The string that starts the buffer. -/
def stringIn (size : ℕ) (mem : ℕ → Byte) : List Byte := cstr ((List.range size).map mem)

theorem Holds.stringIn_eq (h : Holds size mem s) : stringIn size mem = s := by
  obtain ⟨k, hk⟩ : ∃ k, size = s.length + 1 + k := ⟨size - s.length - 1, by have := h.lt; omega⟩
  have htext : (List.range s.length).map mem = s :=
    List.ext_getElem (by simp) fun j h₁ h₂ => by simpa using h.text j h₂
  have hsplit : (List.range size).map mem =
      s ++ nul :: (List.range k).map fun j => mem (s.length + 1 + j) := by
    rw [hk, List.range_add, List.map_append, List.range_succ, List.map_append, htext, List.append_assoc,
      List.map_singleton, h.ended, List.map_map]
    rfl
  rw [stringIn, hsplit, cstr_append_nul h.clean]

/-- A call behind the text that is there.  What is behind that text does not matter. -/
theorem snprintf_holds {r : List Byte} (hs : s.length < size) (hclean : nul ∉ s)
    (htext : ∀ j (h : j < s.length), mem j = s[j]) (hr : nul ∉ r) :
    Holds size (snprintf mem s.length (size - s.length) r) ((s ++ r).take (size - 1)) := by
  have hn : size - s.length ≠ 0 := by omega
  have hcut : (s ++ r).take (size - 1) = s ++ r.take (size - s.length - 1) := by
    rw [List.take_append, List.take_of_length_le (by omega)]
    congr 2
    omega
  have hmin : min (size - s.length - 1) r.length = (r.take (size - s.length - 1)).length := by
    rw [List.length_take]
  rw [hcut]
  refine ⟨?_, ?_, fun j hj => ?_, ?_⟩
  · rw [List.length_append, List.length_take]
    omega
  · rw [List.mem_append, not_or]
    exact ⟨hclean, fun h => hr (List.mem_of_mem_take h)⟩
  · by_cases hjs : j < s.length
    · rw [snprintf_other (.inl hjs), List.getElem_append_left hjs, htext j hjs]
    · rw [List.length_append, List.length_take] at hj
      have hjr : j - s.length < r.length := by omega
      simp only [snprintf, hn, if_false]
      rw [if_pos (by omega), List.getElem_append_right (by omega), List.getElem_take,
        List.getD_eq_getElem?_getD, List.getElem?_eq_getElem hjr, Option.getD_some]
  · simp only [snprintf, hn, if_false, hmin, List.length_append]
    rw [if_neg (by omega), if_true]

/-- A call at the start. -/
theorem snprintf_zero_holds (h : 0 < size) (hs : nul ∉ s) :
    Holds size (snprintf mem 0 size s) (s.take (size - 1)) :=
  @snprintf_holds size [] mem s h List.not_mem_nil (fun _ h => absurd h (Nat.not_lt_zero _)) hs

/-- `snprintf(out + strlen(out), size - strlen(out), …)`. -/
def append (size : ℕ) (mem : ℕ → Byte) (s : List Byte) : ℕ → Byte :=
  snprintf mem (stringIn size mem).length (size - (stringIn size mem).length) s

theorem Holds.append {r : List Byte} (h : Holds size mem s) (hr : nul ∉ r) :
    Holds size (append size mem r) ((s ++ r).take (size - 1)) := by
  rw [Printf.append, h.stringIn_eq]
  exact snprintf_holds h.lt h.clean h.text hr

/-! One call after the other. -/

/-- The texts so far make up `s`: the buffer holds as much of it as there is room for. -/
structure Printed (size : ℕ) (o : Out) (s : List Byte) : Prop where
  off : o.off = s.length
  holds : Holds size o.mem (s.take (size - 1))

variable {r : List Byte}

theorem printed_first (h₀ : 0 < size) (h : size < 2 ^ 64) (hr : nul ∉ r) (hl : r.length < 2 ^ 64) :
    Printed size (put size (start mem) r) r := by
  refine ⟨?_, ?_⟩
  · rw [put, start, Nat.zero_add, Nat.mod_eq_of_lt hl]
  · rw [put, start, left_eq h (Nat.zero_le _), Nat.sub_zero]
    exact snprintf_zero_holds h₀ hr

/-- **The next text** comes behind the others as far as there is room; it changes nothing in a buffer
that is full. -/
theorem Printed.put (h : Printed size o s) (hs : size < 2 ^ 64) (hc : nul ∉ s) (hr : nul ∉ r)
    (hl : s.length + r.length < 2 ^ 64) : Printed size (put size o r) (s ++ r) := by
  refine ⟨?_, ?_⟩
  · rw [Printf.put, h.off, List.length_append, Nat.mod_eq_of_lt hl]
  · by_cases hfull : s.length < size
    · have hall : s.take (size - 1) = s := List.take_of_length_le (by omega)
      have htext : ∀ j (hj : j < s.length), o.mem j = s[j] := by
        have := h.holds.text
        rwa [hall] at this
      have hleft : (2 ^ 64 + size - o.off) % 2 ^ 64 = size - s.length := by
        rw [left_eq hs (by rw [h.off]; omega), h.off]
      rw [Printf.put, hleft, h.off]
      exact snprintf_holds hfull hc htext hr
    · have hlt := h.holds.lt
      have hsame : (s ++ r).take (size - 1) = s.take (size - 1) :=
        List.take_append_of_le_length (by omega)
      have hcell : ∀ j < size, (Printf.put size o r).mem j = o.mem j := fun j hj =>
        snprintf_other (.inl (by rw [h.off]; omega))
      rw [hsame]
      refine ⟨hlt, h.holds.clean, fun j hj => ?_, ?_⟩
      · rw [hcell j (hj.trans hlt)]
        exact h.holds.text j hj
      · rw [hcell _ hlt]
        exact h.holds.ended

theorem Printed.putAll (h : Printed size o s) (hs : size < 2 ^ 64) (hc : nul ∉ s)
    (hss : ∀ r ∈ ss, nul ∉ r) (hl : s.length + ss.flatten.length < 2 ^ 64) :
    Printed size (putAll size ss o) (s ++ ss.flatten) := by
  induction ss generalizing o s with
  | nil => simpa [Printf.putAll] using h
  | cons r ss ih =>
      obtain ⟨hr, hss⟩ := List.forall_mem_cons.mp hss
      simp only [List.flatten_cons, List.length_append] at hl
      have hc' : nul ∉ s ++ r := by
        rw [List.mem_append, not_or]
        exact ⟨hc, hr⟩
      have := ih (h.put hs hc hr (by omega)) hc' hss (by rw [List.length_append]; omega)
      rwa [Printf.putAll, List.foldl_cons, ← Printf.putAll, List.flatten_cons, ← List.append_assoc]

/-- **Calls without a test of `off`** leave a string, if there is a first of them. -/
theorem putAll_holds (h₀ : 0 < size) (hs : size < 2 ^ 64) (hne : ss ≠ []) (hss : ∀ r ∈ ss, nul ∉ r)
    (hl : ss.flatten.length < 2 ^ 64) :
    Holds size (putAll size ss (start mem)).mem (ss.flatten.take (size - 1)) := by
  cases ss with
  | nil => exact absurd rfl hne
  | cons r ss =>
      obtain ⟨hr, hss⟩ := List.forall_mem_cons.mp hss
      rw [List.flatten_cons, List.length_append] at hl
      exact ((printed_first h₀ hs hr (by omega)).putAll hs hr hss hl).holds

/-- `for (…; … && off < size; …) off += snprintf(buf + off, size - off, …)`. -/
def putRows (size : ℕ) : List (List Byte) → Out → Out
  | [], o => o
  | s :: ss, o => if o.off < size then putRows size ss (put size o s) else o

/-- The loop does not go past the size by more than a text, so that its offset does not wrap. -/
theorem Printed.putRows (h : Printed size o s) (hs : size < 2 ^ 63) (hc : nul ∉ s)
    (hss : ∀ r ∈ ss, nul ∉ r ∧ r.length < 2 ^ 63) :
    Holds size (putRows size ss o).mem ((s ++ ss.flatten).take (size - 1)) := by
  induction ss generalizing o s with
  | nil => simpa [Printf.putRows] using h.holds
  | cons r ss ih =>
      obtain ⟨⟨hr, hlen⟩, hss⟩ := List.forall_mem_cons.mp hss
      rw [Printf.putRows]
      split
      · rename_i hoff
        rw [h.off] at hoff
        have hc' : nul ∉ s ++ r := by
          rw [List.mem_append, not_or]
          exact ⟨hc, hr⟩
        have := ih (h.put (by omega) hc hr (by omega)) hc' hss
        rwa [List.flatten_cons, ← List.append_assoc]
      · -- the buffer is full
        rename_i hoff
        rw [h.off] at hoff
        rw [List.take_append_of_le_length (by omega)]
        exact h.holds

/-- **A table printed row by row** leaves a string, if it has a row. -/
theorem putRows_holds (h₀ : 0 < size) (hs : size < 2 ^ 63) (hne : ss ≠ [])
    (hss : ∀ r ∈ ss, nul ∉ r ∧ r.length < 2 ^ 63) :
    Holds size (putRows size ss (start mem)).mem (ss.flatten.take (size - 1)) := by
  cases ss with
  | nil => exact absurd rfl hne
  | cons r ss =>
      obtain ⟨⟨hr, hlen⟩, hss⟩ := List.forall_mem_cons.mp hss
      have hfirst := @printed_first size mem r h₀ (by omega) hr (by omega)
      rw [Printf.putRows, if_pos (show (start mem).off < size from h₀)]
      exact hfirst.putRows hs hr hss

/-- `off` is 0 behind the loop only if there was no row. -/
theorem putRows_off_pos (h : 0 < o.off) (hs : size < 2 ^ 63) (hss : ∀ r ∈ ss, r.length < 2 ^ 63) :
    0 < (putRows size ss o).off := by
  induction ss generalizing o with
  | nil => exact h
  | cons r ss ih =>
      obtain ⟨hr, hss⟩ := List.forall_mem_cons.mp hss
      rw [putRows]
      split
      · have hoff : (put size o r).off = o.off + r.length := Nat.mod_eq_of_lt (by omega)
        refine ih ?_ hss
        rw [hoff]
        exact Nat.add_pos_left h _
      · exact h

/-! ### Conversions -/

/-- `%-ns` and `%-nd`, of the text of the argument. -/
def padRight (n : ℕ) (s : List Byte) : List Byte := s ++ List.replicate (n - s.length) blank

/-- `%nd`. -/
def padLeft (n : ℕ) (s : List Byte) : List Byte := List.replicate (n - s.length) blank ++ s

def hexDigit (d : Byte) : Byte := if d < 10#8 then 48#8 + d else 87#8 + d

/-- `%02x` of a byte. -/
def hexByte (b : Byte) : List Byte := [hexDigit (b >>> 4), hexDigit (b &&& 15#8)]

/-- `%lu` and `%llu`. -/
def fmtU64 (n : ℕ) : List Byte := fmtNat (n % 2 ^ 64)

/-- What a conversion gives: at most `k` bytes, and no NUL. -/
structure Brief (k : ℕ) (s : List Byte) : Prop where
  clean : nul ∉ s
  le : s.length ≤ k

instance (k : ℕ) (s : List Byte) : Decidable (Brief k s) :=
  decidable_of_iff (nul ∉ s ∧ s.length ≤ k) ⟨fun h => ⟨h.1, h.2⟩, fun h => ⟨h.clean, h.le⟩⟩

variable {j k n : ℕ} {t : List Byte}

theorem Brief.append (h : Brief j s) (h' : Brief k t) : Brief (j + k) (s ++ t) := by
  refine ⟨?_, ?_⟩
  · rw [List.mem_append, not_or]
    exact ⟨h.clean, h'.clean⟩
  · rw [List.length_append]
    exact Nat.add_le_add h.le h'.le

theorem Brief.mono (h : Brief j s) (hjk : j ≤ k) : Brief k s := ⟨h.clean, h.le.trans hjk⟩

theorem brief_ite {p : Prop} [Decidable p] (h : Brief k s) (h' : Brief k t) :
    Brief k (if p then s else t) := by
  split
  · exact h
  · exact h'

theorem brief_lit {cs : List Char} (h : '\x00' ∉ cs) (hk : 4 * cs.length ≤ k) :
    Brief k (lit (String.ofList cs)) :=
  ⟨nul_notMem_lit h, (length_lit_le cs).trans hk⟩

theorem brief_blanks (n : ℕ) : Brief n (List.replicate n blank) :=
  ⟨fun h => absurd (List.eq_of_mem_replicate h) (by decide), (List.length_replicate ..).le⟩

theorem Brief.padRight (h : Brief k s) (n : ℕ) : Brief (k + n) (padRight n s) :=
  h.append ((brief_blanks _).mono (Nat.sub_le _ _))

theorem Brief.padLeft (h : Brief k s) (n : ℕ) : Brief (n + k) (padLeft n s) :=
  ((brief_blanks _).mono (Nat.sub_le _ _)).append h

theorem brief_hexByte (b : Byte) : Brief 2 (hexByte b) := by
  refine ⟨?_, Nat.le_refl 2⟩
  revert b
  decide +kernel

end Printf
