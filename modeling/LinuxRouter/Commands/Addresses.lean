import LinuxRouter.Support.Numeral
import LinuxRouter.Config.Cidr

/-!
# Commands — addresses and prefixes as words

What `parse_cidr` accepts, of any text.

* `IsCidr`: the plain texts, `a.b.c.d` and `a.b.c.d/len`, with the address and the mask they mean.
* `Reading`: a text cut at its dots and its slash.  `parseCidr_eq_some`: the readings that the code
  takes, of the first 63 bytes.
* `Loose`: a reading that the code takes of a text that is not plain.
* `cidr_strict_iff`: `parse_cidr` is strict with a text if and only if the text is not loose.

The code cuts a text in another way than a reader does: `sscanf` takes a number with blanks, a sign
and zeros before it, and leaves off where the number ends.  A `Reading` is the text cut as the code
cuts it, with the four numbers and the slash in their places, and the text is the reading put
together again.  Since a numeral has no dot and no slash in it, a text has one reading at most
(`Taken.unique`); so that the code takes a text says which parts it has, and the text is plain
exactly if each of the parts is printed as a number is (`isCidr_iff`).  What is left over, a reading
that is taken and not plain, is `Loose`.

The buffer of 64 bytes cuts the text first.  A plain text is at most 18 bytes long, so that the cut
never makes a plain text of another one.
-/

namespace LinuxRouter

open Text (lit fmtNat fmtInt nul number IsNumeral EndsDigits strtoul atoi scanU scanD)

/-! ### Plain texts -/

/-- Four texts with dots between them. -/
def dotted (a b c d : List Byte) : List Byte := a ++ 46#8 :: (b ++ 46#8 :: (c ++ 46#8 :: d))

/-- `a.b.c.d` with decimals to 255, and the address. -/
def IsAddress (s : List Byte) (ip : Ip) : Prop :=
  ∃ a b c d : ℕ, (a ≤ 255 ∧ b ≤ 255 ∧ c ≤ 255 ∧ d ≤ 255) ∧
    s = dotted (fmtNat a) (fmtNat b) (fmtNat c) (fmtNat d) ∧
    ip.toNat = 2 ^ 24 * a + 2 ^ 16 * b + 2 ^ 8 * c + d

/-- `n` ones, then zeros. -/
def LeadingOnes (n : ℕ) (m : Ip) : Prop := ∀ i < 32, m.getMsbD i = decide (i < n)

/-- `a.b.c.d`, or `a.b.c.d/n` with a decimal to 32; the address, and the mask of 32 or `n` ones. -/
def IsCidr (s : List Byte) (x : Ip × Ip) : Prop :=
  (IsAddress s x.1 ∧ LeadingOnes 32 x.2) ∨
    ∃ host n, n ≤ 32 ∧ s = host ++ 47#8 :: fmtNat n ∧ IsAddress host x.1 ∧ LeadingOnes n x.2

/-! ### Readings -/

/-- The parts of a text with dots, and a slash or none. -/
structure Reading where
  a : List Byte
  b : List Byte
  c : List Byte
  d : List Byte
  len : Option (List Byte)

/-- A number to 255, as `%u` takes it. -/
def IsOctet (t : List Byte) : Prop := IsNumeral t ∧ strtoul t % 2 ^ 32 ≤ 255

/-- A number to 32, as `%d` takes it; something may follow. -/
def IsLength (u : List Byte) : Prop := (number u).digits ≠ [] ∧ 0 ≤ atoi u ∧ atoi u ≤ 32

/-- The address of four numbers. -/
def joined (a b c d : ℕ) : Ip :=
  BitVec.ofNat 32 a <<< 24 ||| BitVec.ofNat 32 b <<< 16 ||| BitVec.ofNat 32 c <<< 8 |||
    BitVec.ofNat 32 d

namespace Reading

variable (r : Reading)

def host : List Byte := dotted r.a r.b r.c r.d

def text : List Byte := r.host ++ r.len.elim [] (47#8 :: ·)

/-- The numbers before the slash. -/
def octets : List (List Byte) := [r.a, r.b, r.c, r.d]

def ip : Ip :=
  joined (strtoul r.a % 2 ^ 32) (strtoul r.b % 2 ^ 32) (strtoul r.c % 2 ^ 32) (strtoul r.d % 2 ^ 32)

/-- The mask it stands for: that of its length, or of 32. -/
def mask : Ip := maskFromPrefix (r.len.elim 32 atoi)

/-- The code takes the reading. -/
structure Taken : Prop where
  octets : ∀ t ∈ r.octets, IsOctet t
  len : ∀ u ∈ r.len, IsLength u

/-- The numbers are plain decimals, and there is nothing else. -/
structure Plain : Prop where
  octets : ∀ t ∈ r.octets, ∃ n ≤ 255, t = fmtNat n
  len : ∀ u ∈ r.len, ∃ n ≤ 32, u = fmtNat n

end Reading

/-- A text of which the code takes a reading, though a number has a blank, a sign or a zero before it
or is too large, or something follows the length, or the text is cut off at 63 bytes. -/
def Loose (s : List Byte) : Prop :=
  ∃ r : Reading, s.take 63 = r.text ∧ r.Taken ∧ (r.Plain → 63 < s.length)

/-! ### The code's readings -/

variable {a b c d s t u host : List Byte} {ip : Ip}

/-- A property of four texts, one by one. -/
theorem forall_four {p : List Byte → Prop} : (∀ t ∈ [a, b, c, d], p t) ↔ p a ∧ p b ∧ p c ∧ p d := by
  simp

/-- A numeral has no dot in it. -/
theorem dot_notMem (ht : IsNumeral t) : 46#8 ∉ t := Text.notMem_numeral ht (by decide)

theorem slash_notMem (ht : IsNumeral t) : 47#8 ∉ t := Text.notMem_numeral ht (by decide)

/-- A number before a dot is read up to the dot. -/
theorem scanOctet_append (ht : IsNumeral t) (u : List Byte) :
    scanOctet 46#8 (t ++ 46#8 :: u) = some (strtoul t % 2 ^ 32, u) := by
  have hend : EndsDigits (46#8 :: u) := Text.endsDigits_cons (by decide) u
  simp only [scanOctet, Text.scanU_append ht hend, if_true]

theorem scanOctet_eq_some {n : ℕ} (h : scanOctet 46#8 s = some (n, u)) :
    ∃ t, s = t ++ 46#8 :: u ∧ IsNumeral t ∧ strtoul t % 2 ^ 32 = n := by
  rw [scanOctet] at h
  split at h
  · rename_i m x v hscan
    split at h
    · rename_i hx
      subst hx
      cases h
      obtain ⟨t, hs, ht, -, hv⟩ := Text.scanU_eq_some.mp hscan
      exact ⟨t, hs, ht, hv⟩
    · cases h
  · cases h

/-- **The addresses that `str_to_ip` takes.** -/
theorem strToIp_eq_some : strToIp s = some ip ↔
    ∃ a b c d, s = dotted a b c d ∧ (∀ t ∈ [a, b, c, d], IsOctet t) ∧
      joined (strtoul a % 2 ^ 32) (strtoul b % 2 ^ 32) (strtoul c % 2 ^ 32) (strtoul d % 2 ^ 32) =
        ip := by
  constructor
  · intro h
    simp only [strToIp, Option.bind_eq_bind, Option.bind_eq_some_iff] at h
    obtain ⟨⟨na, s₁⟩, h₁, ⟨nb, s₂⟩, h₂, ⟨nc, s₃⟩, h₃, ⟨nd, s₄⟩, h₄, h⟩ := h
    obtain ⟨a, rfl, ha, rfl⟩ := scanOctet_eq_some h₁
    obtain ⟨b, rfl, hb, rfl⟩ := scanOctet_eq_some h₂
    obtain ⟨c, rfl, hc, rfl⟩ := scanOctet_eq_some h₃
    obtain ⟨d, rfl, hd, -, rfl⟩ := Text.scanU_eq_some.mp h₄
    dsimp only at h
    split at h
    · rename_i hall
      obtain ⟨rfl, la, lb, lc, ld⟩ := hall
      rw [List.append_nil]
      exact ⟨a, b, c, d, rfl, forall_four.mpr ⟨⟨ha, la⟩, ⟨hb, lb⟩, ⟨hc, lc⟩, hd, ld⟩,
        Option.some.inj h⟩
    · cases h
  · rintro ⟨a, b, c, d, rfl, h, rfl⟩
    obtain ⟨⟨ha, la⟩, ⟨hb, lb⟩, ⟨hc, lc⟩, hd, ld⟩ := forall_four.mp h
    have hlast := Text.scanU_append hd Text.endsDigits_nil
    rw [List.append_nil] at hlast
    simp only [strToIp, dotted, scanOctet_append ha, scanOctet_append hb, scanOctet_append hc, hlast,
      Option.bind_eq_bind, Option.bind_some, la, lb, lc, ld, and_self, if_true, joined]

/-- What is left of a text in the buffer. -/
theorem buffer_eq (hs : nul ∉ s) : (Text.CStr.store 64 s).1 = s.take 63 := by
  simp only [Text.CStr.store, Text.cstr_eq_self hs]

/-- Four numbers with dots have no slash in them. -/
theorem slash_notMem_dotted (h : ∀ t ∈ [a, b, c, d], IsOctet t) : 47#8 ∉ dotted a b c d := by
  obtain ⟨⟨ha, -⟩, ⟨hb, -⟩, ⟨hc, -⟩, hd, -⟩ := forall_four.mp h
  simp only [dotted, List.mem_append, List.mem_cons, not_or]
  exact ⟨slash_notMem ha, by decide, slash_notMem hb, by decide, slash_notMem hc, by decide,
    slash_notMem hd⟩

/-- A byte that is not in a text differs from each of its bytes. -/
theorem ne_of_notMem {x : Byte} (h : x ∉ s) : ∀ c ∈ s, (c != x) = true := by
  intro c hc
  rw [bne_iff_ne]
  rintro rfl
  exact h hc

/-- The buffer without a slash. -/
theorem parseCidr_of_host (hs : nul ∉ s) (h : s.take 63 = host) (hslash : 47#8 ∉ host) :
    parseCidr s = (strToIp host).map fun ip => (ip, maskFromPrefix 32) := by
  have hall := ne_of_notMem hslash
  simp only [parseCidr, buffer_eq hs, h, List.dropWhile_eq_nil_iff.mpr hall,
    List.takeWhile_eq_self_iff.mpr hall]

/-- The buffer with a slash. -/
theorem parseCidr_of_slash (hs : nul ∉ s) (h : s.take 63 = host ++ 47#8 :: u) (hslash : 47#8 ∉ host) :
    parseCidr s = (scanD u).bind fun x =>
      if x.1 < 0 ∨ 32 < x.1 then none
      else (strToIp host).map fun ip => (ip, maskFromPrefix x.1) := by
  have hall := ne_of_notMem hslash
  have hne : ((47#8 : Byte) != 47#8) = false := by decide
  simp only [parseCidr, buffer_eq hs, h, List.takeWhile_append_of_pos hall,
    List.dropWhile_append_of_pos hall, List.takeWhile_cons, List.dropWhile_cons, hne,
    Bool.false_eq_true, if_false, List.append_nil, Option.bind_eq_bind]

/-- A length is read where it has a digit. -/
theorem scanD_of_digits (h : (number u).digits ≠ []) : scanD u = some (atoi u, (number u).rest) := by
  simp only [scanD, h, if_false]

/-- **What `parse_cidr` accepts**, and what it makes of it. -/
theorem parseCidr_eq_some (hs : nul ∉ s) {x : Ip × Ip} : parseCidr s = some x ↔
    ∃ r : Reading, s.take 63 = r.text ∧ r.Taken ∧ (r.ip, r.mask) = x := by
  constructor
  · intro h
    by_cases hslash : 47#8 ∈ s.take 63
    · obtain ⟨host, u, hsplit, hnot⟩ := List.eq_append_cons_of_mem hslash
      rw [parseCidr_of_slash hs hsplit hnot] at h
      obtain ⟨⟨len, v⟩, hscan, h⟩ := Option.bind_eq_some_iff.mp h
      dsimp only at h
      split at h
      · cases h
      · rename_i hlen
        rw [not_or, Int32.not_lt, Int32.not_lt] at hlen
        obtain ⟨ip, hip, rfl⟩ := Option.map_eq_some_iff.mp h
        obtain ⟨a, b, c, d, rfl, hoct, rfl⟩ := strToIp_eq_some.mp hip
        -- `%d` has read digits
        have hd : (number u).digits ≠ [] := by
          intro hd
          simp only [scanD, hd, if_true] at hscan
          cases hscan
        rw [scanD_of_digits hd] at hscan
        cases hscan
        refine ⟨⟨a, b, c, d, some u⟩, hsplit, ⟨hoct, ?_⟩, rfl⟩
        rintro _ ⟨⟩
        exact ⟨hd, hlen.1, hlen.2⟩
    · rw [parseCidr_of_host hs rfl hslash] at h
      obtain ⟨ip, hip, rfl⟩ := Option.map_eq_some_iff.mp h
      obtain ⟨a, b, c, d, hsplit, hoct, rfl⟩ := strToIp_eq_some.mp hip
      refine ⟨⟨a, b, c, d, none⟩, ?_, ⟨hoct, fun _ hu => by cases hu⟩, rfl⟩
      rw [hsplit]
      exact (List.append_nil _).symm
  · rintro ⟨⟨a, b, c, d, len⟩, hsplit, ⟨hoct, hlen⟩, rfl⟩
    have hslash := slash_notMem_dotted hoct
    have hip := strToIp_eq_some.mpr ⟨a, b, c, d, rfl, hoct, rfl⟩
    cases len with
    | none =>
        have hhost : s.take 63 = dotted a b c d := hsplit.trans (List.append_nil _)
        rw [parseCidr_of_host hs hhost hslash, hip]
        rfl
    | some u =>
        obtain ⟨hd, h₀, h₃₂⟩ := hlen u rfl
        have hno : ¬ (atoi u < 0 ∨ 32 < atoi u) :=
          not_or.mpr ⟨Int32.not_lt.mpr h₀, Int32.not_lt.mpr h₃₂⟩
        have hhost : s.take 63 = dotted a b c d ++ 47#8 :: u := hsplit
        rw [parseCidr_of_slash hs hhost hslash, scanD_of_digits hd, Option.bind_some, if_neg hno, hip]
        rfl

/-! ### Plain readings -/

namespace Reading

variable {r r' : Reading}

/-- A printed number to 255 is an octet. -/
theorem isOctet_fmtNat {n : ℕ} (h : n ≤ 255) : IsOctet (fmtNat n) := by
  refine ⟨Text.isNumeral_fmtNat n, ?_⟩
  rw [Text.strtoul_fmtNat (by omega), Nat.mod_eq_of_lt (by omega)]
  exact h

/-- A printed number to 32, read back. -/
theorem atoi_fmtNat {n : ℕ} (h : n ≤ 32) : atoi (fmtNat n) = Int32.ofNat n := by
  refine Int32.toInt_inj.mp ?_
  rw [Text.toInt_atoi_fmtNat (by omega), Int32.toInt_ofNat_of_lt (by omega)]

/-- A printed number to 32 is a length. -/
theorem isLength_fmtNat {n : ℕ} (h : n ≤ 32) : IsLength (fmtNat n) := by
  have htoInt : (Int32.ofNat n).toInt = n := Int32.toInt_ofNat_of_lt (by omega)
  rw [IsLength, atoi_fmtNat h, Int32.le_iff_toInt_le, Int32.le_iff_toInt_le, htoInt]
  exact ⟨(Text.isNumeral_fmtNat n).1, Int.natCast_nonneg n, Int.ofNat_le.mpr h⟩

/-- The code takes the plain ones. -/
theorem Plain.taken (h : r.Plain) : r.Taken where
  octets t ht := by
    obtain ⟨n, hn, rfl⟩ := h.octets t ht
    exact isOctet_fmtNat hn
  len u hu := by
    obtain ⟨n, hn, rfl⟩ := h.len u hu
    exact isLength_fmtNat hn

/-- An octet has three digits at most. -/
theorem length_octet {n : ℕ} (h : n ≤ 255) : (fmtNat n).length ≤ 3 :=
  length_fmtNat (by decide) (Nat.lt_of_le_of_lt h (by decide))

/-- A plain text fits into the buffer. -/
theorem Plain.length_le (h : r.Plain) : r.text.length ≤ 18 := by
  obtain ⟨a, b, c, d, len⟩ := r
  obtain ⟨⟨na, ha, ea⟩, ⟨nb, hb, eb⟩, ⟨nc, hc, ec⟩, nd, hd, ed⟩ := forall_four.mp h.octets
  have hlen : (len.elim [] (47#8 :: ·)).length ≤ 3 := by
    cases len with
    | none => exact Nat.zero_le _
    | some u =>
        obtain ⟨n, hn, rfl⟩ := h.len u rfl
        exact Nat.succ_le_succ (length_fmtNat (by decide) (Nat.lt_of_le_of_lt hn (by decide)))
  dsimp only at ea eb ec ed
  subst ea eb ec ed
  have la := length_octet ha
  have lb := length_octet hb
  have lc := length_octet hc
  have ld := length_octet hd
  simp only [text, host, dotted, List.length_append, List.length_cons]
  omega

/-- A text cut at a byte that is not before it. -/
theorem cut_unique {x : Byte} {s s' t t' : List Byte} (h : x ∉ s) (h' : x ∉ s')
    (e : s ++ x :: t = s' ++ x :: t') : s = s' ∧ t = t' := by
  have hcut : ∀ s t : List Byte, x ∉ s → (s ++ x :: t).takeWhile (· != x) = s := fun s t hs => by
    rw [List.takeWhile_append_of_pos (ne_of_notMem hs)]
    simp
  have hs : s = s' := by rw [← hcut s t h, e, hcut s' t' h']
  subst hs
  exact ⟨rfl, (List.cons.inj (List.append_cancel_left e)).2⟩

/-- Four numbers with dots are cut in one way. -/
theorem dotted_unique {a b c d a' b' c' d' : List Byte} (h : ∀ t ∈ [a, b, c, d], IsOctet t)
    (h' : ∀ t ∈ [a', b', c', d'], IsOctet t) (e : dotted a b c d = dotted a' b' c' d') :
    a = a' ∧ b = b' ∧ c = c' ∧ d = d' := by
  obtain ⟨⟨ha, -⟩, ⟨hb, -⟩, ⟨hc, -⟩, -⟩ := forall_four.mp h
  obtain ⟨⟨ha', -⟩, ⟨hb', -⟩, ⟨hc', -⟩, -⟩ := forall_four.mp h'
  obtain ⟨rfl, e₁⟩ := cut_unique (dot_notMem ha) (dot_notMem ha') e
  obtain ⟨rfl, e₂⟩ := cut_unique (dot_notMem hb) (dot_notMem hb') e₁
  obtain ⟨rfl, e₃⟩ := cut_unique (dot_notMem hc) (dot_notMem hc') e₂
  exact ⟨rfl, rfl, rfl, e₃⟩

/-- **A text has one reading.** -/
theorem Taken.unique (h : r.Taken) (h' : r'.Taken) (e : r.text = r'.text) : r = r' := by
  obtain ⟨a, b, c, d, len⟩ := r
  obtain ⟨a', b', c', d', len'⟩ := r'
  have hslash := slash_notMem_dotted h.octets
  have hslash' := slash_notMem_dotted h'.octets
  dsimp only at hslash hslash'
  have hboth : dotted a b c d = dotted a' b' c' d' ∧ len = len' := by
    cases len with
    | none =>
        cases len' with
        | none => exact ⟨List.append_cancel_right e, rfl⟩
        | some u' =>
            have hnone : dotted a b c d = dotted a' b' c' d' ++ 47#8 :: u' :=
              (List.append_nil _).symm.trans e
            rw [hnone] at hslash
            exact absurd (List.mem_append_right _ List.mem_cons_self) hslash
    | some u =>
        cases len' with
        | none =>
            have hnone : dotted a' b' c' d' = dotted a b c d ++ 47#8 :: u :=
              (List.append_nil _).symm.trans e.symm
            rw [hnone] at hslash'
            exact absurd (List.mem_append_right _ List.mem_cons_self) hslash'
        | some u' =>
            obtain ⟨e₁, rfl⟩ := cut_unique hslash hslash' e
            exact ⟨e₁, rfl⟩
  obtain ⟨e₁, rfl⟩ := hboth
  obtain ⟨rfl, rfl, rfl, rfl⟩ := dotted_unique h.octets h'.octets e₁
  rfl

end Reading

/-! ### What a plain text means -/

theorem toNat_joined {a b c d : ℕ} (ha : a ≤ 255) (hb : b ≤ 255) (hc : c ≤ 255) (hd : d ≤ 255) :
    (joined a b c d).toNat = 2 ^ 24 * a + 2 ^ 16 * b + 2 ^ 8 * c + d := by
  have hor : ∀ x y n : ℕ, y < 2 ^ n → x <<< n ||| y = 2 ^ n * x + y := fun x y n hy => by
    rw [← Nat.shiftLeft_add_eq_or_of_lt hy, Nat.shiftLeft_eq, Nat.mul_comm]
  have hshift : ∀ x n : ℕ, x ≤ 255 → n ≤ 24 → (BitVec.ofNat 32 x <<< n).toNat = x <<< n :=
    fun x n hx hn => by
      have hlt : x <<< n < 2 ^ 32 := by
        rw [Nat.shiftLeft_eq]
        calc x * 2 ^ n ≤ 255 * 2 ^ 24 := Nat.mul_le_mul hx (Nat.pow_le_pow_right (by decide) hn)
          _ < 2 ^ 32 := by decide
      rw [BitVec.toNat_shiftLeft, BitVec.toNat_ofNat, Nat.mod_eq_of_lt (Nat.lt_of_le_of_lt hx (by decide)),
        Nat.mod_eq_of_lt hlt]
  have hlow : (BitVec.ofNat 32 d).toNat = d := by
    rw [BitVec.toNat_ofNat, Nat.mod_eq_of_lt (Nat.lt_of_le_of_lt hd (by decide))]
  rw [joined, BitVec.toNat_or, BitVec.toNat_or, BitVec.toNat_or, hshift a 24 ha (by decide),
    hshift b 16 hb (by decide), hshift c 8 hc (by decide), hlow, Nat.or_assoc, Nat.or_assoc,
    hor c d 8 (by omega), hor b _ 16 (by omega), hor a _ 24 (by omega)]
  omega

/-- The mask of a prefix length has that many leading ones, and no other has. -/
theorem leadingOnes_iff {n : ℕ} (h : n ≤ 32) {m : Ip} :
    LeadingOnes n m ↔ maskFromPrefix (Int32.ofNat n) = m := by
  have hall : ∀ n : Fin 33, ∀ i : Fin 32, (maskFromPrefix (Int32.ofNat n)).getMsbD i =
      decide (i.1 < n.1) := by decide +kernel
  have hones : LeadingOnes n (maskFromPrefix (Int32.ofNat n)) := fun i hi =>
    hall ⟨n, Nat.lt_succ_of_le h⟩ ⟨i, hi⟩
  constructor
  · intro hm
    exact BitVec.eq_of_getMsbD_eq fun i hi => (hones i hi).trans (hm i hi).symm
  · rintro rfl
    exact hones

/-- An address of four bytes, as a number and put together. -/
theorem ip_eq_of_toNat {a b c d : ℕ} (ha : a ≤ 255) (hb : b ≤ 255) (hc : c ≤ 255) (hd : d ≤ 255) :
    ip.toNat = 2 ^ 24 * a + 2 ^ 16 * b + 2 ^ 8 * c + d ↔ joined a b c d = ip := by
  rw [← toNat_joined ha hb hc hd, eq_comm]
  exact ⟨BitVec.eq_of_toNat_eq, congrArg _⟩

/-- A printed number to 255, read back. -/
theorem strtoul_octet {n : ℕ} (h : n ≤ 255) : strtoul (fmtNat n) % 2 ^ 32 = n := by
  rw [Text.strtoul_fmtNat (by omega), Nat.mod_eq_of_lt (by omega)]

/-- A plain address, as a reading. -/
theorem isAddress_iff : IsAddress s ip ↔ ∃ a b c d, s = dotted a b c d ∧
    (∀ t ∈ [a, b, c, d], ∃ n ≤ 255, t = fmtNat n) ∧
    joined (strtoul a % 2 ^ 32) (strtoul b % 2 ^ 32) (strtoul c % 2 ^ 32) (strtoul d % 2 ^ 32) =
      ip := by
  constructor
  · rintro ⟨a, b, c, d, ⟨ha, hb, hc, hd⟩, rfl, hip⟩
    refine ⟨_, _, _, _, rfl, forall_four.mpr ⟨⟨a, ha, rfl⟩, ⟨b, hb, rfl⟩, ⟨c, hc, rfl⟩, d, hd, rfl⟩, ?_⟩
    rw [strtoul_octet ha, strtoul_octet hb, strtoul_octet hc, strtoul_octet hd]
    exact (ip_eq_of_toNat ha hb hc hd).mp hip
  · rintro ⟨_, _, _, _, rfl, h, hip⟩
    obtain ⟨⟨a, ha, rfl⟩, ⟨b, hb, rfl⟩, ⟨c, hc, rfl⟩, d, hd, rfl⟩ := forall_four.mp h
    rw [strtoul_octet ha, strtoul_octet hb, strtoul_octet hc, strtoul_octet hd] at hip
    exact ⟨a, b, c, d, ⟨ha, hb, hc, hd⟩, rfl, (ip_eq_of_toNat ha hb hc hd).mpr hip⟩

/-- **The plain texts are the plain readings.** -/
theorem isCidr_iff {x : Ip × Ip} :
    IsCidr s x ↔ ∃ r : Reading, s = r.text ∧ r.Plain ∧ (r.ip, r.mask) = x := by
  constructor
  · rintro (⟨hip, hm⟩ | ⟨host, n, hn, rfl, hip, hm⟩)
    · obtain ⟨a, b, c, d, rfl, hoct, hip⟩ := isAddress_iff.mp hip
      refine ⟨⟨a, b, c, d, none⟩, (List.append_nil _).symm, ⟨hoct, fun _ h => nomatch h⟩, ?_⟩
      exact Prod.ext hip ((leadingOnes_iff (Nat.le_refl 32)).mp hm)
    · obtain ⟨a, b, c, d, rfl, hoct, hip⟩ := isAddress_iff.mp hip
      refine ⟨⟨a, b, c, d, some (fmtNat n)⟩, rfl, ⟨hoct, ?_⟩, ?_⟩
      · rintro _ ⟨⟩
        exact ⟨n, hn, rfl⟩
      · refine Prod.ext hip ?_
        rw [← (leadingOnes_iff hn).mp hm, ← Reading.atoi_fmtNat hn]
        rfl
  · rintro ⟨⟨a, b, c, d, len⟩, rfl, h, rfl⟩
    have hip := isAddress_iff.mpr ⟨a, b, c, d, rfl, h.octets, rfl⟩
    cases len with
    | none =>
        refine .inl ⟨?_, (leadingOnes_iff (Nat.le_refl 32)).mpr rfl⟩
        rw [Reading.text, Reading.host, Option.elim_none, List.append_nil]
        exact hip
    | some u =>
        obtain ⟨n, hn, rfl⟩ := h.len u rfl
        refine .inr ⟨_, n, hn, rfl, hip, (leadingOnes_iff hn).mpr ?_⟩
        rw [← Reading.atoi_fmtNat hn]
        rfl

/-! ### Strictness -/

/-- **A plain text is accepted**, for what it means. -/
theorem parseCidr_of_isCidr (hs : nul ∉ s) {x : Ip × Ip} (h : IsCidr s x) : parseCidr s = some x := by
  obtain ⟨r, rfl, hplain, hx⟩ := isCidr_iff.mp h
  exact (parseCidr_eq_some hs).mpr
    ⟨r, List.take_of_length_le (hplain.length_le.trans (by decide)), hplain.taken, hx⟩

/-- A text that is not loose is taken exactly if it is plain. -/
theorem strict_of_not_loose (hs : nul ∉ s) (h : ¬ Loose s) (x : Ip × Ip) :
    parseCidr s = some x ↔ IsCidr s x := by
  refine ⟨fun hx => ?_, parseCidr_of_isCidr hs⟩
  obtain ⟨r, htext, htaken, hx⟩ := (parseCidr_eq_some hs).mp hx
  have hplain : r.Plain := by
    by_contra hp
    exact h ⟨r, htext, htaken, fun h => absurd h hp⟩
  have hlen : s.length ≤ 63 := by
    by_contra hl
    exact h ⟨r, htext, htaken, fun _ => Nat.lt_of_not_le hl⟩
  rw [List.take_of_length_le hlen] at htext
  exact isCidr_iff.mpr ⟨r, htext, hplain, hx⟩

/-- A plain reading is not loose: its text has no other. -/
theorem Reading.Plain.not_loose {r : Reading} (h : r.Plain) : ¬ Loose r.text := by
  rintro ⟨r', htext, htaken, hlong⟩
  have hlen := h.length_le
  rw [List.take_of_length_le (hlen.trans (by decide))] at htext
  obtain rfl := h.taken.unique htaken htext
  exact absurd (hlong h) (Nat.not_lt.mpr (hlen.trans (by decide)))

/-- A loose text is taken without being plain. -/
theorem not_loose_of_strict (hs : nul ∉ s) (h : ∀ x, parseCidr s = some x ↔ IsCidr s x) :
    ¬ Loose s := by
  rintro ⟨r, htext, htaken, hplain⟩
  have hparse := (parseCidr_eq_some hs).mpr ⟨r, htext, htaken, rfl⟩
  obtain ⟨r', rfl, hplain', -⟩ := isCidr_iff.mp ((h _).mp hparse)
  exact hplain'.not_loose ⟨r, htext, htaken, hplain⟩

/-- A prefix length is printed as a number. -/
theorem fmtInt_length {n : ℕ} (h : n ≤ 32) : fmtInt (Int32.ofNat n).toInt = fmtNat n := by
  rw [Int32.toInt_ofNat_of_lt (by omega), fmtInt, if_neg (by omega), Int.natAbs_natCast]

/-- An address and a length, printed and read back. -/
theorem parseCidr_printed (ip : Ip) {n : ℕ} (h : n ≤ 32) :
    parseCidr (ipToStr ip ++ lit "/" ++ fmtNat n) = some (ip, maskFromPrefix (Int32.ofNat n)) := by
  obtain ⟨-, h₀, h₃₂⟩ := Reading.isLength_fmtNat h
  rw [Reading.atoi_fmtNat h] at h₀ h₃₂
  rw [← fmtInt_length h, parseCidr_slash,
    if_neg (not_or.mpr ⟨Int32.not_lt.mpr h₀, Int32.not_lt.mpr h₃₂⟩)]

/-- **`parse_cidr` is strict** with a text if and only if the text is not loose; and what
`ip_to_str` and the `%d` of a length print reads back. -/
theorem cidr_strict_iff (s : List Byte) (hs : nul ∉ s) :
    ((∀ x, parseCidr s = some x ↔ IsCidr s x) ↔ ¬ Loose s) ∧
      ∀ (ip : Ip) (n : ℕ), n ≤ 32 → ∃ m, LeadingOnes n m ∧
        parseCidr (ipToStr ip ++ lit "/" ++ fmtNat n) = some (ip, m) :=
  ⟨⟨not_loose_of_strict hs, strict_of_not_loose hs⟩, fun ip _ hn =>
    ⟨_, (leadingOnes_iff hn).mpr rfl, parseCidr_printed ip hn⟩⟩

/-- A prefix with something behind the length, which is ignored. -/
theorem loose_mistyped : Loose (lit "10.0.0.1/24abc") := by
  refine ⟨⟨lit "10", lit "0", lit "0", lit "1", some (lit "24abc")⟩, by decide, ⟨?_, ?_⟩, fun hp => ?_⟩
  · exact forall_four.mpr ⟨⟨by decide, by decide⟩, ⟨by decide, by decide⟩, ⟨by decide, by decide⟩,
      by decide, by decide⟩
  · rintro _ ⟨⟩
    exact ⟨by decide, by decide, by decide⟩
  · obtain ⟨n, -, hn⟩ := hp.len _ rfl
    exact absurd hn (Text.ne_fmtNat (c := 97#8) (by decide) (by decide) n)

/-- The prefix of a private network is not loose. -/
theorem not_loose_ten : ¬ Loose (lit "10.0.0.1/24") := by
  let r : Reading := ⟨fmtNat 10, fmtNat 0, fmtNat 0, fmtNat 1, some (fmtNat 24)⟩
  have htext : lit "10.0.0.1/24" = r.text := by decide +kernel
  rw [htext]
  refine Reading.Plain.not_loose ⟨forall_four.mpr ⟨?_, ?_, ?_, ?_⟩, ?_⟩
  · exact ⟨10, by decide, rfl⟩
  · exact ⟨0, by decide, rfl⟩
  · exact ⟨0, by decide, rfl⟩
  · exact ⟨1, by decide, rfl⟩
  · rintro _ ⟨⟩
    exact ⟨24, by decide, rfl⟩

/-- One prefix with which the code is strict, and one with which it is not. -/
theorem cidr_strict_iff_ten :
    (∀ x, parseCidr (lit "10.0.0.1/24") = some x ↔ IsCidr (lit "10.0.0.1/24") x) ∧
      ¬ ∀ x, parseCidr (lit "10.0.0.1/24abc") = some x ↔ IsCidr (lit "10.0.0.1/24abc") x :=
  ⟨(cidr_strict_iff (lit "10.0.0.1/24") (by decide)).1.mpr not_loose_ten,
    fun h => (cidr_strict_iff (lit "10.0.0.1/24abc") (by decide)).1.mp h loose_mistyped⟩

/-- A mistyped prefix is accepted: the `%d` of the length ends at the first byte that is no digit, and
the text behind it is ignored. -/
theorem cidr_mistyped :
    ¬ ∀ x, parseCidr (lit "10.0.0.1/24abc") = some x ↔ IsCidr (lit "10.0.0.1/24abc") x :=
  fun h => not_loose_of_strict (by decide) h loose_mistyped

end LinuxRouter
