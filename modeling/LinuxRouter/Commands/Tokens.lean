import LinuxRouter.Model.Tokens

/-!
# Commands — the words of a line, in place

`tok_split` ends a word by a NUL only when it goes on to the next one.  Once `max` words are found it
returns, and the last of them runs to the end of the string.

* `tokLoop_spec`: what the loop leaves, from a place between two words on.  By induction on the rest
  of the string; what is in front of the place is not touched again.
* `tokSplitInPlace_spec`: the pointers are to the strings of `tokSplit`.  Their number is right, and
  so are all of them but the last (`tokSplitInPlace_init`).
* `tokens_iff`: when all of these are the words.

The loop ends a word by writing a NUL over the byte behind it, and only after it has looked whether
there is room for another.  A round of it therefore has three outcomes, proved apart: nothing but
white bytes is left (`round_end`), a word is found that fills the array and is not ended
(`round_last`), or a word is found and ended (`round_word`), unless the string ends with it.
Between two rounds the state is a place in the buffer in front of which nothing is touched any more,
so that the pointers found so far keep the strings they point to.
-/

namespace LinuxRouter

open Text (isWhite nul words splitWords lit)

variable {buf front rest tail u w : List Byte} {c : Byte} {i n k max : ℕ} {t : Tokens}

/-! ### The inner loops -/

/-- The byte at a place of the buffer. -/
theorem getElem?_of_drop (h : buf.drop i = c :: tail) : buf[i]? = some c := by
  rw [← List.head?_drop, h, List.head?_cons]

/-- A skip goes as far as its bytes go. -/
theorem skipWhile_eq {p : Byte → Bool} (h : buf.drop i = u ++ c :: tail) (hu : ∀ b ∈ u, p b = true)
    (hc : p c = false) (hn : u.length < n) : skipWhile p buf n i = some (i + u.length) := by
  induction u generalizing i n with
  | nil =>
      obtain ⟨n, rfl⟩ := Nat.exists_eq_succ_of_ne_zero (Nat.ne_of_gt hn)
      simp [skipWhile, getElem?_of_drop h, hc]
  | cons b u ih =>
      obtain ⟨n, rfl⟩ := Nat.exists_eq_succ_of_ne_zero (Nat.ne_of_gt (Nat.zero_lt_of_lt hn))
      have hdrop : buf.drop (i + 1) = u ++ c :: tail := by
        rw [← List.drop_drop, h, List.cons_append, List.drop_one, List.tail_cons]
      have hrest := ih hdrop (fun b hb => hu b (List.mem_cons_of_mem _ hb)) (Nat.lt_of_succ_lt_succ hn)
      rw [skipWhile, getElem?_of_drop h]
      simp only [Option.bind_eq_bind, Option.bind_some, hu b List.mem_cons_self, if_true, hrest,
        List.length_cons]
      congr 1
      omega

/-- The loop stops at the first byte that is no member, which is there: the string ends. -/
theorem skip_eq {p : Byte → Bool} (h : buf = front ++ (u ++ c :: tail)) (hu : ∀ b ∈ u, p b = true)
    (hc : p c = false) :
    skipWhile p buf (buf.length + 1) front.length = some (front.length + u.length) ∧
      buf[front.length + u.length]? = some c := by
  subst h
  have hdrop : (front ++ (u ++ c :: tail)).drop (front.length + u.length) = c :: tail := by
    rw [← List.length_append, ← List.append_assoc, List.drop_left]
  exact ⟨skipWhile_eq List.drop_left hu hc (by simp; omega), getElem?_of_drop hdrop⟩

/-! ### A round -/

/-- The first byte of what is left. -/
theorem getElem?_front (h : buf = front ++ c :: tail) : buf[front.length]? = some c := by
  have hdrop : buf.drop front.length = c :: tail := by rw [h, List.drop_left]
  exact getElem?_of_drop hdrop

/-- The byte that a round starts at is a NUL only at the end of the string. -/
theorem exists_first (hu : ∀ b ∈ u, isWhite b = true) (hc : c ≠ nul) (tail : List Byte) :
    ∃ b x, u ++ c :: tail = b :: x ∧ b ≠ nul := by
  cases u with
  | nil => exact ⟨c, tail, rfl, hc⟩
  | cons b u =>
      refine ⟨b, u ++ c :: tail, rfl, fun e => ?_⟩
      have := hu b List.mem_cons_self
      rw [e] at this
      cases this

/-- Nothing but white bytes is left. -/
theorem round_end (h : t.buf = front ++ (u ++ nul :: tail)) (hu : ∀ b ∈ u, isWhite b = true) :
    tokLoop max (k + 1) front.length t = some t := by
  obtain ⟨hskip, hend⟩ := skip_eq (p := isWhite) h hu (by decide)
  rw [tokLoop]
  cases hb : t.buf[front.length]? with
  | none => simp [skipWhile, hb] at hskip
  | some b => simp [skipWhite, hskip, hend]

variable (hu : ∀ b ∈ u, isWhite b = true) (hc : isWhite c = false) (hz : c ≠ nul)
include hu hc hz

/-- A word, the last one that there is room for. -/
theorem round_last (h : t.buf = front ++ (u ++ c :: tail)) (hmax : max ≤ t.n + 1) :
    tokLoop max (k + 1) front.length t = some (t.push (front.length + u.length)) := by
  obtain ⟨hskip, hat⟩ := skip_eq h hu hc
  obtain ⟨b, x, hbx, hb⟩ := exists_first hu hz tail
  simp [tokLoop, getElem?_front (hbx ▸ h), hb, skipWhite, hskip, hat, hz, Tokens.push, hmax]

/-- Another word: it is ended, unless the string ends with it. -/
theorem round_word {e : Byte} (h : t.buf = front ++ (u ++ (c :: w ++ e :: tail)))
    (hw : ∀ b ∈ c :: w, (b != nul && !isWhite b) = true) (he : (e != nul && !isWhite e) = false)
    (hmax : t.n + 1 < max) :
    tokLoop max (k + 1) front.length t =
      if e = nul then
        tokLoop max k (front ++ u ++ c :: w).length (t.push (front.length + u.length))
      else
        tokLoop max k (front ++ u ++ c :: w ++ [nul]).length
          { t.push (front.length + u.length) with buf := front ++ u ++ c :: w ++ nul :: tail } := by
  obtain ⟨hskip, hat⟩ := skip_eq h hu hc
  obtain ⟨b, x, hbx, hb⟩ := exists_first hu hz (w ++ e :: tail)
  have h' : t.buf = (front ++ u) ++ (c :: w ++ e :: tail) := by rw [h, List.append_assoc]
  obtain ⟨hword, hafter⟩ := skip_eq h' hw he
  have hset : t.buf.set (front ++ u ++ c :: w).length nul = front ++ u ++ c :: w ++ nul :: tail := by
    rw [h', ← List.append_assoc, List.set_append_right _ _ le_rfl, Nat.sub_self, List.set_cons_zero]
  have hskip₂ : skipWord t.buf (front.length + u.length) = some (front ++ u ++ c :: w).length := by
    rw [skipWord, ← List.length_append, hword, @List.length_append _ (front ++ u)]
  rw [← List.length_append] at hafter
  have hn : ¬ max ≤ t.n + 1 := Nat.not_le.mpr hmax
  rw [tokLoop, getElem?_front (hbx ▸ h)]
  simp only [Option.bind_eq_bind, Option.bind_some, hb, if_false, skipWhite, hskip, hat, hz, Tokens.push,
    hn, hskip₂, hafter]
  rw [ite_not, hset, @List.length_append _ _ [nul], List.length_singleton]

omit hu hc hz

/-! ### The loop -/

/-- The pointers from `n` on are to the strings `ws`. -/
def PointTo (t : Tokens) (n : ℕ) (ws : List (List Byte)) : Prop :=
  t.n = n + ws.length ∧ ∀ j w, ws[j]? = some w → ∃ p, t.argv (n + j) = some p ∧ StringAt t.buf p w

/-- What the loop leaves: in front of its start nothing has changed. -/
structure TokLoop (max : ℕ) (front rest : List Byte) (t t' : Tokens) : Prop where
  front : front <+: t'.buf
  argv : ∀ j < t.n, t'.argv j = t.argv j
  points : PointTo t' t.n (splitWords (max - t.n) rest)

theorem pointTo_nil (t : Tokens) : PointTo t t.n [] := ⟨rfl, fun _ _ h => nomatch h⟩

/-- A word found at `p`, and those that the rest of the loop finds. -/
theorem pointTo_cons {t' : Tokens} {p : ℕ} {ws : List (List Byte)} (hp : t'.argv n = some p)
    (hw : StringAt t'.buf p w) (h : PointTo t' (n + 1) ws) : PointTo t' n (w :: ws) := by
  refine ⟨h.1.trans (by rw [List.length_cons]; omega), fun j v hj => ?_⟩
  cases j with
  | zero =>
      obtain rfl := Option.some.inj hj
      exact ⟨p, hp, hw⟩
  | succ j =>
      rw [← Nat.add_assoc, Nat.add_right_comm]
      exact h.2 j v hj

/-- The loop stops and leaves everything as it is. -/
theorem TokLoop.stop {t' : Tokens} (hbuf : t.buf = front ++ tail) (hrest : splitWords (max - t.n) rest = [])
    (h : t' = t) : TokLoop max front rest t t' := by
  subst h
  refine ⟨hbuf ▸ List.prefix_append _ _, fun _ _ => rfl, ?_⟩
  rw [hrest]
  exact pointTo_nil t'

/-- **The loop**, between two words. -/
theorem tokLoop_spec (hbuf : t.buf = front ++ (rest ++ nul :: tail)) (hz : nul ∉ rest)
    (hk : rest.length < k) (hn : t.n < max) :
    ∃ t', tokLoop max k front.length t = some t' ∧ TokLoop max front rest t t' := by
  induction k generalizing front rest t with
  | zero => exact absurd hk (Nat.not_lt_zero _)
  | succ k ih =>
      obtain ⟨m, hm⟩ : ∃ m, max - t.n = m + 1 := ⟨max - t.n - 1, by omega⟩
      cases Text.split rest with
      | white hu => exact ⟨t, round_end hbuf hu, .stop hbuf (Text.splitWords_white hu _) rfl⟩
      | @word u c w v hu hw hv =>
          have hc := hw c List.mem_cons_self
          have hcz : c ≠ nul := fun e => hz (by simp [e])
          rw [List.append_assoc, List.append_assoc] at hbuf
          have hpush : ∀ j < t.n, (t.push (front.length + u.length)).argv j = t.argv j := fun j hj =>
            Function.update_of_ne (Nat.ne_of_lt hj) _ _
          by_cases hmax : max ≤ t.n + 1
          · -- the last word there is room for goes on to the end of the string
            obtain rfl : m = 0 := by omega
            refine ⟨_, round_last hu hc hcz hbuf hmax, hbuf ▸ List.prefix_append _ _, hpush, ?_⟩
            rw [hm, Text.splitWords_word hu hw hv, if_pos rfl]
            refine pointTo_cons (Function.update_self ..) ⟨?_, tail, ?_⟩ (pointTo_nil (t.push _))
            · exact fun hmem => hz (List.mem_append_right _ hmem)
            · change t.buf.drop _ = _
              rw [hbuf, ← List.length_append, ← List.append_assoc, List.drop_left, List.append_assoc]
          · have hword : ∀ b ∈ c :: w, (b != nul && !isWhite b) = true := fun b hb => by
              have hne : b ≠ nul := fun e => hz (e ▸ List.mem_append_right _ (List.mem_append_left _ hb))
              simp [hne, hw b hb]
            have hstring : ∀ {t' : Tokens} (x : List Byte), t'.buf = front ++ u ++ c :: w ++ nul :: x →
                StringAt t'.buf (front.length + u.length) (c :: w) := by
              intro t' x hx
              refine ⟨fun hmem => hz (List.mem_append_right _ (List.mem_append_left _ hmem)), x, ?_⟩
              rw [hx, List.append_assoc, ← List.length_append, List.drop_left]
            cases v with
            | nil =>
                -- the string ends with the word, and so does the loop
                obtain ⟨k, rfl⟩ : ∃ k', k = k' + 1 := ⟨k - 1, by simp at hk; omega⟩
                rw [List.nil_append] at hbuf
                refine ⟨t.push (front.length + u.length), ?_, hbuf ▸ List.prefix_append _ _, hpush, ?_⟩
                · have hrest : (t.push (front.length + u.length)).buf =
                      (front ++ u ++ c :: w) ++ ([] ++ nul :: tail) := by
                    rw [List.nil_append, Tokens.push, hbuf, List.append_assoc, List.append_assoc]
                  rw [round_word hu hc hcz hbuf hword (by decide) (Nat.lt_of_not_le hmax), if_pos rfl]
                  exact round_end hrest fun _ h => nomatch h
                · rw [hm, Text.splitWords_word hu hw hv, if_neg (by omega), Text.splitWords_white (by simp)]
                  refine pointTo_cons (Function.update_self ..) (hstring tail ?_) (pointTo_nil (t.push _))
                  rw [Tokens.push, hbuf, List.append_assoc, List.append_assoc]
            | cons e v =>
                have hwhite : isWhite e = true := hv e rfl
                have hne : e ≠ nul := by
                  rintro rfl
                  cases hwhite
                have hend : (e != nul && !isWhite e) = false := by simp [hwhite]
                have hround : tokLoop max (k + 1) front.length t = tokLoop max k _ _ :=
                  (round_word hu hc hcz hbuf hword hend (Nat.lt_of_not_le hmax)).trans (if_neg hne)
                have hv₀ : nul ∉ v := fun hmem => hz (by simp [hmem])
                have hrest : ({ t.push (front.length + u.length) with
                      buf := front ++ u ++ c :: w ++ nul :: (v ++ nul :: tail) } : Tokens).buf =
                    (front ++ u ++ c :: w ++ [nul]) ++ (v ++ nul :: tail) := by simp
                obtain ⟨t', ht', hl⟩ := ih hrest hv₀ (by simp at hk; omega) (Nat.lt_of_not_le hmax)
                obtain ⟨x, hx⟩ := hl.front
                have hx' : t'.buf = front ++ u ++ c :: w ++ nul :: x := by rw [← hx]; simp
                refine ⟨t', hround.trans ht', ?_, fun j hj => ?_, ?_⟩
                · rw [hx', List.append_assoc, List.append_assoc]
                  exact List.prefix_append _ _
                · exact (hl.argv j (Nat.lt_succ_of_lt hj)).trans (hpush j hj)
                · -- the word's pointer is not written again
                  have hat : t'.argv t.n = some (front.length + u.length) :=
                    (hl.argv t.n (Nat.lt_succ_self _)).trans (Function.update_self ..)
                  have hpoints : PointTo t' (t.n + 1) (splitWords m v) := by
                    have := hl.points
                    rwa [show max - (t.push (front.length + u.length)).n = m by
                      change max - (t.n + 1) = m; omega] at this
                  rw [hm, Text.splitWords_word hu hw hv, if_neg (by omega), Text.splitWords_cons_white hwhite]
                  exact pointTo_cons hat (hstring x hx') hpoints

/-! ### The words -/

/-- A pointer to a string is a pointer to no other. -/
theorem StringAt.unique {p : ℕ} {w' : List Byte} (h : StringAt buf p w) (h' : StringAt buf p w') :
    w = w' := by
  obtain ⟨hw, x, hx⟩ := h
  obtain ⟨hw', x', hx'⟩ := h'
  rw [← Text.cstr_append_nul hw x, ← hx, hx', Text.cstr_append_nul hw' x']

/-- Pointers are to one list of strings. -/
theorem PointTo.unique {ws ws' : List (List Byte)} (h : PointTo t n ws) (h' : PointTo t n ws') :
    ws = ws' := by
  have hlen : ws.length = ws'.length := Nat.add_left_cancel (h.1.symm.trans h'.1)
  refine List.ext_getElem hlen fun j hj hj' => ?_
  obtain ⟨p, hp, hw⟩ := h.2 j ws[j] (List.getElem?_eq_getElem hj)
  obtain ⟨p', hp', hw'⟩ := h'.2 j ws'[j] (List.getElem?_eq_getElem hj')
  obtain rfl := Option.some.inj (hp.symm.trans hp')
  exact hw.unique hw'

/-- Every pointer is to the word of its number, and no word is left out but for want of room. -/
def PointsToWords (t : Tokens) (max : ℕ) (ws : List (List Byte)) : Prop :=
  t.n = min ws.length max ∧
    ∀ i < t.n, ∃ p w, t.argv i = some p ∧ ws[i]? = some w ∧ StringAt t.buf p w

/-- The pointers are to the words, as many as there is room for. -/
theorem pointsToWords_iff {ws : List (List Byte)} :
    PointsToWords t max ws ↔ PointTo t 0 (ws.take max) := by
  have hlen : 0 + (ws.take max).length = min ws.length max := by
    rw [Nat.zero_add, List.length_take, Nat.min_comm]
  rw [PointsToWords, PointTo, hlen]
  refine and_congr_right fun hn => ⟨fun h j w hj => ?_, fun h i hi => ?_⟩
  · obtain ⟨hj', hget⟩ := List.getElem?_eq_some_iff.mp hj
    rw [List.getElem?_take_of_lt (by simp at hj'; omega)] at hj
    obtain ⟨p, w', hp, hw', hs⟩ := h j (by simp at hj'; omega)
    obtain rfl := Option.some.inj (hj.symm.trans hw')
    exact ⟨p, (Nat.zero_add j).symm ▸ hp, hs⟩
  · have hi' : i < ws.length := by omega
    have hget : (ws.take max)[i]? = some ws[i] := by
      rw [List.getElem?_take_of_lt (by omega), List.getElem?_eq_getElem hi']
    obtain ⟨p, hp, hs⟩ := h i ws[i] hget
    exact ⟨p, ws[i], Nat.zero_add i ▸ hp, List.getElem?_eq_getElem hi', hs⟩

variable {s : List Byte} (argv : ℕ → Option ℕ)

/-- **`tok_split`** points to the strings of `tokSplit`, and ends the array if there is room. -/
theorem tokSplitInPlace_spec (hz : nul ∉ s) (tail : List Byte) (hmax : 1 ≤ max) :
    ∃ t, tokSplitInPlace (s ++ nul :: tail) argv max = some t ∧ PointTo t 0 (tokSplit s max) ∧
      (t.n < max → t.argv t.n = none) := by
  have hbuf : ({ buf := s ++ nul :: tail, argv, n := 0 } : Tokens).buf = [] ++ (s ++ nul :: tail) := rfl
  obtain ⟨t, ht, hl⟩ := tokLoop_spec hbuf hz (k := (s ++ nul :: tail).length + 1) (by rw [List.length_append]; omega) hmax
  have hrun : tokLoop max ((s ++ nul :: tail).length + 1) 0 _ = some t := ht
  have hpoints : PointTo t 0 (tokSplit s max) := hl.points
  rw [tokSplitInPlace, hrun]
  simp only [Option.bind_eq_bind, Option.bind_some]
  split
  · -- the terminator is written behind the pointers
    refine ⟨_, rfl, ⟨hpoints.1, fun j w hj => ?_⟩, fun _ => Function.update_self ..⟩
    obtain ⟨p, hp, hs⟩ := hpoints.2 j w hj
    have hlt := (List.getElem?_eq_some_iff.mp hj).1
    have hne : 0 + j ≠ t.n := by
      rw [hpoints.1]
      omega
    exact ⟨p, (Function.update_of_ne hne _ _).trans hp, hs⟩
  · rename_i hfull
    exact ⟨t, rfl, hpoints, fun h => absurd h hfull⟩

/-- Their number is right, and so is every pointer but the last one that there is room for. -/
theorem tokSplitInPlace_init (hz : nul ∉ s) (tail : List Byte) (hmax : 1 ≤ max) :
    ∃ t, tokSplitInPlace (s ++ nul :: tail) argv max = some t ∧ t.n = min (words s).length max ∧
      ∀ i < t.n, i + 1 < max → ∃ p w, t.argv i = some p ∧ (words s)[i]? = some w ∧ StringAt t.buf p w := by
  obtain ⟨t, ht, ⟨hn, hp⟩, -⟩ := tokSplitInPlace_spec argv hz tail hmax
  obtain ⟨m, rfl⟩ := Nat.exists_eq_succ_of_ne_zero (Nat.ne_of_gt hmax)
  rw [Nat.zero_add, tokSplit, Text.length_splitWords, Nat.min_comm] at hn
  refine ⟨t, ht, hn, fun i hi him => ?_⟩
  have hlt : i < (words s).length := by omega
  have hget : (tokSplit s (m + 1))[i]? = some (words s)[i] := by
    have htake := congrArg (fun ws : List (List Byte) => ws[i]?) (Text.take_splitWords m s)
    simp only [List.getElem?_take_of_lt (Nat.lt_of_succ_lt_succ him)] at htake
    exact htake.trans (List.getElem?_eq_getElem hlt)
  obtain ⟨p, hp, hs⟩ := hp i _ hget
  exact ⟨p, _, Nat.zero_add i ▸ hp, List.getElem?_eq_getElem hlt, hs⟩

/-- When the pointers are to the words: when no word is the last one that there is room for, or that
word ends the string. -/
theorem tokens_words (hz : nul ∉ s) (tail : List Byte) (hmax : 1 ≤ max) :
    (∃ t, tokSplitInPlace (s ++ nul :: tail) argv max = some t ∧ PointsToWords t max (words s)) ↔
      splitWords max s = (words s).take max := by
  obtain ⟨t, ht, hp, -⟩ := tokSplitInPlace_spec argv hz tail hmax
  constructor
  · rintro ⟨t', ht', hw⟩
    obtain rfl := Option.some.inj (ht.symm.trans ht')
    exact hp.unique (pointsToWords_iff.mp hw)
  · intro h
    exact ⟨t, ht, pointsToWords_iff.mpr (h ▸ hp)⟩

omit argv in
/-- **The pointers are to the words exactly if** there are fewer of them than there is room for, or
as many and no white byte behind the last one. -/
theorem tokens_iff (s tail : List Byte) (argv : ℕ → Option ℕ) (max : ℕ) (hz : nul ∉ s)
    (hmax : 1 ≤ max) :
    (∃ t, tokSplitInPlace (s ++ nul :: tail) argv max = some t ∧ PointsToWords t max (words s)) ↔
      (words s).length < max ∨ (words s).length = max ∧ ∀ b ∈ s.getLast?, isWhite b = false :=
  (tokens_words argv hz tail hmax).trans (Text.splitWords_eq_iff hmax s)

/-- Three words, and room for them. -/
theorem tokens_iff_three :
    ∃ t, tokSplitInPlace (lit "setip eth0  10.0.0.1/24" ++ [nul]) (fun _ => none) 3 = some t ∧
      PointsToWords t 3 (words (lit "setip eth0  10.0.0.1/24")) :=
  (tokens_iff (lit "setip eth0  10.0.0.1/24") [] (fun _ => none) 3 (by decide +kernel) (by decide)).mpr
    (.inr (by decide +kernel))

/-- A rule's line with sixteen words and a blank behind them: the splitter leaves its loop when the
array is full, before it has ended the last word, so that the last pointer is to no word. -/
theorem tokens_sixteen : ¬ ∀ (s tail : List Byte) (argv : ℕ → Option ℕ) (max : ℕ), nul ∉ s → 1 ≤ max →
    ∃ t, tokSplitInPlace (s ++ nul :: tail) argv max = some t ∧ PointsToWords t max (words s) := by
  intro h
  have := h (lit "drop ip any any proto tcp sport 1 dport 2 sport 1 dport 2 keyword a ") [] (fun _ => none)
    16 (by decide +kernel) (by decide)
  rw [tokens_words _ (by decide +kernel) _ (by decide)] at this
  revert this
  decide +kernel

end LinuxRouter
