import LinuxRouter.Model.Buffers

/-!
# Threads — the rotating buffers

Eight buffers are enough as long as nobody takes a number while the eighth before it is in use.

* `buffering` is the discipline: different numbers in use pick different buffers, and a thread writes
  to the buffers of its own numbers only.
* `Stored`: the text of an address is in the buffer of a number.  `buf_ok` and `strings_ok` are the
  two functions.
* `buffers_own`: in every such run, what is printed is the text of the addresses it was asked for.

A call of `ipbuf` or `macbuf` takes the next number of the shared counter and writes to the buffer
of that number modulo 8; the caller prints it later.  Between the two, other threads may take
numbers too.  `InUse` keeps, for every thread, the numbers it has taken and not yet printed; as long
as all of them are among the last eight, two of them never pick one buffer (`eq_of_mod`), and what a
thread relies on, the bytes of its own buffers, is left alone by the others.  The judgment of the
discipline then goes through the two functions statement by statement.
-/

namespace LinuxRouter

open Text (nul lit)
open Program (Prog Reach Discipline Config)

variable {α : Type} {F : Format α} {s s' : Bufs} {ks : List ℕ} {k i j : ℕ} {t : ℕ}

/-! ### Numbers and buffers -/

/-- The counter is an `int` and may have wrapped. -/
theorem mask_ofNat (n : ℕ) : ((Int32.ofNat n &&& 7).toBitVec).toNat = n % bufCount := by
  have h7 : (7 : Int32).toBitVec.toNat = 2 ^ 3 - 1 := by decide
  have h8 : bufCount ∣ 2 ^ 32 := by decide
  rw [Int32.toBitVec_and, BitVec.toNat_and, h7, Nat.and_two_pow_sub_one_eq_mod, Int32.toBitVec_ofNat',
    BitVec.toNat_ofNat]
  exact Nat.mod_mod_of_dvd n h8

/-- Two numbers that are both among the last eight pick different buffers. -/
theorem eq_of_mod {k k' n : ℕ} (h : k < n) (h' : k' < n) (hw : n ≤ k + bufCount)
    (hw' : n ≤ k' + bufCount) (e : k % bufCount = k' % bufCount) : k = k' := by
  unfold bufCount at *
  omega

/-- The byte `j` of the buffer `i`. -/
def Format.at (F : Format α) (i j : ℕ) : ℕ := i * F.size + j

/-- Different buffers do not overlap. -/
theorem Format.at_ne {i' j' : ℕ} (hj : j < F.size) (hj' : j' < F.size) (h : i ≠ i') :
    F.at i j ≠ F.at i' j' := by
  intro e
  have hdiv : ∀ {i j}, j < F.size → F.at i j / F.size = i := fun {i j} hj => by
    rw [Format.at, Nat.mul_comm, Nat.mul_add_div (Nat.zero_lt_of_lt hj), Nat.div_eq_of_lt hj,
      Nat.add_zero]
  exact h ((hdiv hj).symm.trans ((congrArg (· / F.size) e).trans (hdiv hj')))

/-- The buffers of the numbers are the same. -/
def Format.Same (F : Format α) (ks : List ℕ) (s s' : Bufs) : Prop :=
  ∀ k ∈ ks, ∀ j < F.size, s'.mem (F.at (k % bufCount) j) = s.mem (F.at (k % bufCount) j)

/-- The numbers in use are those of the threads, and among the last eight. -/
structure InUse (s : Bufs) (g : ℕ → List ℕ) : Prop where
  idx : s.idx = Int32.ofNat s.taken
  used : ∀ k, k ∈ s.used ↔ ∃ t, k ∈ g t
  window : ∀ k ∈ s.used, k < s.taken ∧ s.taken ≤ k + bufCount
  one : ∀ t t' k, k ∈ g t → k ∈ g t' → t = t'

/-- Of two numbers in use that pick one buffer, both are one number of one thread. -/
theorem InUse.eq {g : ℕ → List ℕ} (h : InUse s g) {t' k' : ℕ} (hk : k ∈ g t) (hk' : k' ∈ g t')
    (e : k % bufCount = k' % bufCount) : t = t' ∧ k = k' := by
  obtain ⟨hl, hw⟩ := h.window k ((h.used k).mpr ⟨t, hk⟩)
  obtain ⟨hl', hw'⟩ := h.window k' ((h.used k').mpr ⟨t', hk'⟩)
  obtain rfl := eq_of_mod hl hl' hw hw' e
  exact ⟨h.one t t' k hk hk', rfl⟩

/-- What a thread ensures before a command. -/
def Format.Own (F : Format α) : ∀ ⦃β : Type⦄, BufCmd α β → List ℕ → Prop
  | _, .put a _, ks => ∃ k ∈ ks, ∃ j < F.size, a = F.at (k % bufCount) j
  | _, .printed is xs texts, ks => is = ks.map (· % bufCount) ∧ texts = xs.map F.text
  | _, _, _ => True

/-- A command keeps the numbers in use apart, if it takes its number in time. -/
theorem InUse.exec {g : ℕ → List ℕ} {β : Type} {c : BufCmd α β} {e : List α} (h : InUse s g)
    (hc : F.Own c (g t)) (hok : inTime t c e s) :
    InUse (execBuf c e s).2 (Function.update g t (F.bufs.hold c s (execBuf c e s).1 (g t))) := by
  -- commands that take no number and give none back
  have hkeep : ∀ {s'}, s'.idx = s.idx → s'.taken = s.taken → s'.used = s.used →
      InUse s' (Function.update g t (g t)) := by
    intro s' hi ht hu
    rw [Function.update_eq_self]
    exact ⟨by rw [hi, ht]; exact h.idx, by rw [hu]; exact h.used, by rw [hu, ht]; exact h.window, h.one⟩
  cases c with
  | take =>
      have hnew : ∀ t', s.taken ∉ g t' := fun t' hm =>
        absurd (h.window _ ((h.used _).mpr ⟨t', hm⟩)).1 (lt_irrefl _)
      have hmem : ∀ t' k, k ∈ Function.update g t (g t ++ [s.taken]) t' ↔
          k ∈ g t' ∨ t' = t ∧ k = s.taken := by
        intro t' k
        by_cases e : t' = t
        · subst e
          simp
        · simp [e]
      refine ⟨?_, fun k => ?_, fun k hk => ?_, fun t₁ t₂ k h₁ h₂ => ?_⟩
      · change s.idx + 1 = Int32.ofNat (s.taken + 1)
        rw [Int32.ofNat_add, h.idx]
        rfl
      · change k ∈ s.taken :: s.used ↔ ∃ t', k ∈ Function.update g t (g t ++ [s.taken]) t'
        simp only [hmem, List.mem_cons, h.used]
        constructor
        · rintro (rfl | ⟨t', hk⟩)
          · exact ⟨t, .inr ⟨rfl, rfl⟩⟩
          · exact ⟨t', .inl hk⟩
        · rintro ⟨t', hk | ⟨-, hk⟩⟩
          · exact .inr ⟨t', hk⟩
          · exact .inl hk
      · change k < s.taken + 1 ∧ s.taken + 1 ≤ k + bufCount
        rcases List.mem_cons.mp hk with rfl | hk
        · exact ⟨Nat.lt_succ_self _, by unfold bufCount; omega⟩
        · obtain ⟨hl, hw⟩ := h.window k hk
          have hne : s.taken ≠ k + bufCount := hok k hk
          omega
      · rcases (hmem t₁ k).mp h₁ with m₁ | ⟨e₁, rfl⟩
        · rcases (hmem t₂ k).mp h₂ with m₂ | ⟨-, rfl⟩
          · exact h.one t₁ t₂ k m₁ m₂
          · exact absurd m₁ (hnew t₁)
        · rcases (hmem t₂ _).mp h₂ with m₂ | ⟨e₂, -⟩
          · exact absurd m₂ (hnew t₂)
          · exact e₁.trans e₂.symm
  | printed is xs texts =>
      obtain ⟨rfl, -⟩ := hc
      have hmem : ∀ t' k, k ∈ Function.update g t [] t' ↔ t' ≠ t ∧ k ∈ g t' := by
        intro t' k
        by_cases e : t' = t
        · subst e
          simp
        · simp [e]
      have hused : ∀ k, k ∈ s.used.filter (fun k => k % bufCount ∉ (g t).map (· % bufCount)) ↔
          ∃ t', t' ≠ t ∧ k ∈ g t' := by
        intro k
        rw [List.mem_filter, h.used, decide_eq_true_eq]
        constructor
        · rintro ⟨⟨t', hk⟩, hno⟩
          refine ⟨t', ?_, hk⟩
          rintro rfl
          exact hno (List.mem_map_of_mem hk)
        · rintro ⟨t', hne, hk⟩
          refine ⟨⟨t', hk⟩, fun hm => ?_⟩
          obtain ⟨k', hk', e⟩ := List.mem_map.mp hm
          exact hne (h.eq hk hk' e.symm).1
      refine ⟨h.idx, fun k => ?_, fun k hk => ?_, fun t₁ t₂ k h₁ h₂ => ?_⟩
      · exact (hused k).trans (exists_congr fun t' => (hmem t' k).symm)
      · exact h.window k (List.mem_of_mem_filter hk)
      · exact h.one t₁ t₂ k ((hmem t₁ k).mp h₁).2 ((hmem t₂ k).mp h₂).2
  | next => exact hkeep rfl rfl rfl
  | put a b => exact hkeep rfl rfl rfl
  | get a => exact hkeep rfl rfl rfl

/-- A thread's own numbers are among the last eight. -/
def Recent (ks : List ℕ) (s : Bufs) : Prop :=
  s.idx = Int32.ofNat s.taken ∧
    ∀ k ∈ ks, k ∈ s.used ∧ k < s.taken ∧ s.taken ≤ k + bufCount

/-- What a thread may take from it about its own numbers. -/
theorem InUse.recent {g : ℕ → List ℕ} (h : InUse s g) (t : ℕ) : Recent (g t) s :=
  ⟨h.idx, fun k hk =>
    have hu := (h.used k).mpr ⟨t, hk⟩
    ⟨hu, h.window k hu⟩⟩

variable (F) in
/-- **The discipline.**  A thread relies on the buffers of its own numbers. -/
def buffering : Discipline F.bufs inTime where
  inv := InUse
  fact := Recent
  pre _ _ c ks _ := F.Own c ks
  rely := F.Same
  rely_refl _ _ _ _ _ _ := rfl
  rely_trans h h' k hk j hj := (h' k hk j hj).trans (h k hk j hj)
  fact_of_inv t h := h.recent t
  exec_inv _ _ _ _ h hc hok := h.exec hc hok
  exec_rely t β c e h hc _ t' hne k hk j hj := by
    cases c with
    | put a b =>
        obtain ⟨k', hk', j', hj', rfl⟩ := hc
        refine Function.update_of_ne (F.at_ne hj hj' fun e => hne ?_) ..
        exact (h.eq hk hk' e).1
    | _ => rfl
  admin_inv _ h := h.elim
  admin_rely _ _ h := h.elim

/-! ### The functions -/

/-- The bytes are in the buffer of the number, from its start. -/
def Format.Laid (F : Format α) (s : Bufs) (k : ℕ) (bs : List Byte) : Prop :=
  ∀ (j : ℕ) (h : j < bs.length), s.mem (F.at (k % bufCount) j) = bs[j]

/-- The text of an address is in the buffer of the number. -/
def Format.Stored (F : Format α) (s : Bufs) (k : ℕ) (x : α) : Prop := F.Laid s k (F.text x ++ [nul])

/-- A text with its end fits into a buffer. -/
theorem Format.length_text (F : Format α) (x : α) : (F.text x ++ [nul]).length ≤ F.size := by
  rw [List.length_append, List.length_singleton]
  exact Nat.succ_le_succ (F.brief x).le

/-- Bytes stay where the buffer does. -/
theorem Format.Laid.same {bs : List Byte} (h : F.Laid s k bs) (hk : k ∈ ks) (hs : F.Same ks s s')
    (hl : bs.length ≤ F.size) : F.Laid s' k bs :=
  fun j hj => (hs k hk j (hj.trans_le hl)).trans (h j hj)

/-- What is stored for the first numbers of a thread. -/
abbrev Format.StoredAll (F : Format α) (s : Bufs) (ks : List ℕ) (xs : List α) : Prop :=
  List.Forall₂ (F.Stored s) ks xs

/-- Texts stay where the buffers do. -/
theorem Format.StoredAll.same {xs : List α} (h : F.StoredAll s ks xs) {l : List ℕ}
    (hsub : ∀ k ∈ ks, k ∈ l) (hs : F.Same l s s') : F.StoredAll s' ks xs := by
  induction h with
  | nil => exact .nil
  | @cons k x ks xs hx _ ih =>
      refine .cons (Laid.same hx (hsub k List.mem_cons_self) hs (F.length_text x)) ?_
      exact ih fun k hk => hsub k (List.mem_cons_of_mem _ hk)

/-- **The writes** of a thread to the buffer of its last number. -/
theorem putAll_ok {xs : List α} (hsep : ∀ k' ∈ ks, k' % bufCount ≠ k % bufCount) (bs front : List Byte)
    (hl : (front ++ bs).length ≤ F.size) (hx : F.StoredAll s ks xs) (hf : F.Laid s k front) :
    (buffering F).Ok t (fun _ g s => g = ks ++ [k] ∧ F.StoredAll s ks xs ∧ F.Laid s k (front ++ bs))
      (putAll (F.at (k % bufCount) front.length) bs) (ks ++ [k]) s := by
  have hmem : k ∈ ks ++ [k] := List.mem_append_right _ (List.mem_singleton_self k)
  induction bs generalizing s front with
  | nil =>
      intro s' hs _
      rw [List.append_nil] at hl ⊢
      exact ⟨rfl, hx.same (fun _ hk => List.mem_append_left _ hk) hs, hf.same hmem hs hl⟩
  | cons b bs ih =>
      intro s' hs _
      have hlt : front.length < F.size := by
        rw [List.length_append, List.length_cons] at hl
        omega
      refine ⟨⟨k, hmem, front.length, hlt, rfl⟩, fun e _ => ?_⟩
      have hx' := hx.same (l := ks ++ [k]) (fun _ hk => List.mem_append_left _ hk) hs
      have hf' := hf.same hmem hs (by omega)
      have hne : ∀ {k' j}, k' ∈ ks → j < F.size →
          F.at (k' % bufCount) j ≠ F.at (k % bufCount) front.length := fun hk hj =>
        F.at_ne hj hlt (hsep _ hk)
      let z : Bufs :=
        { s' with mem := Function.update s'.mem (F.at (k % bufCount) front.length) b }
      have hstored : F.StoredAll z ks xs := hx'.same (l := ks) (fun _ hk => hk) fun k' hk j hj =>
        Function.update_of_ne (hne hk hj) ..
      have hlaid : F.Laid z k (front ++ [b]) := by
        intro j hj
        rw [List.length_append, List.length_singleton] at hj
        by_cases e : j = front.length
        · subst e
          exact (Function.update_self ..).trans (by simp)
        · have hj' : j < front.length := by omega
          rw [List.getElem_append_left hj']
          refine (Function.update_of_ne ?_ ..).trans (hf' j hj')
          exact fun h => e (Nat.add_left_cancel h)
      have hgo := ih (front ++ [b]) (by simpa using hl) hstored hlaid
      rw [List.append_assoc, List.length_append] at hgo
      exact hgo

/-- **`ipbuf`, or `macbuf`**: its text is in a buffer of the thread's own. -/
theorem buf_ok {xs : List α} (x : α) (hx : F.StoredAll s ks xs) :
    (buffering F).Ok t (fun i g s => ∃ k, i = k % bufCount ∧ g = ks ++ [k] ∧
      F.StoredAll s (ks ++ [k]) (xs ++ [x])) (F.buf x) ks s := by
  intro s' hs hrec
  refine ⟨trivial, fun e hok => ?_⟩
  have hi : (s'.idx &&& 7).toBitVec.toNat = s'.taken % bufCount := by rw [hrec.1, mask_ofNat]
  have hsep : ∀ k ∈ ks, k % bufCount ≠ s'.taken % bufCount := by
    intro k hk e
    obtain ⟨hu, hlt, hw⟩ := hrec.2 k hk
    have hne : s'.taken ≠ k + bufCount := hok k hu
    unfold bufCount at *
    omega
  have hput := putAll_ok (F := F) (t := t)
    (s := { s' with idx := s'.idx + 1, taken := s'.taken + 1, used := s'.taken :: s'.used }) hsep
    (F.text x ++ [nul]) [] (F.length_text x) (hx.same (fun _ hk => hk) hs) (fun j hj => nomatch hj)
  have htext : (F.text x).take F.longest = F.text x := List.take_of_length_le (F.brief x).le
  change (buffering F).Ok t _ (putAll ((s'.idx &&& 7).toBitVec.toNat * F.size)
    ((F.text x).take F.longest ++ [nul]) >>= fun _ => .ret (s'.idx &&& 7).toBitVec.toNat)
    (ks ++ [s'.taken]) _
  rw [hi, htext]
  refine Discipline.Ok.bind (Discipline.Ok.mono hput ?_)
  rintro - g u ⟨rfl, hold, hnew⟩ u' hu _
  have hlast : s'.taken ∈ ks ++ [s'.taken] := List.mem_append_right _ (List.mem_singleton_self _)
  refine ⟨s'.taken, rfl, rfl, List.rel_append (hold.same (fun _ hk => List.mem_append_left _ hk) hu) ?_⟩
  exact .cons (Format.Laid.same hnew hlast hu (F.length_text x)) .nil

/-- **The arguments of a `printf`**: each takes a number of its own, and the texts before it stay.
-/
theorem args_ok {ys : List α} (xs : List α) (hx : F.StoredAll s ks ys) :
    (buffering F).Ok t (fun is g s => ∃ ks', is = ks'.map (· % bufCount) ∧ g = ks ++ ks' ∧
      F.StoredAll s (ks ++ ks') (ys ++ xs)) (F.args xs) ks s := by
  induction xs generalizing ks ys s with
  | nil =>
      intro s' hs _
      refine ⟨[], rfl, (List.append_nil ks).symm, ?_⟩
      rw [List.append_nil, List.append_nil]
      exact hx.same (fun _ hk => hk) hs
  | cons x xs ih =>
      refine Discipline.Ok.bind ((buf_ok x hx).mono ?_)
      rintro i g u ⟨k, rfl, rfl, hu⟩
      refine Discipline.Ok.bind ((ih hu).mono ?_)
      rintro is g u ⟨ks', rfl, rfl, hu⟩ u' hs _
      have he : ks ++ [k] ++ ks' = ks ++ k :: ks' := List.append_assoc ks [k] ks'
      have he' : ys ++ [x] ++ xs = ys ++ x :: xs := List.append_assoc ys [x] xs
      rw [he] at hs
      rw [he, he'] at hu
      exact ⟨k :: ks', rfl, he, hu.same (fun _ hk => hk) hs⟩

/-- **A string** is read as it was written. -/
theorem getStr_ok {p rest : List Byte} (hk : k ∈ ks) (hz : nul ∉ rest)
    (hl : (p ++ rest ++ [nul]).length ≤ F.size) {n : ℕ} (hn : rest.length < n)
    (hs : F.Laid s k (p ++ rest ++ [nul])) :
    (buffering F).Ok t (fun r g s' => r = rest ∧ g = ks ∧ F.Same ks s s')
      (getStr n (F.at (k % bufCount) p.length)) ks s := by
  have hat : ∀ (u : Bufs), F.Same ks s u → u.mem (F.at (k % bufCount) p.length) =
      (rest ++ [nul]).head (by simp) := by
    intro u hu
    have hlt : p.length < (p ++ rest ++ [nul]).length := by simp
    rw [(hs.same hk hu hl) p.length hlt]
    simp [List.getElem_append_right, List.head_eq_getElem]
  induction rest generalizing p n s with
  | nil =>
      cases n with
      | zero => exact absurd hn (Nat.not_lt_zero _)
      | succ n =>
          intro u hu _
          refine ⟨trivial, fun e _ => ?_⟩
          have hb : u.mem (F.at (k % bufCount) p.length) = nul := hat u hu
          change (buffering F).Ok t _ (if u.mem (F.at (k % bufCount) p.length) = nul then .ret []
            else _) ks u
          rw [hb, if_pos rfl]
          exact fun u' hu' _ => ⟨rfl, rfl, (buffering F).rely_trans hu hu'⟩
  | cons b rest ih =>
      cases n with
      | zero => exact absurd hn (Nat.not_lt_zero _)
      | succ n =>
          intro u hu _
          refine ⟨trivial, fun e _ => ?_⟩
          have hb : u.mem (F.at (k % bufCount) p.length) = b := hat u hu
          obtain ⟨hne, hz⟩ := not_or.mp (List.mem_cons.not.mp hz)
          change (buffering F).Ok t _ (if u.mem (F.at (k % bufCount) p.length) = nul then .ret []
            else getStr n (F.at (k % bufCount) p.length + 1) >>= fun r =>
              .ret (u.mem (F.at (k % bufCount) p.length) :: r)) ks u
          rw [hb, if_neg (Ne.symm hne)]
          have he : p ++ [b] ++ rest ++ [nul] = p ++ b :: rest ++ [nul] := by simp
          have hu' : F.Laid u k (p ++ [b] ++ rest ++ [nul]) := he ▸ hs.same hk hu hl
          have hgo := ih (p := p ++ [b]) (n := n) (s := u) hz (by rw [he]; exact hl)
            (Nat.lt_of_succ_lt_succ hn) hu' (fun v hv => ?_)
          · rw [List.length_append] at hgo
            refine Discipline.Ok.bind (hgo.mono ?_)
            rintro r g v ⟨rfl, rfl, hv⟩ v' hv' _
            exact ⟨rfl, rfl, (buffering F).rely_trans ((buffering F).rely_trans hu hv) hv'⟩
          · have hlt : (p ++ [b]).length < (p ++ [b] ++ rest ++ [nul]).length := by simp
            rw [(hu'.same hk hv (by rw [he]; exact hl)) _ hlt]
            simp [List.getElem_append_right, List.head_eq_getElem]

/-- **The strings of a `printf`** are read back as they were written. -/
theorem strings_ok {ks' : List ℕ} {xs : List α} (hx : F.StoredAll s ks' xs) (hsub : ∀ k ∈ ks', k ∈ ks) :
    (buffering F).Ok t (fun texts g _ => texts = xs.map F.text ∧ g = ks)
      (F.strings (ks'.map (· % bufCount))) ks s := by
  induction xs generalizing ks' s with
  | nil =>
      cases hx
      exact fun _ _ _ => ⟨rfl, rfl⟩
  | cons x xs ih =>
      cases hx with
      | @cons k _ ks' _ hx hxs =>
          have hk := hsub k List.mem_cons_self
          have hroom : (F.text x).length < (bufCount - k % bufCount) * F.size := by
            have hlt : k % bufCount < bufCount := Nat.mod_lt k (by decide)
            have hle : F.size ≤ (bufCount - k % bufCount) * F.size :=
              Nat.le_mul_of_pos_left _ (Nat.sub_pos_of_lt hlt)
            exact lt_of_lt_of_le (Nat.lt_succ_of_le (F.brief x).le) hle
          have hone := getStr_ok (F := F) (t := t) (s := s) (p := []) hk (F.brief x).clean
            (F.length_text x) hroom hx
          refine Discipline.Ok.bind (hone.mono ?_)
          rintro r g u ⟨rfl, rfl, hu⟩
          have hrest := fun k hk => hsub k (List.mem_cons_of_mem _ hk)
          refine Discipline.Ok.bind ((ih (Format.StoredAll.same hxs hrest hu) hrest).mono ?_)
          rintro texts g u' ⟨rfl, rfl⟩
          exact fun _ _ _ => ⟨rfl, rfl⟩

/-- **A `printf`** prints the texts of its addresses, and gives its numbers back. -/
theorem print_ok (t : ℕ) (s : Bufs) :
    (buffering F).Ok t (fun _ g _ => g = []) F.print [] s := by
  intro s₁ _ _
  refine ⟨trivial, fun xs _ => ?_⟩
  change (buffering F).Ok t _ (F.args xs >>= fun is => F.strings is >>= fun texts =>
    Prog.perform (.printed is xs texts) >>= fun _ => .ret (some ())) [] s₁
  refine Discipline.Ok.bind ((args_ok xs .nil).mono ?_)
  rintro is g s₂ ⟨ks, rfl, rfl, hs₂⟩
  refine Discipline.Ok.bind ((strings_ok hs₂ fun _ hk => hk).mono ?_)
  rintro texts g s₃ ⟨rfl, rfl⟩ s₄ _ _
  exact ⟨⟨rfl, rfl⟩, fun _ _ _ _ _ => rfl⟩

/-! ### Runs -/

instance {β : Type} (t : ℕ) (c : BufCmd α β) (e : List α) (s : Bufs) : Decidable (inTime t c e s) :=
  match c with
  | .take => inferInstanceAs (Decidable (∀ k ∈ s.used, s.taken ≠ k + bufCount))
  | .next => isTrue trivial
  | .put _ _ => isTrue trivial
  | .get _ => isTrue trivial
  | .printed _ _ _ => isTrue trivial

/-- Before anything is printed. -/
def Unprinted (x : Config (BufCmd α) Bufs (List ℕ) ℕ Unit) : Prop :=
  (∃ mem, x.shared = .start mem) ∧ ∀ t, x.thread t = .idle () ∧ x.ghost t = []

variable {x y : Config (BufCmd α) Bufs (List ℕ) ℕ Unit}

/-- **Eight buffers are enough**, in every run of any number of threads in which a number is taken only
when the eighth before it is not in use any more: what a `printf` reads from the buffers is the text of
the addresses it was asked for, whatever the other threads write meanwhile. -/
theorem buffers_own (hx : Unprinted x) (h : Reach F.bufs inTime x y) {is : List ℕ} {xs : List α}
    {texts : List (List Byte)} {k : Unit → BufAct α (Option Unit)}
    (ht : y.thread t = .running (.cmd (.printed is xs texts) k)) : texts = xs.map F.text := by
  obtain ⟨⟨mem, hmem⟩, hthread⟩ := hx
  have hgood : (buffering F).Good (fun _ _ g _ => g = []) y := by
    refine Discipline.sound (fun _ _ _ _ _ hg _ _ => hg) ?_ ⟨?_, fun u => ?_⟩ h
    · rintro u l g s rfl
      exact (print_ok u s).mono fun _ _ _ hg _ _ => hg
    · have hno : ∀ k, ¬ ∃ t, k ∈ x.ghost t := by
        rintro k ⟨u, hk⟩
        rw [(hthread u).2] at hk
        cases hk
      rw [hmem]
      exact ⟨rfl, fun k => iff_of_false List.not_mem_nil (hno k), fun k hk => (nomatch hk),
        fun u _ k hk => absurd ⟨u, hk⟩ (hno k)⟩
    · rw [(hthread u).1]
      exact (hthread u).2
  have hok := hgood.2 t
  rw [ht] at hok
  exact (hok y.shared ((buffering F).rely_refl _ _) (hgood.1.recent t)).1.2

/-- Threads that have not printed anything. -/
def unprinted : Config (BufCmd α) Bufs (List ℕ) ℕ Unit where
  shared := .start fun _ => nul
  thread _ := .idle ()
  ghost _ := []

/-- Two threads print addresses, one step of each in turn. -/
def twoPrints : List (ℕ × List Ip) :=
  (List.replicate 21 [(0, [0x0a000001#32]), (1, [0xc0a80001#32])]).flatten

/-- A thread prints a MAC, and another one starts on its own. -/
def twoMacs : List (ℕ × List Mac) :=
  (List.replicate 4 [(0, [#v[2, 0, 0, 0, 0, 1]]), (1, [#v[2, 0, 0, 0, 0, 2]])]).flatten ++
    List.replicate 35 (0, [#v[2, 0, 0, 0, 0, 1]])

theorem buffers_own_two :
    ((∃ k, (Program.play ipBufs.bufs twoPrints unprinted).thread 0 =
        .running (.cmd (.printed [0] [0x0a000001#32] [lit "10.0.0.1"]) k)) ∧
      [lit "10.0.0.1"] = [0x0a000001#32].map ipBufs.text) ∧
    (∃ k, (Program.play macBufs.bufs twoMacs unprinted).thread 0 =
        .running (.cmd (.printed [0] [#v[2, 0, 0, 0, 0, 1]] [lit "02:00:00:00:00:01"]) k)) ∧
      [lit "02:00:00:00:00:01"] = [#v[2, 0, 0, 0, 0, 1]].map macBufs.text := by
  have hip : ∃ k, (Program.play ipBufs.bufs twoPrints unprinted).thread 0 =
      .running (.cmd (.printed [0] [0x0a000001#32] [lit "10.0.0.1"]) k) := ⟨_, rfl⟩
  have hmac : ∃ k, (Program.play macBufs.bufs twoMacs unprinted).thread 0 =
      .running (.cmd (.printed [0] [#v[2, 0, 0, 0, 0, 1]] [lit "02:00:00:00:00:01"]) k) := ⟨_, rfl⟩
  refine ⟨⟨hip, ?_⟩, hmac, ?_⟩
  · obtain ⟨k, ht⟩ := hip
    exact buffers_own ⟨⟨_, rfl⟩, fun t => ⟨rfl, rfl⟩⟩ (Program.PlayOk.reach (by decide +kernel)) ht
  · obtain ⟨k, ht⟩ := hmac
    exact buffers_own ⟨⟨_, rfl⟩, fun t => ⟨rfl, rfl⟩⟩ (Program.PlayOk.reach (by decide +kernel)) ht

end LinuxRouter
