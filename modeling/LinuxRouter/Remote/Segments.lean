import LinuxRouter.Remote.Framing
import LinuxRouter.Config.Load
import LinuxRouter.Remote.Stream
import LinuxRouter.Upgrade.Pieces

/-!
# Remote — ways of cutting a stream

Whether a session is the same however the client's bytes are cut.  It is not: a payload that comes in
one piece with its announcement waits for another piece, which may never come; and more than 8192
bytes are an error if they come as lines, and none if they come behind a payload.

* `Host.Delivers`: pieces that `recv` may return, one after the other.
* `Host.Orderly`: a way of cutting in which neither happens.  `bytes_orderly`: byte by byte is one.
* `Compared`: a turn, and the same byte by byte; `compared_lines` and `compared_payload` are its two
  cases, and `feed_cuts` is the induction over the turns.
* `session_same_iff`: with an orderly way of cutting, another is the same if and only if it is orderly.
* `session_cut`: a `putconf` in one piece, and in two.

Every way of cutting is compared with one, byte by byte, which needs no buffer to reason about: a
byte that ends a line has the line handled, and a byte of a payload has it written.  A turn with a
longer piece is the same as its bytes, one after the other, as long as the lines it leaves in the
buffer fit; `feed_cuts` adds the turns up.  Where a payload is announced in the middle of a piece
the two part ways: byte by byte the rest of the piece is written at once, in one piece it stays in
the buffer until something more comes.  At the end of a session that is a difference which can be
seen, and `Orderly` is the condition that it does not come to it.
-/

namespace LinuxRouter

open Text (lit nl)
open Files (Fs)
open Stdio (Stream)
open Program (Prog wp wp_iff wp_step)

section

variable {W : Type}

namespace Host

variable {H : Host W} {p x : List Byte} {c : Conn} {s : Session W} {ps : List (List Byte)}
  {Open : W → Prop}

/-! ### What may wait in a buffer -/

/-- A payload that is begun is not of zero bytes. -/
def Begun (Open : W → Prop) (c : Conn) (s : Session W) : Prop :=
  c.binary = true → 0 < c.bleft ∧ (c.mode = .upgrade → Open s.host)

/-- A line begins a payload with a stream that is open. -/
theorem handleLine_begun (hS : H.Seamless Open) (hb : c.binary = false) (line : List Byte)
    (s : Session W) : wp H.serve (Begun Open) (handleLine c line) s := by
  have hidle (t : Session W) {d : Conn} (hd : d.binary = false) : Begun Open d t :=
    fun h => nomatch hd.symm.trans h
  refine handleLine_rel (P := fun a _ => ∀ s, wp H.serve (Begun Open) a s) (d := c) rfl ?_ ?_ ?_ ?_ ?_
    ?_ ?_ line s
  -- nothing, or a reply
  · exact fun s => hidle s hb
  · exact fun t s _ => hidle _ hb
  -- `auth`
  · intro args s
    refine wp_step fun _ pw s _ => ?_
    split
    · exact fun _ _ => hidle _ hb
    · cases args with
      | nil => exact fun _ => hidle _ hb
      | cons arg args =>
          refine wp_step fun _ pw s _ => ?_
          split
          · exact fun _ _ => hidle _ hb
          · exact fun _ => hidle _ hb
  -- `getconf`
  · exact fun s _ _ _ _ => hidle _ hb
  -- another command
  · intro line s
    refine wp_step fun _ r s _ _ _ => hidle _ ?_
    split <;> exact hb
  -- `putconf` sets the length only if it is positive
  · intro arg s
    unfold handlePutconf
    dsimp only
    split
    · exact fun _ => hidle _ hb
    · rename_i hsize
      refine wp_step fun _ f s _ => ?_
      cases f with
      | none => exact fun _ => hidle _ hb
      | some f => exact fun _ _ _ => ⟨Nat.pos_of_ne_zero (not_or.mp hsize).1, fun h => nomatch h⟩
  -- `upgrade`: the length comes from what began it
  · intro arg sha s
    refine wp_step fun _ err t ht => ?_
    cases err with
    | some err => exact fun _ => hidle _ hb
    | none =>
        obtain ⟨hpos, hopen⟩ := hS.begins sha (Text.strtoul arg) s.host (congrArg Prod.fst ht)
        obtain rfl : _ = t := congrArg Prod.snd ht
        exact fun _ _ _ => ⟨hpos, fun _ => hopen⟩

/-- The same of the line's turn. -/
theorem line_begun (hS : H.Seamless Open) (hb : c.binary = false) (raw : List Byte) (s : Session W) :
    Begun Open (H.line raw c s).1 (H.line raw c s).2 :=
  wp_iff.mp (handleLine_begun hS hb (lineText raw) _) _ _ (Program.replay_runs [] _ _)

/-- What a connection may wait with: part of a line, or part of a payload. -/
structure Steady (Open : W → Prop) (c : Conn) (s : Session W) : Prop where
  begun : Begun Open c s
  line : c.closed = false → c.binary = false → nl ∉ c.ibuf

variable (H) in
/-- The lines that `process_lines` will find are not too long, with their newlines. -/
def ShortLines : ℕ → Conn → Session W → Prop
  | 0, _, _ => True
  | n + 1, c, s =>
      let raw := c.ibuf.takeWhile (· != nl)
      let r := H.line raw c s
      nl ∈ c.ibuf → raw.length < 8192 ∧
        (r.1.closed = true ∨ r.1.binary = true ∨
          ShortLines n (r.1.hold (c.ibuf.drop (raw.length + 1))) r.2)

/-- Without a newline no line is too long. -/
theorem shortLines_none {n : ℕ} (hn : nl ∉ c.ibuf) : H.ShortLines n c s := by
  cases n with
  | zero => trivial
  | succ n => exact fun h => absurd h hn

/-- The first line, and the others. -/
theorem shortLines_succ {raw rest : List Byte} {n : ℕ} (hn : nl ∉ raw)
    (hbuf : c.ibuf = raw ++ nl :: rest) : H.ShortLines (n + 1) c s ↔ raw.length < 8192 ∧
      ((H.line raw c s).1.closed = true ∨ (H.line raw c s).1.binary = true ∨
        H.ShortLines n ((H.line raw c s).1.hold rest) (H.line raw c s).2) := by
  have hmem : nl ∈ c.ibuf := by
    rw [hbuf]
    exact List.mem_append_right _ (List.mem_cons_self ..)
  have hraw : c.ibuf.takeWhile (· != nl) = raw := by rw [hbuf, takeWhile_line hn]
  rw [ShortLines, hraw, drop_line hbuf]
  exact ⟨fun h => h hmem, fun h _ => h⟩

/-- A buffer with a newline begins with a line. -/
theorem exists_line {buf : List Byte} (hm : nl ∈ buf) :
    ∃ raw rest, nl ∉ raw ∧ buf = raw ++ nl :: rest := by
  obtain ⟨hsplit, hno⟩ := ibuf_line hm
  rw [← List.append_cons] at hsplit
  exact ⟨_, _, hno, hsplit⟩

theorem append_line {buf raw rest : List Byte} (hbuf : buf = raw ++ nl :: rest) (x : List Byte) :
    buf ++ x = raw ++ nl :: (rest ++ x) := by
  rw [hbuf, List.append_assoc, List.cons_append]

/-- **A line, byte by byte**, is the line. -/
theorem feed_buffer {x raw rest : List Byte} (hc : c.closed = false) (hb : c.binary = false)
    (hn : nl ∉ raw) (hl : raw.length < 8192) (hx : x = raw ++ nl :: rest) :
    H.feed (bytes x) (c.hold []) s =
      H.feed (bytes rest) ((H.line raw c s).1.hold []) (H.line raw c s).2 := by
  rw [hx, List.append_cons, bytes_append, feed_append, feed_line hc hb hn hl]
  rfl

/-- A line is seen before what it does. -/
theorem line_seen (raw : List Byte) (c : Conn) (s : Session W) :
    s.seen ++ [.line raw] <+: (H.line raw c s).2.seen :=
  run_seen (handleLine c (lineText raw)) (s.mark (.line raw))

/-- After lines. -/
theorem lines_steady (hS : H.Seamless Open) (n : ℕ) (hn : c.ibuf.length ≤ n) (hb : c.binary = false) :
    Steady Open (H.run (processLinesFrom n c) s).1 (H.run (processLinesFrom n c) s).2 ∧
      (H.run (processLinesFrom n c) s).1.ibuf.length ≤ c.ibuf.length := by
  induction n generalizing c s with
  | zero =>
      have hnil : c.ibuf = [] := List.eq_nil_of_length_eq_zero (Nat.le_zero.mp hn)
      exact ⟨⟨fun h => (nomatch hb.symm.trans h), fun _ _ => hnil ▸ List.not_mem_nil⟩, le_rfl⟩
  | succ n ih =>
      by_cases hm : nl ∈ c.ibuf
      · obtain ⟨raw, rest, hno, hbuf⟩ := exists_line hm
        have hlen : rest.length < c.ibuf.length := by
          rw [hbuf, List.length_append, List.length_cons]
          omega
        rw [run_lines n hno hbuf]
        split
        · rename_i hend
          refine ⟨⟨line_begun hS hb raw s, fun h h' => ?_⟩, hlen.le⟩
          rcases hend with h'' | h''
          · exact nomatch h.symm.trans h''
          · exact nomatch h'.symm.trans h''
        · rename_i hend
          obtain ⟨hsteady, hle⟩ := ih (c := (H.line raw c s).1.hold rest) (s := (H.line raw c s).2)
            (Nat.le_of_lt_succ (lt_of_lt_of_le hlen hn)) (by simpa using (not_or.mp hend).2)
          exact ⟨hsteady, hle.trans hlen.le⟩
      · rw [processLinesFrom_none hm]
        exact ⟨⟨fun h => (nomatch hb.symm.trans h), fun _ _ => hm⟩, le_rfl⟩

/-- **Short lines**, at once or byte by byte. -/
theorem lines_short (n : ℕ) (hc : c.closed = false) (hb : c.binary = false)
    (hs : H.ShortLines n c s) (x : List Byte) :
    H.feed (bytes (c.ibuf ++ x)) (c.hold []) s =
      H.feed (bytes ((H.run (processLinesFrom n c) s).1.ibuf ++ x))
        ((H.run (processLinesFrom n c) s).1.hold []) (H.run (processLinesFrom n c) s).2 := by
  induction n generalizing c s with
  | zero => rfl
  | succ n ih =>
      by_cases hm : nl ∈ c.ibuf
      · obtain ⟨raw, rest, hno, hbuf⟩ := exists_line hm
        obtain ⟨hl, hnext⟩ := (shortLines_succ hno hbuf).mp hs
        rw [feed_buffer hc hb hno hl (append_line hbuf x), run_lines n hno hbuf]
        split
        · rfl
        · rename_i hend
          obtain ⟨hopen, hplain⟩ := not_or.mp hend
          exact ih (c := (H.line raw c s).1.hold rest) (by simpa using hopen) (by simpa using hplain)
            ((hnext.resolve_left hopen).resolve_left hplain)
      · rw [processLinesFrom_none hm]
        rfl

/-- **A line that is too long** is handled at once, and is an error byte by byte. -/
theorem lines_long (n : ℕ) (hc : c.closed = false) (hb : c.binary = false)
    (hs : ¬ H.ShortLines n c s) : ∃ S raw,
    S ++ [.line raw] <+: (H.run (processLinesFrom n c) s).2.seen ∧
      ∀ x, (H.feed (bytes (c.ibuf ++ x)) (c.hold []) s).2.seen = S ++ [.reply protocolError] := by
  induction n generalizing c s with
  | zero => exact absurd trivial hs
  | succ n ih =>
      by_cases hm : nl ∈ c.ibuf
      · obtain ⟨raw, rest, hno, hbuf⟩ := exists_line hm
        rw [shortLines_succ hno hbuf] at hs
        rw [run_lines n hno hbuf]
        by_cases hl : raw.length < 8192
        · have hnext := fun h => hs ⟨hl, h⟩
          have hopen : ¬ (H.line raw c s).1.closed = true := fun h => hnext (.inl h)
          have hplain : ¬ (H.line raw c s).1.binary = true := fun h => hnext (.inr (.inl h))
          rw [if_neg (not_or.mpr ⟨hopen, hplain⟩)]
          obtain ⟨S, raw', hpre, hfeed⟩ := ih (c := (H.line raw c s).1.hold rest)
            (by simpa using hopen) (by simpa using hplain) fun h => hnext (.inr (.inr h))
          exact ⟨S, raw', hpre, fun x => by
            rw [feed_buffer hc hb hno hl (append_line hbuf x)]
            exact hfeed x⟩
        · refine ⟨s.seen, raw, (line_seen (H := H) raw c s).trans ?_, fun x => ?_⟩
          · split
            · exact List.prefix_rfl
            · exact run_seen _ _
          · have hlen : 8192 < (c.ibuf ++ x).length := by
              rw [hbuf, List.length_append, List.length_append, List.length_cons]
              omega
            refine (feed_long hc hb hlen ?_).2
            rw [hbuf, List.append_assoc, List.take_append_of_le_length (Nat.le_of_not_lt hl)]
            exact fun h => hno (List.mem_of_mem_take h)
      · exact absurd (shortLines_none hm) hs

/-- A buffer that is not too long has no line that is. -/
theorem shortLines_of_le (n : ℕ) (hl : c.ibuf.length ≤ 8192) : H.ShortLines n c s := by
  induction n generalizing c s with
  | zero => trivial
  | succ n ih =>
      by_cases hm : nl ∈ c.ibuf
      · obtain ⟨raw, rest, hno, hbuf⟩ := exists_line hm
        rw [hbuf, List.length_append, List.length_cons] at hl
        exact (shortLines_succ hno hbuf).mpr ⟨by omega, .inr (.inr (ih (by rw [hold_ibuf]; omega)))⟩
      · exact shortLines_none hm

/-! ### The end of a payload -/

/-- The end of a payload is seen. -/
theorem binFinish_seen (c : Conn) (s : Session W) :
    s.seen ++ [.upload s.part] <+: (H.run (binFinish c) s).2.seen := by
  unfold binFinish
  rw [run_bind]
  exact run_seen (H := H) _ (s.mark .finish)

/-- After a payload there are lines. -/
theorem binFinish_done {d : Conn} (hd : (H.run (binFinish c) s).1 = .done d) :
    d.binary = c.binary ∧ d.closed = c.closed := by
  let Q (r : Finish) (_ : Session W) : Prop := ∀ d, r = .done d → d.binary = c.binary ∧ d.closed = c.closed
  have hdone (f : Option Stream) (s : Session W) : Q (.done { c with pcfp := f }) s := by
    rintro _ ⟨⟩
    exact ⟨rfl, rfl⟩
  have hput (f : Option Stream) (s : Session W) : wp H.serve Q (finishPutconf { c with pcfp := f }) s := by
    refine wp_step fun _ ok s _ => ?_
    cases ok with
    | false => exact fun _ _ d h => nomatch h
    | true => exact Program.wp_bind.mpr (wp_iff.mpr fun _ s _ _ _ => hdone f s)
  suffices h : wp H.serve Q (binFinish c) s from
    wp_iff.mp h _ _ (Program.replay_runs [] _ _) d hd
  rcases hm : c.mode with _ | _ | _
  · unfold binFinish
    rw [hm]
    exact fun _ => hdone c.pcfp s
  · rw [binFinish_putconf hm]
    refine wp_step fun _ _ s _ => ?_
    rcases c.pcfp with _ | f
    · exact hput none s
    · exact fun _ => hput none _
  · unfold binFinish
    rw [hm]
    refine wp_step fun _ _ s _ => wp_step fun _ err s _ => ?_
    cases err with
    | some err => exact fun _ d h => nomatch h
    | none =>
        refine wp_step fun _ _ s _ => wp_step fun _ ok s _ => ?_
        cases ok with
        | false => exact hdone c.pcfp s
        | true => exact fun d h => nomatch h

/-- The last part of a payload. -/
theorem pay_over {n : ℕ} {r : Bool × Conn} (hr : r.1 = true) (hn : r.2.bleft ≤ n) (s : Session W) :
    s.seen ++ [.upload s.part] <+: (H.run (payAfter n r) s).2.seen ∧
      ∀ d fin, (H.run (payAfter n r) s).1 = some (d, fin) →
        fin = true ∧ d.binary = false ∧ d.closed = r.2.closed := by
  obtain ⟨ok, e⟩ := r
  obtain rfl : ok = true := hr
  rw [payAfter]
  dsimp only
  rw [if_neg (by decide), if_neg (not_not.mpr (Nat.sub_eq_zero_of_le hn)), run_bind]
  refine ⟨(binFinish_seen (H := H) _ s).trans (run_seen _ _), fun d fin h => ?_⟩
  have hdone := fun d => binFinish_done (H := H) (s := s) (d := d)
    (c := { e with bleft := e.bleft - n, binary := false })
  generalize H.run (binFinish { e with bleft := e.bleft - n, binary := false }) s = b at h hdone
  rcases b with ⟨a | a | _, t⟩
  · cases (run_closed a none t).1.symm.trans h
  · obtain ⟨rfl, rfl⟩ : a = d ∧ true = fin := by
      injection h with h
      exact Prod.mk.inj h
    exact ⟨rfl, hdone a rfl⟩
  · cases h

/-! ### Ways of cutting -/

variable (H) in
/-- The pieces are what `recv` may return, one after the other. -/
def Delivers : List (List Byte) → Conn → Session W → Prop
  | [], _, _ => True
  | p :: ps, c, s =>
      p ≠ [] ∧ (c.closed = false → p.length ≤ ibufSize - c.ibuf.length) ∧
        match H.turn p c s with
        | (none, _) => True
        | (some d, t) => Delivers ps d t

variable (H) in
/-- Nothing is due of what is in the buffer: no more than part of a line, or of a payload, whose write
would not be answered. -/
def Spent (c : Conn) (s : Session W) : Prop :=
  c.closed = true ∨
    if c.binary = true then
      c.ibuf = [] ∨
        let w := H.run (binWrite (c.hold []) (c.ibuf.take c.bleft)) s
        w.2.seen = s.seen ∧ (w.1.1 = true → c.ibuf.length < c.bleft)
    else c.ibuf.length ≤ 8192

variable (H) in
/-- A turn that is as good as byte by byte.  Lines: not more than 8192 bytes, unless the first line is
too long.  A payload: if it is over, no line behind it is too long. -/
def TurnOk (p : List Byte) (c : Conn) (s : Session W) : Prop :=
  let x := c.ibuf ++ p
  c.closed = true ∨
    if c.binary = true then
      match H.run (payStep (c.hold []) (x.take c.bleft)) s with
      | (some (d, true), t) =>
          H.ShortLines (x.drop c.bleft).length (d.hold (x.drop c.bleft)) t
      | _ => True
    else x.length ≤ 8192 ∨ nl ∉ x.take 8192

variable (H) in
/-- A way of cutting that is as good as byte by byte: in every turn, and at the end. -/
def Orderly : List (List Byte) → Conn → Session W → Prop
  | [], c, s => H.Spent c s
  | p :: ps, c, s =>
      H.TurnOk p c s ∧
        match H.turn p c s with
        | (none, _) => True
        | (some d, t) => Orderly ps d t

/-- Nothing is seen of a connection that is closed. -/
theorem feed_closed (hc : c.closed = true) (ps : List (List Byte)) :
    (H.feed ps c s).2.seen = s.seen := by
  cases ps with
  | nil => rfl
  | cons p ps =>
      obtain ⟨hnone, hseen⟩ := turn_over (H := H) (p := p) (s := s) (.inl hc)
      rw [feed_cons, onward_none hnone]
      exact hseen

/-- What is seen after two different things is different. -/
theorem seen_ne {S l l' : List Seen} {a b : Seen} (hl : S ++ [a] <+: l) (hl' : S ++ [b] <+: l')
    (hab : a ≠ b) : l ≠ l' := by
  rintro rfl
  have h := List.prefix_of_prefix_length_le hl hl' (by simp)
  rw [List.prefix_append_right_inj] at h
  exact hab (List.cons_prefix_cons.mp h).1

/-- What has been seen has an end. -/
theorem seen_more {S l : List Seen} {a : Seen} (hl : S ++ [a] <+: l) : S ≠ l := by
  rintro rfl
  have := hl.length_le
  simp at this

/-- The part of a payload that is in the buffer. -/
theorem pay_part {x : List Byte} (hx : x ≠ []) (hpos : 0 < c.bleft) :
    x.take c.bleft ≠ [] ∧ (x.take c.bleft).length ≤ c.bleft ∧
      (x.take c.bleft).length = min (x.take c.bleft ++ x.drop c.bleft).length c.bleft := by
  refine ⟨?_, List.length_take_le _ _, ?_⟩
  · rw [← List.length_pos_iff, List.length_take]
    have := List.length_pos_of_ne_nil hx
    omega
  · rw [List.take_append_drop, List.length_take, Nat.min_comm]

/-- A write that succeeds is not seen. -/
theorem binWrite_quiet (hok : (H.run (binWrite c p) s).1.1 = true) :
    (H.run (binWrite c p) s).2.seen = s.seen := by
  rcases hm : c.mode with _ | _ | _
  · rw [binWrite_line hm]
  · rcases hf : c.pcfp with _ | f
    · rw [binWrite_closed hm hf]
    · rw [binWrite_put hm hf]
  · rw [binWrite_up hm] at hok ⊢
    rw [Option.isNone_iff_eq_none.mp hok, errSeen, List.append_nil]

/-- The part of a payload that is in the buffer, byte by byte. -/
theorem feed_payload (hS : H.Seamless Open) (hc : c.closed = false) (hb : c.binary = true)
    (hst : Begun Open c s) (hx : x ≠ []) (y : List Byte) :
    ∃ r, H.feed (bytes (x ++ y)) (c.hold []) s = H.onward (bytes (x.drop c.bleft ++ y)) r ∧
      Like r (H.run (payStep (c.hold []) (x.take c.bleft) >>= payRest []) s) := by
  obtain ⟨hpos, hopen⟩ := hst hb
  obtain ⟨hne, hle, -⟩ := pay_part hx hpos
  refine ⟨H.feed (bytes (x.take c.bleft)) (c.hold []) s, ?_, ?_⟩
  · rw [← feed_append, ← bytes_append, ← List.append_assoc, List.take_append_drop]
  · exact feed_pay (c := c.hold []) hS hc hb rfl hopen hne hle

/-- **At the end** nothing more is seen byte by byte, if and only if nothing is due. -/
theorem spent_iff (hS : H.Seamless Open) (hst : Steady Open c s) :
    s.seen = (H.feed (bytes c.ibuf) (c.hold []) s).2.seen ↔ H.Spent c s := by
  rcases hc : c.closed with _ | _
  · rcases hb : c.binary with _ | _
    · rw [Spent, hc, hb, if_neg (by decide)]
      -- an unfinished line: it is only refused, and only if it is too long
      have hn : nl ∉ c.ibuf := hst.line hc hb
      by_cases hl : c.ibuf.length ≤ 8192
      · rw [feed_part (c := c.hold []) hc hb hn hl]
        exact iff_of_true rfl (.inr hl)
      · have hlong := (feed_long (H := H) (s := s) hc hb (Nat.lt_of_not_le hl)
          (fun h => hn (List.mem_of_mem_take h))).2
        refine iff_of_false (seen_more (a := .reply protocolError) ?_) (by simpa using hl)
        rw [hlong]
    · rw [Spent, hc, hb, if_pos rfl]
      -- the rest of a payload: it is written, which is seen if it fails or completes the payload
      by_cases hnil : c.ibuf = []
      · rw [hnil]
        exact iff_of_true rfl (.inr (.inl rfl))
      · obtain ⟨r, hfeed, hlike⟩ := feed_payload hS hc hb hst.begun hnil []
        obtain ⟨f, hf⟩ := binWrite_file (H := H) (c.ibuf.take c.bleft) (c.hold []) s
        have hquiet := binWrite_quiet (H := H) (c := c.hold []) (p := c.ibuf.take c.bleft) (s := s)
        rw [List.append_nil] at hfeed
        rw [hfeed]
        rw [run_bind, payStep_run] at hlike
        dsimp only
        generalize H.run (binWrite (c.hold []) (c.ibuf.take c.bleft)) s = w at *
        obtain ⟨⟨ok, d⟩, t⟩ := w
        obtain rfl : d = { c.hold [] with pcfp := f } := hf
        cases ok with
        | false =>
            have hfail := (payAfter_failed (H := H) (n := (c.ibuf.take c.bleft).length)
              (r := (false, { c.hold [] with pcfp := f })) rfl t).rest (H := H) []
            have hend : Like r (none, t) := hlike.trans hfail
            rw [onward_none (hend.none rfl), hend.seen]
            simp [hnil, eq_comm]
        | true =>
            have hq : t.seen = s.seen := hquiet rfl
            by_cases hlt : c.ibuf.length < c.bleft
            · rw [payAfter_more (r := (true, { c.hold [] with pcfp := f })) rfl
                (by rw [List.length_take]; exact lt_of_le_of_lt (Nat.min_le_right _ _) hlt)] at hlike
              rw [show r = (some _, t) from hlike.some, List.drop_eq_nil_of_le hlt.le]
              exact iff_of_true hq.symm (.inr (.inr ⟨hq, fun _ => hlt⟩))
            · obtain ⟨hover, -⟩ := pay_over (H := H) (n := (c.ibuf.take c.bleft).length)
                (r := (true, { c.hold [] with pcfp := f })) rfl
                (by rw [List.length_take, Nat.min_eq_left (Nat.le_of_not_lt hlt)]; exact le_rfl) t
              refine iff_of_false ?_ ?_
              · rw [← hq]
                refine seen_more (hover.trans (List.IsPrefix.trans ?_ (onward_seen _ r)))
                rw [hlike.seen]
                exact run_seen _ _
              · simp [hnil, hlt]
  · exact ⟨fun _ => .inl hc, fun _ => (feed_closed (c := c.hold []) hc _).symm⟩

/-- A turn in a payload. -/
theorem turn_payload (hc : c.closed = false) (hb : c.binary = true) (hp : p ≠ [])
    (hl : p.length ≤ ibufSize - c.ibuf.length) (hpos : 0 < c.bleft) :
    H.turn p c s = H.run (payStep (c.hold []) ((c.ibuf ++ p).take c.bleft) >>=
      payRest ((c.ibuf ++ p).drop c.bleft)) s := by
  obtain ⟨hne, -, hmin⟩ := pay_part (c := c) (x := c.ibuf ++ p) (by simp [hp]) hpos
  rw [turn_eq hc hp hl, if_pos hb]
  have h := pumpBinary_pay (c := c.hold []) _ hne hmin
  rw [List.take_append_drop] at h
  exact congrArg (H.run · s) h

/-- A turn in which the piece `p` comes, and the same byte by byte, whatever follows. -/
inductive Compared (H : Host W) (p : List Byte) (c : Conn) (s : Session W) : Prop
  | on (d : Conn) (t : Session W) (ok : H.TurnOk p c s) (turn : H.turn p c s = (some d, t))
      (same : ∀ y, H.feed (bytes (c.ibuf ++ p ++ y)) (c.hold []) s =
        H.feed (bytes (d.ibuf ++ y)) (d.hold []) t)
  | ended (ok : H.TurnOk p c s) (turn : (H.turn p c s).1 = none)
      (same : ∀ y, (H.turn p c s).2.seen = (H.feed (bytes (c.ibuf ++ p ++ y)) (c.hold []) s).2.seen)
  | apart (S : List Seen) (a b : Seen) (wrong : ¬ H.TurnOk p c s) (ne : a ≠ b)
      (turn : S ++ [a] <+: (H.turn p c s).2.seen)
      (bytes : ∀ y, S ++ [b] <+: (H.feed (bytes (c.ibuf ++ p ++ y)) (c.hold []) s).2.seen)

theorem compared_closed (hc : c.closed = true) : H.Compared p c s := by
  obtain ⟨hnone, hseen⟩ := turn_over (H := H) (p := p) (s := s) (.inl hc)
  exact .ended (.inl hc) hnone fun y => hseen.trans (feed_closed (c := c.hold []) hc _).symm

/-- **A turn with lines**, and the same byte by byte. -/
theorem compared_lines (hc : c.closed = false) (hb : c.binary = false)
    (hp : p ≠ []) (hl : p.length ≤ ibufSize - c.ibuf.length) : H.Compared p c s := by
  have hturn : H.turn p c s = H.run (pumpLines (c.hold (c.ibuf ++ p))) s := by
    rw [turn_eq hc hp hl, if_neg (by simp [hb])]
  have hok : H.TurnOk p c s ↔ (c.ibuf ++ p).length ≤ 8192 ∨ nl ∉ (c.ibuf ++ p).take 8192 := by
    rw [TurnOk]
    simp [hc, hb]
  by_cases hfit : (c.ibuf ++ p).length ≤ 8192
  · have hsame := lines_short (H := H) (s := s) (c := c.hold (c.ibuf ++ p))
      (c.ibuf ++ p).length hc hb (shortLines_of_le _ hfit)
    refine .on _ _ (hok.mpr (.inl hfit)) ?_ hsame
    rw [hturn, pumpLines_fit hfit, Prog.map_eq, run_bind]
    rfl
  · obtain ⟨hnone, hseen⟩ := pumpLines_long (H := H) (s := s) (c := c.hold (c.ibuf ++ p))
      (Nat.lt_of_not_le hfit)
    have hle : 8192 ≤ (c.ibuf ++ p).length := Nat.le_of_not_le hfit
    rw [← hturn] at hnone hseen
    by_cases hn : nl ∈ (c.ibuf ++ p).take 8192
    -- the first thing seen differs: the error here, the line byte by byte
    · obtain ⟨raw, rest, hno, hbuf⟩ := exists_line hn
      refine .apart s.seen (.reply protocolError) (.line raw) ?_ (by simp) ?_ fun y => ?_
      · rw [hok]
        exact not_or.mpr ⟨hfit, not_not.mpr hn⟩
      · rw [hseen]
      · have hraw : raw.length < 8192 := by
          have := congrArg List.length hbuf
          rw [List.length_take_of_le hle, List.length_append, List.length_cons] at this
          omega
        have hsplit : c.ibuf ++ p = raw ++ nl :: (rest ++ (c.ibuf ++ p).drop 8192) := by
          rw [← List.cons_append, ← List.append_assoc, ← hbuf, List.take_append_drop]
        rw [feed_buffer hc hb hno hraw (append_line hsplit y)]
        exact (line_seen raw c s).trans (onward_seen _ (some _, _))
    -- no newline comes in time, so both are refused
    · refine .ended (hok.mpr (.inr hn)) hnone fun y => ?_
      rw [hseen, (feed_long hc hb (Nat.lt_of_lt_of_le (Nat.lt_of_not_le hfit) ?_) ?_).2]
      · exact (List.prefix_append _ y).length_le
      · rwa [List.take_append_of_le_length hle]

/-- What a step of a payload leaves: more of it, or lines. -/
theorem payStep_some (hS : H.Seamless Open) (hopen : c.mode = .upgrade → Open s.host)
    (hb : c.binary = true) (e : Conn) (fin : Bool) (h : (H.run (payStep c x) s).1 = some (e, fin)) :
    fin = false ∧ e.binary = true ∧ Begun Open e (H.run (payStep c x) s).2 ∨
      fin = true ∧ e.binary = false ∧ e.closed = c.closed := by
  -- only a part that completes the payload ends it
  by_cases hlt : x.length < c.bleft
  · rcases payStep_part (s := s) hS hopen hlt with hend | ⟨f, t, hstep, hleft⟩
    · exact nomatch (hend.none rfl).symm.trans h
    · rw [hstep] at h ⊢
      cases h
      exact .inl ⟨rfl, hb, fun _ => ⟨Nat.sub_pos_of_lt hlt, hleft⟩⟩
  · obtain ⟨f, hf⟩ := binWrite_file (H := H) x c s
    rw [payStep_run] at h ⊢
    generalize H.run (binWrite c x) s = w at *
    obtain ⟨⟨ok, d⟩, t⟩ := w
    obtain rfl : d = { c with pcfp := f } := hf
    cases ok with
    | false =>
        exact nomatch ((payAfter_failed (r := (false, { c with pcfp := f })) rfl t).none rfl).symm.trans h
    | true =>
        exact .inr ((pay_over (r := (true, { c with pcfp := f })) rfl (Nat.le_of_not_lt hlt) t).2 e fin h)

/-- **A turn with a payload**, and the same byte by byte. -/
theorem compared_payload (hS : H.Seamless Open) (hst : Begun Open c s) (hc : c.closed = false)
    (hb : c.binary = true) (hp : p ≠ []) (hl : p.length ≤ ibufSize - c.ibuf.length) :
    H.Compared p c s := by
  have hne : c.ibuf ++ p ≠ [] := by simp [hp]
  obtain ⟨hpos, hopen⟩ := hst hb
  have hsame := feed_payload hS hc hb hst hne
  have hturn := turn_payload (H := H) (s := s) hc hb hp hl hpos
  have hok : H.TurnOk p c s ↔ match H.run (payStep (c.hold []) ((c.ibuf ++ p).take c.bleft)) s with
      | (some (d, true), t) => H.ShortLines ((c.ibuf ++ p).drop c.bleft).length
          (d.hold ((c.ibuf ++ p).drop c.bleft)) t
      | _ => True := by
    rw [TurnOk]
    simp only [hc, hb, Bool.false_eq_true, false_or, if_true]
  have hsome := payStep_some (c := c.hold []) (x := (c.ibuf ++ p).take c.bleft) hS hopen hb
  simp only [run_bind] at hsame hturn
  generalize H.run (payStep (c.hold []) ((c.ibuf ++ p).take c.bleft)) s = a at *
  generalize (c.ibuf ++ p).drop c.bleft = rest at *
  obtain ⟨_ | ⟨e, fin⟩, t⟩ := a
  -- a write or the end of the payload failed
  · refine .ended (hok.mpr trivial) (by rw [hturn]; rfl) fun y => ?_
    obtain ⟨r, hfeed, hlike⟩ := hsame y
    rw [hturn, hfeed, onward_none (hlike.none rfl), hlike.seen]
    rfl
  · rcases hsome e fin rfl with ⟨rfl, hbin, -⟩ | ⟨rfl, hbin, hclosed⟩
    -- more of the payload is due
    · refine .on (e.hold rest) t (hok.mpr trivial) hturn fun y => ?_
      obtain ⟨r, hfeed, hlike⟩ := hsame y
      rw [hfeed, show r = (some (e.hold []), t) from hlike.some]
      rfl
    -- lines follow in the same turn, of any length; byte by byte they may not be too long
    · have hclosed : (e.hold rest).closed = false := hclosed.trans hc
      have hfeed (y : List Byte) : H.feed (bytes (c.ibuf ++ p ++ y)) (c.hold []) s =
          H.feed (bytes (rest ++ y)) (e.hold []) t := by
        obtain ⟨r, hfeed, hlike⟩ := hsame y
        rw [hfeed, show r = (some (e.hold []), t) from hlike.some]
        rfl
      have hlines : H.turn p c s = (some (H.run (processLinesFrom rest.length (e.hold rest)) t).1,
          (H.run (processLinesFrom rest.length (e.hold rest)) t).2) := hturn.trans (run_bind _ _ t)
      by_cases hshort : H.ShortLines rest.length (e.hold rest) t
      · exact .on _ _ (hok.mpr hshort) hlines fun y =>
          (hfeed y).trans (lines_short _ hclosed hbin hshort y)
      · obtain ⟨S, raw, hpre, hlong⟩ := lines_long _ hclosed hbin hshort
        refine .apart S (.line raw) (.reply protocolError) (fun h => hshort (hok.mp h)) (by simp) ?_
          fun y => ?_
        · rw [hlines]
          exact hpre
        · rw [hfeed]
          exact (hlong y).symm ▸ List.prefix_rfl

/-- After a turn.  There is room for another. -/
theorem turn_after (hS : H.Seamless Open) (hst : Steady Open c s) (hp : p ≠ [])
    (hl : c.closed = false → p.length ≤ ibufSize - c.ibuf.length) {d : Conn} {t : Session W}
    (h : H.turn p c s = (some d, t)) :
    Steady Open d t ∧ (d.ibuf.length ≤ 8192 ∨ d.ibuf.length < c.ibuf.length + p.length) := by
  have hc : c.closed = false := by
    by_contra hc
    have := (turn_over (H := H) (p := p) (s := s) (.inl (by simpa using hc))).1
    rw [h] at this
    cases this
  rcases hb : c.binary with _ | _
  · rw [turn_eq hc hp (hl hc), if_neg (by simp [hb])] at h
    by_cases hfit : (c.ibuf ++ p).length ≤ 8192
    · rw [pumpLines_fit hfit, Prog.map_eq, run_bind] at h
      cases h
      obtain ⟨hsteady, hle⟩ := lines_steady (H := H) (s := s) (c := c.hold (c.ibuf ++ p)) hS _ le_rfl hb
      exact ⟨hsteady, .inl (hle.trans hfit)⟩
    · have := (pumpLines_long (H := H) (s := s) (c := c.hold (c.ibuf ++ p)) (Nat.lt_of_not_le hfit)).1
      rw [h] at this
      cases this
  · obtain ⟨hpos, hopen⟩ := hst.begun hb
    have hlen : ((c.ibuf ++ p).drop c.bleft).length < c.ibuf.length + p.length := by
      have := List.length_pos_of_ne_nil hp
      rw [List.length_drop, List.length_append]
      omega
    have hsome := payStep_some (c := c.hold []) (x := (c.ibuf ++ p).take c.bleft) hS hopen hb
    rw [turn_payload hc hb hp (hl hc) hpos, run_bind] at h
    generalize H.run (payStep (c.hold []) ((c.ibuf ++ p).take c.bleft)) s = a at *
    obtain ⟨_ | ⟨e, fin⟩, u⟩ := a
    · cases h
    · rcases hsome e fin rfl with ⟨rfl, hbin, hbegun⟩ | ⟨rfl, hbin, -⟩
      · cases h
        exact ⟨⟨hbegun, fun _ h => nomatch hbin.symm.trans h⟩, .inr hlen⟩
      · have hlines : H.run (some <$> processLines (e.hold ((c.ibuf ++ p).drop c.bleft))) u =
            (some d, t) := h
        rw [Prog.map_eq, run_bind] at hlines
        cases hlines
        obtain ⟨hsteady, hle⟩ := lines_steady (H := H) (s := u)
          (c := e.hold ((c.ibuf ++ p).drop c.bleft)) hS _ le_rfl hbin
        exact ⟨hsteady, .inr (lt_of_le_of_lt hle hlen)⟩

/-- **A way of cutting, byte by byte**: the same is seen if and only if it is orderly. -/
theorem feed_cuts (hS : H.Seamless Open) (hst : Steady Open c s) (hd : H.Delivers ps c s) :
    (H.feed ps c s).2.seen = (H.feed (bytes (c.ibuf ++ ps.flatten)) (c.hold []) s).2.seen ↔
      H.Orderly ps c s := by
  induction ps generalizing c s with
  | nil =>
      rw [List.flatten_nil, List.append_nil]
      exact spent_iff hS hst
  | cons p ps ih =>
      obtain ⟨hp, hroom, hnext⟩ := hd
      -- one turn; the induction hypothesis takes the turns after it
      have hturn : H.Compared p c s := by
        rcases hc : c.closed with _ | _
        · rcases hb : c.binary with _ | _
          · exact compared_lines hc hb hp (hroom hc)
          · exact compared_payload hS hst.begun hc hb hp (hroom hc)
        · exact compared_closed hc
      rw [feed_cons, Orderly, List.flatten_cons, ← List.append_assoc]
      cases hturn with
      | on d t ok turn same =>
          obtain ⟨hsteady, -⟩ := turn_after hS hst hp hroom turn
          rw [turn] at hnext ⊢
          rw [same]
          exact (ih hsteady hnext).trans (and_iff_right ok).symm
      | ended ok turn same =>
          rw [onward_none turn]
          refine iff_of_true (same _) ⟨ok, ?_⟩
          rcases h : H.turn p c s with ⟨_ | d, t⟩
          · trivial
          · rw [h] at turn
            cases turn
      | apart S a b wrong ne turn bytes =>
          refine iff_of_false ?_ fun h => wrong h.1
          exact seen_ne (turn.trans (onward_seen ps _)) (bytes _) ne

/-! ### Byte by byte -/

theorem bytes_delivers (hS : H.Seamless Open) (hst : Steady Open c s) (hl : c.ibuf.length ≤ 8192)
    (x : List Byte) : H.Delivers (bytes x) c s := by
  induction x generalizing c s with
  | nil => trivial
  | cons b x ih =>
      refine ⟨List.cons_ne_nil b [], fun _ => room_le hl b, ?_⟩
      rcases h : H.turn [b] c s with ⟨_ | d, t⟩
      · trivial
      · obtain ⟨hsteady, hd⟩ := turn_after hS hst (List.cons_ne_nil b []) (fun _ => room_le hl b) h
        refine ih hsteady (hd.elim id fun hd => ?_)
        rw [List.length_singleton] at hd
        omega

theorem flatten_bytes (x : List Byte) : (bytes x).flatten = x := by
  induction x with
  | nil => rfl
  | cons b x ih => exact congrArg (b :: ·) ih

/-- **Byte by byte** is orderly. -/
theorem bytes_orderly (hS : H.Seamless Open) (hst : Steady Open c s) (hc : c.ibuf = [])
    (x : List Byte) : H.Orderly (bytes x) c s := by
  have hself : c.hold [] = c := by rw [← hc, hold_self]
  refine (feed_cuts hS hst (bytes_delivers hS hst (by simp [hc]) x)).mp ?_
  rw [hc, flatten_bytes, List.nil_append, hself]

/-- **The same session**: with one way of cutting orderly, another shows the same lines, uploads and
replies if and only if it is orderly. -/
theorem session_same_iff (hS : H.Seamless Open) (hst : Steady Open c s) {as bs : List (List Byte)}
    (ha : H.Delivers as c s) (hb : H.Delivers bs c s) (hab : as.flatten = bs.flatten)
    (hord : H.Orderly bs c s) :
    (H.talk as c s).seen = (H.talk bs c s).seen ↔ H.Orderly as c s := by
  rw [talk_seen, talk_seen, (feed_cuts hS hst hb).mpr hord, ← hab]
  exact feed_cuts hS hst ha

/-! These can be evaluated. -/

instance decShortLines : ∀ (n : ℕ) (c : Conn) (s : Session W), Decidable (H.ShortLines n c s)
  | 0, _, _ => isTrue trivial
  | n + 1, c, _ =>
      have := decShortLines n
      inferInstanceAs (Decidable (nl ∈ c.ibuf → _ ∧ (_ ∨ _ ∨ _)))

instance decDelivers : ∀ (ps : List (List Byte)) (c : Conn) (s : Session W),
    Decidable (H.Delivers ps c s)
  | [], _, _ => isTrue trivial
  | p :: ps, c, s =>
      have : Decidable (match H.turn p c s with
          | (none, _) => True
          | (some d, t) => H.Delivers ps d t) :=
        match H.turn p c s with
        | (none, _) => isTrue trivial
        | (some d, t) => decDelivers ps d t
      inferInstanceAs (Decidable (_ ∧ (_ → _) ∧ _))

instance (c : Conn) (s : Session W) : Decidable (H.Spent c s) :=
  inferInstanceAs (Decidable (_ ∨ if c.binary = true then _ ∨ _ ∧ (_ → _) else _))

instance (p : List Byte) (c : Conn) (s : Session W) : Decidable (H.TurnOk p c s) :=
  have : Decidable (match H.run (payStep (c.hold []) ((c.ibuf ++ p).take c.bleft)) s with
      | (some (d, true), t) => H.ShortLines ((c.ibuf ++ p).drop c.bleft).length
          (d.hold ((c.ibuf ++ p).drop c.bleft)) t
      | _ => True) :=
    match H.run (payStep (c.hold []) ((c.ibuf ++ p).take c.bleft)) s with
    | (some (d, true), t) => decShortLines _ (d.hold ((c.ibuf ++ p).drop c.bleft)) t
    | (some (_, false), _) => isTrue trivial
    | (none, _) => isTrue trivial
  inferInstanceAs (Decidable (_ ∨ if c.binary = true then _ else _ ∨ _))

instance decOrderly : ∀ (ps : List (List Byte)) (c : Conn) (s : Session W), Decidable (H.Orderly ps c s)
  | [], c, s => inferInstanceAs (Decidable (H.Spent c s))
  | p :: ps, c, s =>
      have : Decidable (match H.turn p c s with
          | (none, _) => True
          | (some d, t) => H.Orderly ps d t) :=
        match H.turn p c s with
        | (none, _) => isTrue trivial
        | (some d, t) => decOrderly ps d t
      inferInstanceAs (Decidable (H.TurnOk p c s ∧ _))

end Host

end

/-! ### The router -/

/-- The router, with nobody else on it, in a world that does not change. -/
def router (e : World) : Host Manage := ⟨fun _ c m => execM c e m⟩

/-- Where every write succeeds, a write may be cut: what leaves the buffer depends on how much the
stream has taken in all, not on the writes that brought it. -/
theorem router_seamless {e : World} (he : e.wrote = none) (hs : Monotone e.settled) :
    (router e).Seamless fun m => ImageFile m.up where
  begins sha size m h := ⟨upgradeBegin_pos h, upgradeBegin_open h⟩
  fwrite f p q m _ _ := by
    have hcut := Stdio.fwrite_append hs p q f m.disk
    simp only [router, execM, World.written, he, Option.getD_none, min_self]
    rw [hcut]
    simp only [Stdio.fwrite_settling]
    simp
  upgrade p q m hm _ _ := by
    obtain ⟨hor, heq⟩ := @upgradeWrite_append e.toFileCalls m.up m.disk he hm p q
    exact ⟨hor, fun h => congrArg (fun x : Upgrade × Disk => { m with up := x.1, disk := x.2 }) (heq h)⟩
  opened p m hm h := upgradeWrite_open he hm p

/-- An authenticated connection. -/
def admitted : Conn := { Conn.init with authed := true }

/-- A session that begins, on a router with a file. -/
def Session.fresh : Session Manage := ⟨.guarded [] (lit "tcp_port 1\n"), [], []⟩

/-- The router with a client in line mode is steady. -/
theorem admitted_steady : Host.Steady (fun m : Manage => ImageFile m.up) admitted .fresh :=
  ⟨fun h => (nomatch h), fun _ _ => List.not_mem_nil⟩

/-- A `putconf` in four pieces, and in two. -/
theorem session_same_pieces :
    ((router .fair).talk [lit "putc", lit "onf 5\n", lit "hel", lit "lo"] admitted .fresh).seen =
      ((router .fair).talk [lit "putconf 5\n", lit "hello"] admitted .fresh).seen :=
  (Host.session_same_iff (router_seamless rfl World.fair_settled) admitted_steady (by decide +kernel) (by decide +kernel)
    (by decide +kernel) (by decide +kernel)).mpr (by decide +kernel)

/-- **A `putconf` in one piece**, and in two: its payload waits in the buffer, and is lost when the
client closes. -/
theorem session_cut :
    (router .fair).Delivers [lit "putconf 5\nhello"] admitted .fresh ∧
    (router .fair).Delivers [lit "putconf 5\n", lit "hello"] admitted .fresh ∧
    [lit "putconf 5\nhello"].flatten = [lit "putconf 5\n", lit "hello"].flatten ∧
    ((router .fair).talk [lit "putconf 5\nhello"] admitted .fresh).seen =
      [.line (lit "putconf 5"), .reply (lit "OK\r\n")] ∧
    ((router .fair).talk [lit "putconf 5\n", lit "hello"] admitted .fresh).seen =
      [.line (lit "putconf 5"), .reply (lit "OK\r\n"), .upload (lit "hello"), .reply okReloaded] := by
  decide +kernel

end LinuxRouter
