import LinuxRouter.Remote.Buffer

/-!
# Remote — a stream in pieces

A connection that is sent a stream in pieces, each of which one `recv` returns.

* `Seen`: what is seen of a session, its lines, its uploads and its replies.
* `Host`: the rest of the router, which answers a connection's commands; `Host.feed` is the turns of
  `conn_pump` in which the pieces come, and `Host.talk` those and the end.
* `feed_line`, `feed_long`: a line byte by byte.
* `Host.Seamless`: a write may be cut.  `feed_pay`: then a payload byte by byte is what it is at once.

The model of a connection is a program over commands; a session is that program run against a host
that answers each command from a state of its own.  `Host.feed` folds the turns over the pieces, and
what is seen only grows (`run_seen`), so that two ways of cutting can be compared by what they have
seen in the end.  For a payload the comparison needs something of the host: that `p` and then `q`
written is `p ++ q` written, or fails as it would (`Seamless`).  `payStep` is one such write with
the counting around it, and `Like` says that two of them agree but for what a failure has left
behind.
-/

namespace LinuxRouter

open Text (lit nl)
open Stdio (Stream)
open Program (Prog replay replay_bind)

/-! ### A session -/

/-- What is seen of a connection: a line that is handed to `handle_line`, a payload that has come as a
whole, and a reply. -/
inductive Seen where
  | line (raw : List Byte)
  | upload (bytes : List Byte)
  | reply (s : List Byte)
  deriving DecidableEq

/-- The rest of the router, as a connection finds it.  What it answers may depend on all that it was
asked before. -/
structure Host (W : Type) where
  exec : ∀ ⦃β : Type⦄, MCmd β → W → β × W

/-- The rest of the router, what was seen so far, and what has come of the current payload. -/
structure Session (W : Type) where
  host : W
  seen : List Seen
  part : List Byte

section

variable {W : Type}

/-- What a mark shows of a session. -/
def Session.mark (s : Session W) : Mark → Session W
  | .line raw => { s with seen := s.seen ++ [.line raw] }
  | .authed => s
  | .binary _ => { s with part := [] }
  | .chunk p => { s with part := s.part ++ p }
  | .finish => { s with seen := s.seen ++ [.upload s.part] }

namespace Host

/-- The answer to a command, in a turn in which `p` has come. -/
def serve (H : Host W) : ∀ ⦃β : Type⦄, MCmd β → List Byte → Session W → β × Session W
  | _, .mark m, _, s => ((), s.mark m)
  | _, .stop, _, s => (false, s)
  | _, .recv room, p, s => (p.take room, s)
  | _, .send t, _, s => ((), { s with seen := s.seen ++ [.reply t] })
  | _, c, _, s =>
      let r := H.exec c s.host
      (r.1, { s with host := r.2 })

variable (H : Host W)

/-- A turn of the loop of `conn_pump`. -/
def turn (p : List Byte) (c : Conn) (s : Session W) : Option Conn × Session W :=
  replay H.serve p (connRound c) s

/-- The turns in which the pieces come, as long as the connection is there. -/
def feed : List (List Byte) → Conn → Session W → Option Conn × Session W
  | [], c, s => (some c, s)
  | p :: ps, c, s =>
      match H.turn p c s with
      | (none, s) => (none, s)
      | (some c, s) => feed ps c s

/-- A client that sends the pieces, and closes. -/
def talk (ps : List (List Byte)) (c : Conn) (s : Session W) : Session W :=
  match H.feed ps c s with
  | (none, s) => s
  | (some c, s) => (H.turn [] c s).2

/-- A part of a turn after its `recv`. -/
def run {α : Type} (a : MAct α) (s : Session W) : α × Session W := replay H.serve [] a s

/-- A line. -/
def line (raw : List Byte) (c : Conn) (s : Session W) : Conn × Session W :=
  H.run (handleLine c (lineText raw)) (s.mark (.line raw))

end Host

/-! ### Turns -/

namespace Host

variable {H : Host W} {p q x : List Byte} {c d : Conn} {s : Session W} {ps qs : List (List Byte)}

/-- A program and what follows it. -/
theorem run_bind {α β : Type} (a : MAct α) (f : α → MAct β) (s : Session W) :
    H.run (a >>= f) s = H.run (f (H.run a s).1) (H.run a s).2 := replay_bind ..

/-- A command that does not receive does not depend on what has come. -/
theorem serve_asks {β : Type} {c : MCmd β} (hc : c.asks = false) (p q : List Byte) :
    H.serve c p s = H.serve c q s := by
  cases c <;> first | rfl | cases hc

/-- What a program that receives nothing does, whatever there is to receive. -/
theorem replay_deaf {α : Type} {a : MAct α} (ha : Deaf a) (p : List Byte) (s : Session W) :
    replay H.serve p a s = H.run a s := by
  unfold run
  induction a generalizing s with
  | ret a => rfl
  | cmd c k ih =>
      have hc := serve_asks (H := H) (s := s) ha.1 p []
      rw [replay, replay, hc]
      exact ih _ (ha.2 _) _

/-- What was seen stays. -/
theorem replay_seen {α : Type} (a : MAct α) (p : List Byte) (s : Session W) :
    s.seen <+: (replay H.serve p a s).2.seen := by
  induction a generalizing s with
  | ret a => exact List.prefix_rfl
  | cmd c k ih =>
      refine List.IsPrefix.trans ?_ (ih _ _)
      cases c with
      | mark m => cases m <;> first | exact List.prefix_rfl | exact List.prefix_append _ _
      | send t => exact List.prefix_append _ _
      | _ => exact List.prefix_rfl

theorem run_seen {α : Type} (a : MAct α) (s : Session W) : s.seen <+: (H.run a s).2.seen :=
  replay_seen a [] s

/-- Nothing is seen of the end of a connection. -/
theorem connClose_seen (c : Conn) (s : Session W) : (H.run (connClose c) s).2.seen = s.seen := by
  obtain ⟨authed, closed, ibuf, binary, bleft, mode, pcfp⟩ := c
  cases mode <;> cases pcfp <;> rfl

/-- The end of the thread. -/
theorem run_closed {α : Type} (c : Conn) (a : α) (s : Session W) :
    (H.run (connClose c >>= fun _ => .ret a) s).1 = a ∧
      (H.run (connClose c >>= fun _ => .ret a) s).2.seen = s.seen := by
  rw [run_bind]
  exact ⟨rfl, connClose_seen c s⟩

/-- The last turn. -/
theorem turn_over (h : c.closed = true ∨ p = []) :
    (H.turn p c s).1 = none ∧ (H.turn p c s).2.seen = s.seen := by
  have hturn : H.turn p c s = H.run (connClose c >>= fun _ => .ret none) s := by
    rw [← replay_deaf (closed_deaf c none) p, turn, connRound]
    split
    · rfl
    · rename_i hc
      obtain rfl := h.resolve_left hc
      change replay H.serve [] (if ([] : List Byte).take _ = [] then _ else _) s = _
      rw [List.take_nil, if_pos rfl]
      rfl
  rw [hturn]
  exact run_closed c none s

/-- A turn with a piece that the buffer has room for. -/
theorem turn_eq (hc : c.closed = false) (hp : p ≠ []) (hl : p.length ≤ ibufSize - c.ibuf.length) :
    H.turn p c s = if c.binary = true then H.run (pumpBinary (c.hold (c.ibuf ++ p))) s
      else H.run (pumpLines (c.hold (c.ibuf ++ p))) s := by
  have htake : p.take (ibufSize - c.ibuf.length) = p := List.take_of_length_le hl
  rw [← replay_deaf (pumpBinary_deaf _) p, ← replay_deaf (pumpLines_deaf _) p]
  obtain ⟨authed, closed, ibuf, binary, bleft, mode, pcfp⟩ := c
  cases hc
  have hgo (x : List Byte) (hx : x ≠ []) : replay H.serve p (if x = [] then
      connClose ⟨authed, false, ibuf, binary, bleft, mode, pcfp⟩ >>= fun _ => .ret none
    else if binary = true then pumpBinary ⟨authed, false, ibuf ++ x, binary, bleft, mode, pcfp⟩
    else pumpLines ⟨authed, false, ibuf ++ x, binary, bleft, mode, pcfp⟩) s =
      if binary = true then
        replay H.serve p (pumpBinary ⟨authed, false, ibuf ++ x, binary, bleft, mode, pcfp⟩) s
      else replay H.serve p (pumpLines ⟨authed, false, ibuf ++ x, binary, bleft, mode, pcfp⟩) s := by
    rw [if_neg hx]
    split <;> rfl
  refine Eq.trans (hgo (p.take (ibufSize - ibuf.length)) (by rw [htake]; exact hp)) ?_
  rw [htake]
  rfl

/-- On with more pieces. -/
def onward (H : Host W) (ps : List (List Byte)) : Option Conn × Session W → Option Conn × Session W
  | (none, s) => (none, s)
  | (some c, s) => H.feed ps c s

theorem feed_cons : H.feed (p :: ps) c s = H.onward ps (H.turn p c s) := by
  rw [feed]
  rcases H.turn p c s with ⟨_ | d, t⟩ <;> rfl

theorem feed_append : H.feed (ps ++ qs) c s = H.onward qs (H.feed ps c s) := by
  induction ps generalizing c s with
  | nil => rfl
  | cons p ps ih =>
      rw [List.cons_append, feed_cons, feed_cons]
      rcases H.turn p c s with ⟨_ | d, t⟩
      · rfl
      · exact ih

/-- What is seen only grows, over turns. -/
theorem onward_seen (ps : List (List Byte)) (r : Option Conn × Session W) :
    r.2.seen <+: (H.onward ps r).2.seen := by
  induction ps generalizing r with
  | nil => rcases r with ⟨_ | c, s⟩ <;> exact List.prefix_rfl
  | cons p ps ih =>
      rcases r with ⟨_ | c, s⟩
      · exact List.prefix_rfl
      · rw [onward, feed_cons]
        exact (replay_seen _ p s).trans (ih _)

/-- A connection that has ended takes no more turns. -/
theorem onward_none {r : Option Conn × Session W} (h : r.1 = none) : H.onward ps r = r := by
  rcases r with ⟨_ | c, s⟩
  · rfl
  · cases h

/-- What is seen of a session is seen of its pieces. -/
theorem talk_seen : (H.talk ps c s).seen = (H.feed ps c s).2.seen := by
  rw [talk]
  rcases H.feed ps c s with ⟨_ | d, t⟩
  · rfl
  · exact (turn_over (.inr rfl)).2

/-! ### Lines, byte by byte -/

/-- The smallest pieces. -/
def bytes (x : List Byte) : List (List Byte) := x.map fun b => [b]

theorem bytes_append (x y : List Byte) : bytes (x ++ y) = bytes x ++ bytes y := List.map_append

theorem line_hold (raw : List Byte) :
    H.line raw (c.hold x) s = ((H.line raw c s).1.hold x, (H.line raw c s).2) := by
  rw [line, handleLine_hold, run_bind]
  rfl

/-- Without a newline nothing is cut off. -/
theorem processLinesFrom_none {n : ℕ} (hn : nl ∉ c.ibuf) : processLinesFrom n c = .ret c := by
  cases n with
  | zero => rfl
  | succ n => rw [processLinesFrom, if_neg hn]; rfl

/-- A turn with a buffer that is not too long. -/
theorem pumpLines_fit (hl : c.ibuf.length ≤ 8192) : pumpLines c = some <$> processLines c := by
  rw [pumpLines, if_neg (Nat.not_lt.mpr hl)]

theorem takeWhile_line {raw rest : List Byte} (hn : nl ∉ raw) :
    (raw ++ nl :: rest).takeWhile (· != nl) = raw := by
  rw [List.takeWhile_append_of_pos]
  · simp
  · intro b hb
    have hne : b ≠ nl := by
      rintro rfl
      exact hn hb
    simpa using hne

theorem drop_line {buf raw rest : List Byte} (hbuf : buf = raw ++ nl :: rest) :
    buf.drop (raw.length + 1) = rest := by
  rw [hbuf, List.drop_append, List.drop_eq_nil_of_le (Nat.le_succ _), Nat.add_sub_cancel_left]
  rfl

/-- **A line of the buffer**, and those that follow it. -/
theorem run_lines {raw rest : List Byte} (n : ℕ) (hn : nl ∉ raw) (hbuf : c.ibuf = raw ++ nl :: rest) :
    H.run (processLinesFrom (n + 1) c) s =
      if (H.line raw c s).1.closed = true ∨ (H.line raw c s).1.binary = true then
        ((H.line raw c s).1.hold rest, (H.line raw c s).2)
      else H.run (processLinesFrom n ((H.line raw c s).1.hold rest)) (H.line raw c s).2 := by
  have hmem : nl ∈ c.ibuf := by
    rw [hbuf]
    exact List.mem_append_right _ (List.mem_cons_self ..)
  have hraw : c.ibuf.takeWhile (· != nl) = raw := by rw [hbuf, takeWhile_line hn]
  have hdrop : c.ibuf.drop (raw.length + 1) = rest := drop_line hbuf
  have hrun : H.run (processLinesFrom (n + 1) c) s =
      H.run (handleLine c (lineText raw) >>= fun d =>
        if d.closed = true ∨ d.binary = true then .ret (d.hold rest)
        else processLinesFrom n (d.hold rest)) (s.mark (.line raw)) := by
    rw [processLinesFrom, if_pos hmem]
    simp only [hraw, hdrop]
    rfl
  rw [hrun, run_bind]
  change H.run (if (H.line raw c s).1.closed = true ∨ (H.line raw c s).1.binary = true then _ else _)
    (H.line raw c s).2 = _
  split <;> rfl

/-- There is room for one byte more. -/
theorem room_le (h : c.ibuf.length ≤ 8192) (b : Byte) : [b].length ≤ ibufSize - c.ibuf.length := by
  rw [List.length_singleton, ibufSize]
  omega

/-- Part of a line. -/
theorem feed_part (hc : c.closed = false) (hb : c.binary = false) (hn : nl ∉ c.ibuf ++ x)
    (hl : (c.ibuf ++ x).length ≤ 8192) :
    H.feed (bytes x) c s = (some (c.hold (c.ibuf ++ x)), s) := by
  induction x generalizing c with
  | nil =>
      rw [List.append_nil]
      rfl
  | cons b x ih =>
      have hsplit : c.ibuf ++ b :: x = (c.ibuf ++ [b]) ++ x := List.append_cons ..
      rw [hsplit] at hn hl ⊢
      rw [List.length_append] at hl
      have hturn : H.turn [b] c s = (some (c.hold (c.ibuf ++ [b])), s) := by
        have hlen : (c.ibuf ++ [b]).length ≤ 8192 := by omega
        have hlen' : c.ibuf.length ≤ 8192 := by
          rw [List.length_append] at hlen
          omega
        rw [turn_eq hc (List.cons_ne_nil b []) (room_le hlen' b), if_neg (by simp [hb]),
          pumpLines_fit hlen, processLines,
          processLinesFrom_none (c := c.hold (c.ibuf ++ [b]))
            (fun hm => hn (List.mem_append_left _ hm))]
        rfl
      change H.feed ([b] :: bytes x) c s = _
      rw [feed_cons, hturn]
      exact ih hc hb hn (by rw [List.length_append]; exact hl)

/-- A line. -/
theorem feed_line {raw : List Byte} (hc : c.closed = false) (hb : c.binary = false) (hn : nl ∉ raw)
    (hl : raw.length < 8192) :
    H.feed (bytes (raw ++ [nl])) (c.hold []) s =
      (some ((H.line raw c s).1.hold []), (H.line raw c s).2) := by
  have hpart : H.feed (bytes raw) (c.hold []) s = (some (c.hold raw), s) :=
    feed_part (c := c.hold []) hc hb hn hl.le
  rw [bytes_append, feed_append, hpart]
  change H.feed [[nl]] (c.hold raw) s = _
  rw [feed_cons,
    turn_eq (c := c.hold raw) hc (List.cons_ne_nil nl []) (room_le (c := c.hold raw) hl.le nl),
    if_neg (by simp [hb]), pumpLines_fit
    (by rw [hold_ibuf, hold_ibuf, List.length_append]; exact hl), processLines]
  have hlen : ((c.hold raw).hold ((c.hold raw).ibuf ++ [nl])).ibuf.length = raw.length + 1 := by simp
  rw [hlen]
  change H.onward [] (H.run (processLinesFrom (raw.length + 1) (c.hold (raw ++ [nl])) >>=
    fun d => .ret (some d)) s) = _
  rw [run_bind, run_lines (c := c.hold (raw ++ [nl])) raw.length hn rfl, line_hold]
  split
  · rfl
  · rw [processLinesFrom_none (by simp)]
    rfl

/-- The text of the error that ends a connection whose line is too long. -/
def protocolError : List Byte := lit "protocol error\r\nCMD_ERR\r\n"

/-- A buffer that is too long ends the connection. -/
theorem pumpLines_long (hl : 8192 < c.ibuf.length) :
    (H.run (pumpLines c) s).1 = none ∧
      (H.run (pumpLines c) s).2.seen = s.seen ++ [.reply protocolError] := by
  rw [pumpLines, if_pos hl]
  exact run_closed (s := { s with seen := s.seen ++ [.reply protocolError] }) c none

/-- A line that is too long. -/
theorem feed_long (hc : c.closed = false) (hb : c.binary = false) (hl : 8192 < x.length)
    (hn : nl ∉ x.take 8192) :
    (H.feed (bytes x) (c.hold []) s).1 = none ∧
      (H.feed (bytes x) (c.hold []) s).2.seen = s.seen ++ [.reply protocolError] := by
  have hlen : (x.take 8192).length = 8192 := List.length_take_of_le hl.le
  obtain ⟨b, rest, hrest⟩ : ∃ b rest, x.drop 8192 = b :: rest :=
    List.exists_cons_of_length_pos (by rw [List.length_drop]; omega)
  have hpart : H.feed (bytes (x.take 8192)) (c.hold []) s = (some (c.hold (x.take 8192)), s) :=
    feed_part (c := c.hold []) hc hb hn hlen.le
  rw [← List.take_append_drop 8192 x, bytes_append, feed_append, hpart, hrest]
  change (H.feed ([b] :: bytes rest) (c.hold (x.take 8192)) s).1 = none ∧
    (H.feed ([b] :: bytes rest) (c.hold (x.take 8192)) s).2.seen = _
  rw [feed_cons, turn_eq (c := c.hold (x.take 8192)) hc (List.cons_ne_nil b [])
    (room_le (c := c.hold (x.take 8192)) hlen.le b), if_neg (by simp [hb])]
  obtain ⟨hnone, hseen⟩ := pumpLines_long (H := H) (s := s)
    (c := (c.hold (x.take 8192)).hold ((c.hold (x.take 8192)).ibuf ++ [b]))
    (by rw [hold_ibuf, hold_ibuf, List.length_append, hlen]; exact Nat.lt_succ_self _)
  rw [onward_none hnone]
  exact ⟨hnone, hseen⟩

/-! ### A payload, byte by byte -/

variable (H) in
/-- How a write may be cut, and that no upload is of zero bytes.  `Open` is where an image is being
written.  Whether `fwrite` takes all it is given shows in the count it returns. -/
structure Seamless (Open : W → Prop) : Prop where
  begins : ∀ sha size w, (H.exec (.upgradeBegin sha size) w).1 = none →
    0 < size ∧ Open (H.exec (.upgradeBegin sha size) w).2
  fwrite : ∀ (f : Stream) (p q : List Byte) (w : W), p ≠ [] → q ≠ [] →
    let r := H.exec (.fwrite f p) w
    let r' := H.exec (.fwrite r.1.2 q) r.2
    let t := H.exec (.fwrite f (p ++ q)) w
    (t.1.1 = (p ++ q).length ↔ r.1.1 = p.length ∧ r'.1.1 = q.length) ∧
      (t.1.1 = (p ++ q).length → t.1.2 = r'.1.2 ∧ t.2 = r'.2)
  upgrade : ∀ (p q : List Byte) (w : W), Open w → p ≠ [] → q ≠ [] →
    let r := H.exec (.upgradeWrite p) w
    let r' := H.exec (.upgradeWrite q) r.2
    let t := H.exec (.upgradeWrite (p ++ q)) w
    t.1 = r.1.or r'.1 ∧ (t.1 = none → t.2 = r'.2)
  opened : ∀ (p : List Byte) (w : W), Open w → (H.exec (.upgradeWrite p) w).1 = none →
    Open (H.exec (.upgradeWrite p) w).2

/-- What is replied to a write of an image. -/
def errSeen : Option (List Byte) → List Seen
  | none => []
  | some err => [.reply (Text.CStr.store 256 (err ++ lit "\r\nCMD_ERR\r\n")).1]

theorem binWrite_put {f : Stream} (hm : c.mode = .putconf) (hf : c.pcfp = some f) :
    H.run (binWrite c p) s = ((decide ((H.exec (.fwrite f p) s.host).1.1 = p.length),
        { c with pcfp := some (H.exec (.fwrite f p) s.host).1.2 }),
      ⟨(H.exec (.fwrite f p) s.host).2, s.seen, s.part ++ p⟩) := by
  obtain ⟨authed, closed, ibuf, binary, bleft, mode, pcfp⟩ := c
  cases hm
  cases hf
  rfl

/-- A payload without a mode is thrown away. -/
theorem binWrite_line (hm : c.mode = .line) :
    H.run (binWrite c p) s = ((true, c), ⟨s.host, s.seen, s.part ++ p⟩) := by
  obtain ⟨authed, closed, ibuf, binary, bleft, mode, pcfp⟩ := c
  cases hm
  rfl

/-- A part of a `putconf` whose file is gone. -/
theorem binWrite_closed (hm : c.mode = .putconf) (hf : c.pcfp = none) :
    H.run (binWrite c p) s = ((false, c), ⟨s.host, s.seen, s.part ++ p⟩) := by
  obtain ⟨authed, closed, ibuf, binary, bleft, mode, pcfp⟩ := c
  cases hm
  cases hf
  rfl

theorem binWrite_up (hm : c.mode = .upgrade) :
    H.run (binWrite c p) s = (((H.exec (.upgradeWrite p) s.host).1.isNone, c),
      ⟨(H.exec (.upgradeWrite p) s.host).2,
        s.seen ++ errSeen (H.exec (.upgradeWrite p) s.host).1, s.part ++ p⟩) := by
  obtain ⟨authed, closed, ibuf, binary, bleft, mode, pcfp⟩ := c
  cases hm
  have hgo : H.run (binWrite ⟨authed, closed, ibuf, binary, bleft, .upgrade, pcfp⟩ p) s =
      H.run (match (H.exec (.upgradeWrite p) s.host).1 with
        | none => .ret (true, ⟨authed, closed, ibuf, binary, bleft, .upgrade, pcfp⟩)
        | some err => sendErr err >>= fun _ =>
            .ret (false, ⟨authed, closed, ibuf, binary, bleft, .upgrade, pcfp⟩))
        ⟨(H.exec (.upgradeWrite p) s.host).2, s.seen, s.part ++ p⟩ := by
    cases pcfp <;> rfl
  rw [hgo]
  rcases H.exec (.upgradeWrite p) s.host with ⟨_ | err, w⟩
  · simp [run, replay, errSeen]
  · rfl

/-- `bin_write` leaves the connection, but for its file. -/
theorem binWrite_file (p : List Byte) (c : Conn) (s : Session W) :
    ∃ f, (H.run (binWrite c p) s).1.2 = { c with pcfp := f } := by
  obtain ⟨authed, closed, ibuf, binary, bleft, mode, pcfp⟩ := c
  cases mode with
  | line => exact ⟨pcfp, rfl⟩
  | putconf =>
      cases pcfp with
      | none => exact ⟨none, rfl⟩
      | some f => exact ⟨_, rfl⟩
  | upgrade => exact ⟨pcfp, by rw [binWrite_up rfl]⟩

variable {Open : W → Prop}

/-- What is left of the payload has no part in a write. -/
theorem run_binWrite_left (n : ℕ) (p : List Byte) (c : Conn) (s : Session W) :
    H.run (binWrite { c with bleft := n } p) s =
      (((H.run (binWrite c p) s).1.1, { (H.run (binWrite c p) s).1.2 with bleft := n }),
        (H.run (binWrite c p) s).2) := by
  rw [binWrite_left, run_bind]
  rfl

/-- After a write of an image more may be written. -/
theorem binWrite_open (hS : H.Seamless Open) (hm : c.mode = .upgrade) (ho : Open s.host)
    (hok : (H.run (binWrite c p) s).1.1 = true) : Open (H.run (binWrite c p) s).2.host := by
  rw [binWrite_up hm] at hok ⊢
  exact hS.opened p s.host ho (Option.isNone_iff_eq_none.mp hok)

/-- **A write may be cut**: it fails where the first of two does, or the second. -/
theorem binWrite_append (hS : H.Seamless Open) (ho : c.mode = .upgrade → Open s.host) (hp : p ≠ [])
    (hq : q ≠ []) {r r' t : (Bool × Conn) × Session W} (hr : H.run (binWrite c p) s = r)
    (hr' : H.run (binWrite r.1.2 q) r.2 = r') (ht : H.run (binWrite c (p ++ q)) s = t) :
    t.1.1 = (r.1.1 && r'.1.1) ∧ (r.1.1 = false → t.2.seen = r.2.seen) ∧
      (r.1.1 = true → t.2.seen = r'.2.seen) ∧ (t.1.1 = true → t = r') := by
  rcases hm : c.mode with _ | _ | _
  · rw [binWrite_line hm] at hr ht
    subst hr
    rw [binWrite_line hm] at hr'
    subst hr' ht
    rw [List.append_assoc]
    exact ⟨rfl, fun _ => rfl, fun _ => rfl, fun _ => rfl⟩
  · rcases hf : c.pcfp with _ | f
    -- no file is open, so nothing is written
    · rw [binWrite_closed hm hf] at hr ht
      subst hr
      rw [binWrite_closed hm hf] at hr'
      subst hr' ht
      rw [List.append_assoc]
      exact ⟨rfl, fun _ => rfl, fun _ => rfl, fun _ => rfl⟩
    · rw [binWrite_put hm hf] at hr ht
      subst hr
      rw [binWrite_put (c := { c with pcfp := some (H.exec (.fwrite f p) s.host).1.2 }) hm rfl] at hr'
      subst hr' ht
      obtain ⟨hall, heq⟩ := hS.fwrite f p q s.host hp hq
      refine ⟨by rw [← Bool.decide_and]; exact decide_eq_decide.mpr hall, fun _ => rfl, fun _ => rfl, fun h => ?_⟩
      have ht := of_decide_eq_true h
      obtain ⟨hfile, hhost⟩ := heq ht
      dsimp only
      rw [hfile, hhost, List.append_assoc, decide_eq_true ht, decide_eq_true (hall.mp ht).2]
  · rw [binWrite_up hm] at hr ht
    subst hr
    rw [binWrite_up hm] at hr'
    subst hr' ht
    obtain ⟨hor, heq⟩ := hS.upgrade p q s.host (ho hm) hp hq
    dsimp only at hor heq ⊢
    rw [hor] at heq ⊢
    rcases h : (H.exec (.upgradeWrite p) s.host).1 with _ | err
    · rw [h, Option.none_or] at heq
      refine ⟨by simp, by simp, by simp [errSeen], fun h' => ?_⟩
      rw [Option.none_or, Option.isNone_iff_eq_none] at h'
      rw [heq h', h', List.append_assoc]
      simp [errSeen]
    · exact ⟨by simp, by simp, by simp, by simp⟩

/-- The same, or at an end of the same. -/
def Like {α : Type} (r r' : Option α × Session W) : Prop :=
  r = r' ∨ r.1 = none ∧ r'.1 = none ∧ r.2.seen = r'.2.seen

section Like

variable {α : Type} {r r' r'' : Option α × Session W}

theorem Like.trans (h : Like r r') (h' : Like r' r'') : Like r r'' := by
  rcases h with rfl | ⟨h₁, h₂, h₃⟩
  · exact h'
  · rcases h' with rfl | ⟨-, h₄, h₅⟩
    · exact .inr ⟨h₁, h₂, h₃⟩
    · exact .inr ⟨h₁, h₄, h₃.trans h₅⟩

/-- What is seen is the same. -/
theorem Like.seen (h : Like r r') : r.2.seen = r'.2.seen := by
  rcases h with rfl | ⟨-, -, h⟩
  · rfl
  · exact h

theorem Like.none (h : Like r r') (hd : r'.1 = none) : r.1 = none := by
  rcases h with rfl | ⟨h', -, -⟩
  · exact hd
  · exact h'

/-- And going on is going on alike. -/
theorem Like.some {a : α} {t : Session W} (h : Like r (some a, t)) : r = (some a, t) := by
  rcases h with h | ⟨-, h', -⟩
  · exact h
  · cases h'

end Like

/-- A write, and the counting behind it. -/
theorem payStep_run (x : List Byte) (c : Conn) (s : Session W) :
    H.run (payStep c x) s =
      H.run (payAfter x.length (H.run (binWrite c x) s).1) (H.run (binWrite c x) s).2 :=
  run_bind _ _ s

/-- A write has failed. -/
theorem payAfter_failed {n : ℕ} {r : Bool × Conn} (hr : r.1 = false) (s : Session W) :
    Like (H.run (payAfter n r) s) (none, s) := by
  obtain ⟨ok, d⟩ := r
  obtain rfl : ok = false := hr
  obtain ⟨hnone, hseen⟩ := run_closed (H := H) d (none : Option (Conn × Bool)) s
  exact .inr ⟨hnone, rfl, hseen⟩

/-- A payload that is not over. -/
theorem payAfter_more {n : ℕ} {r : Bool × Conn} (hr : r.1 = true) (hn : n < r.2.bleft)
    (s : Session W) :
    H.run (payAfter n r) s = (some ({ r.2 with bleft := r.2.bleft - n }, false), s) := by
  obtain ⟨ok, d⟩ := r
  obtain rfl : ok = true := hr
  have hne : d.bleft - n ≠ 0 := Nat.sub_ne_zero_of_lt hn
  rw [payAfter]
  dsimp only
  rw [if_neg (by decide), if_pos hne]
  rfl

/-- The counting of a write that is cut. -/
theorem payAfter_cut {d : Conn} {n m k : ℕ} (hd : d.bleft = k) :
    payAfter m (true, { d with bleft := k - n }) = payAfter (n + m) (true, d) := by
  subst hd
  rw [payAfter, payAfter]
  dsimp only
  rw [Nat.sub_sub]
  rfl

/-- A part of a payload that is not all of it. -/
theorem payStep_part (hS : H.Seamless Open) (ho : c.mode = .upgrade → Open s.host)
    (hx : x.length < c.bleft) :
    Like (H.run (payStep c x) s) (none, (H.run (binWrite c x) s).2) ∨
      ∃ f t, H.run (payStep c x) s =
          (some ({ c with bleft := c.bleft - x.length, pcfp := f }, false), t) ∧
        (c.mode = .upgrade → Open t.host) := by
  obtain ⟨f, hf⟩ := binWrite_file (H := H) x c s
  have hopen := fun hm => binWrite_open (p := x) (s := s) hS hm (ho hm)
  rw [payStep_run]
  generalize H.run (binWrite c x) s = r at *
  obtain ⟨⟨ok, d⟩, t⟩ := r
  obtain rfl : d = { c with pcfp := f } := hf
  cases ok with
  | false => exact .inl (payAfter_failed rfl t)
  | true =>
      right
      rw [payAfter_more (r := (true, { c with pcfp := f })) rfl hx]
      exact ⟨f, t, rfl, fun hm => hopen hm rfl⟩

/-- **A payload in two parts** is one. -/
theorem payStep_append (hS : H.Seamless Open) (ho : c.mode = .upgrade → Open s.host) (hp : p ≠ [])
    (hq : q ≠ []) (hl : p.length + q.length ≤ c.bleft) {r : Option (Conn × Bool) × Session W}
    (hr : H.run (payStep c p) s = r) :
    Like (match r with
      | (none, t) => (none, t)
      | (some (d, _), t) => H.run (payStep d q) t) (H.run (payStep c (p ++ q)) s) := by
  obtain ⟨f, hf⟩ := binWrite_file (H := H) p c s
  obtain ⟨hok, hfst, hsnd, heq⟩ := binWrite_append (s := s) hS ho hp hq rfl rfl rfl
  rw [payStep_run] at hr ⊢
  generalize H.run (binWrite c p) s = w at *
  generalize H.run (binWrite c (p ++ q)) s = v at *
  obtain ⟨⟨ok, d⟩, t⟩ := w
  obtain rfl : d = { c with pcfp := f } := hf
  cases ok with
  | false =>
      -- the first part fails, and so does the whole
      have hlike := payAfter_failed (H := H) (n := p.length) (r := (false, { c with pcfp := f })) rfl t
      have hlike' := payAfter_failed (H := H) (n := (p ++ q).length) hok v.2
      rw [hr] at hlike
      obtain ⟨_ | a, u⟩ := r
      · exact .inr ⟨rfl, hlike'.none rfl, hlike.seen.trans ((hfst rfl).symm.trans hlike'.seen.symm)⟩
      · exact nomatch hlike.none rfl
  | true =>
      have hpos : 0 < q.length := List.length_pos_of_ne_nil hq
      rw [payAfter_more (r := (true, { c with pcfp := f })) rfl (show p.length < c.bleft by omega)] at hr
      subst hr
      obtain ⟨g, hg⟩ := binWrite_file (H := H) q { c with pcfp := f } t
      dsimp only at hok hsnd heq ⊢
      rw [payStep_run, run_binWrite_left (c.bleft - p.length) q { c with pcfp := f } t]
      generalize H.run (binWrite { c with pcfp := f } q) t = w' at *
      obtain ⟨⟨ok', d'⟩, u⟩ := w'
      obtain rfl : d' = { c with pcfp := g } := hg
      cases ok' with
      | false =>
          -- the second part fails
          have hlike := payAfter_failed (H := H) (n := q.length)
            (r := (false, { c with bleft := c.bleft - p.length, pcfp := g })) rfl u
          have hlike' := payAfter_failed (H := H) (n := (p ++ q).length) hok v.2
          exact .inr ⟨hlike.none rfl, hlike'.none rfl,
            hlike.seen.trans ((hsnd rfl).symm.trans hlike'.seen.symm)⟩
      | true =>
          -- both are written, and what follows starts from the same connection
          obtain rfl := heq hok
          left
          rw [List.length_append]
          exact congrArg (H.run · u) (payAfter_cut (d := { c with pcfp := g }) rfl)

/-- The rest of a piece behind a payload. -/
theorem Like.rest {r r' : Option (Conn × Bool) × Session W} (h : Like r r') (rest : List Byte) :
    Like (H.run (payRest rest r.1) r.2) (H.run (payRest rest r'.1) r'.2) := by
  rcases h with rfl | ⟨h₁, h₂, h₃⟩
  · exact .inl rfl
  · rw [h₁, h₂]
    exact .inr ⟨rfl, rfl, h₃⟩

/-- **A payload, byte by byte**, is what it is at once. -/
theorem feed_pay (hS : H.Seamless Open) (hc : c.closed = false) (hb : c.binary = true)
    (hi : c.ibuf = []) (ho : c.mode = .upgrade → Open s.host) (hx : x ≠ []) (hl : x.length ≤ c.bleft) :
    Like (H.feed (bytes x) c s) (H.run (payStep c x >>= payRest []) s) := by
  induction x generalizing c s with
  | nil => exact absurd rfl hx
  | cons b y ih =>
      rw [List.length_cons] at hl
      have hturn : H.turn [b] c s = H.run (payStep c [b] >>= payRest []) s := by
        have hroom : [b].length ≤ ibufSize - c.ibuf.length := by
          rw [hi, List.length_singleton, List.length_nil, ibufSize]
          exact Nat.le_of_ble_eq_true rfl
        rw [turn_eq hc (List.cons_ne_nil b []) hroom, if_pos hb, hi]
        refine congrArg (H.run · s) (pumpBinary_pay [] (List.cons_ne_nil b []) ?_)
        rw [List.append_nil, List.length_singleton]
        omega
      change Like (H.feed ([b] :: bytes y) c s) _
      rw [feed_cons, hturn]
      -- the last byte, or one that is followed by more of the same payload
      by_cases hy : y = []
      · subst hy
        left
        rcases H.run (payStep c [b] >>= payRest []) s with ⟨_ | d, t⟩ <;> rfl
      · have hpos : 0 < y.length := List.length_pos_of_ne_nil hy
        have happ := payStep_append (s := s) (p := [b]) (q := y) hS ho (List.cons_ne_nil b []) hy
          (by rw [List.length_singleton]; omega) rfl
        rw [run_bind, run_bind (payStep c (b :: y))]
        rcases payStep_part (x := [b]) (s := s) hS ho (show 1 < c.bleft by omega) with
          hend | ⟨f, t, hstep, hopen⟩
        -- the session ends with this byte
        · have hnone : (H.run (payStep c [b]) s).1 = none := hend.none rfl
          generalize H.run (payStep c [b]) s = r at *
          obtain ⟨_ | a, u⟩ := r
          · exact happ.rest []
          · cases hnone
        · rw [hstep] at happ ⊢
          have hbuf : ({ c with bleft := c.bleft - [b].length, pcfp := f } : Conn).hold [] =
              { c with bleft := c.bleft - [b].length, pcfp := f } := by
            rw [Conn.hold, hi]
          change Like (H.feed (bytes y)
            (({ c with bleft := c.bleft - [b].length, pcfp := f } : Conn).hold []) t) _
          rw [hbuf]
          refine (ih (c := { c with bleft := c.bleft - [b].length, pcfp := f }) (s := t) hc hb hi hopen hy
            (show y.length ≤ c.bleft - 1 by omega)).trans ?_
          rw [run_bind]
          exact happ.rest []

end Host

end

end LinuxRouter
