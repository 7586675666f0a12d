import LinuxRouter.Config.Load
import LinuxRouter.Config.RoundTrip
import LinuxRouter.Remote.Parts

/-!
# Remote — presenting the password

A password is stored as a line of `router.conf` has it behind the `=`, and compared with a word of a
line of the connection.

* `handleAuth_run`, `handleLine_auth`: what a line `auth …` does.
* `Sends`: a peer that sends some bytes, cut in any way; `connRounds_line`: the connection after a
  line of `auth`, once it is complete.
* `password_presents_iff`: the passwords that let a connection in.  `password_locked_out`.

A password goes through two readings.  On the way in it is what stands behind the `=` of its line,
with whatever else the line has; on the way to the comparison it is the first word behind `auth`.  It
lets a connection in exactly if it survives both, that is, if it is a word itself; it is never too
long for its line, since what is stored is not.  How the peer cuts its bytes plays no part, because
the connection waits for the newline (`connRounds_line`).
-/

namespace LinuxRouter

open Text (lit nl cr blank isWhite splitWords IsWord)
open Program (Prog replay)

/-! ### The words of the line -/

theorem splitWords_blank (n : ℕ) (s : List Byte) : splitWords n (blank :: s) = splitWords n s := by
  cases n with
  | zero => rfl
  | succ n =>
      rw [splitWords, splitWords, List.dropWhile_cons_of_pos (by decide)]

/-- A word that is not the last one there is room for has no white byte. -/
theorem head_splitWords {n : ℕ} {s w : List Byte} (h : (splitWords (n + 2) s).head? = some w) :
    ∀ b ∈ w, isWhite b = false := by
  rw [splitWords] at h
  split at h
  · cases h
  · rw [if_neg (by omega)] at h
    cases h
    intro b hb
    simpa using List.mem_takeWhile_imp hb

/-- The word after `auth` is the rest of the line, if that has no white byte, and never otherwise. -/
theorem auth_word_iff {pw : List Byte} (hne : pw ≠ []) :
    (splitWords 23 (blank :: dropEnd cr pw)).head? = some pw ↔ ∀ b ∈ pw, isWhite b = false := by
  refine ⟨head_splitWords, fun h => ?_⟩
  have hcr : pw.getLast? ≠ some cr := by
    intro e
    exact absurd (h cr (List.mem_of_getLast? e)) (by decide)
  have hsplit := @Text.splitWords_spaced 22 pw [] ⟨hne, h⟩
    (fun _ hw => absurd hw List.not_mem_nil) (by decide)
  rw [Text.spaced, List.flatMap_nil, List.append_nil] at hsplit
  rw [splitWords_blank, dropEnd, if_neg hcr, hsplit]
  rfl

/-- `handle_line` gets the line without a carriage return at its end. -/
theorem lineText_auth {pw : List Byte} (hne : pw ≠ []) (hz : Text.nul ∉ pw) :
    lineText (lit "auth " ++ pw) = lit "auth" ++ blank :: dropEnd cr pw := by
  have hdrop : dropEnd cr (lit "auth " ++ pw) = lit "auth " ++ dropEnd cr pw := by
    unfold dropEnd
    rw [List.getLast?_append_of_ne_nil _ hne, List.dropLast_append_of_ne_nil hne]
    split <;> rfl
  have hz' : Text.nul ∉ lit "auth " ++ dropEnd cr pw := by
    rw [List.mem_append, not_or]
    refine ⟨by decide, fun hm => hz ?_⟩
    unfold dropEnd at hm
    split at hm
    · exact List.dropLast_subset _ hm
    · exact hm
  rw [lineText, hdrop, Text.cstr_eq_self hz']
  rfl

/-! ### A line of `auth` -/

variable {e : World} {s : Manage} {c : Conn}

/-- `auth`, where there is a password. -/
theorem handleAuth_run (h : s.settings.cfg.password.1 ≠ []) (args : List (List Byte)) :
    replay execM e (handleAuth c args) s =
      ({ c with authed := c.authed || args.head? = some s.settings.cfg.password.1 }, s) := by
  have hread : execM .password e s = (s.settings.cfg.password.1, s) := rfl
  have hrefuse : args.head? ≠ some s.settings.cfg.password.1 →
      { c with authed := c.authed || decide (args.head? = some s.settings.cfg.password.1) } = c := by
    intro hno
    simp [hno]
  unfold handleAuth
  simp only [Prog.perform_bind, replay]
  rw [hread]
  simp only [if_neg h]
  cases args with
  | nil => exact Prod.ext (hrefuse (by simp)).symm rfl
  | cons arg args =>
      simp only [replay]
      rw [hread]
      by_cases harg : arg = s.settings.cfg.password.1
      · simp only [List.head?_cons, harg, decide_true, Bool.or_true]
        rfl
      · simp only [if_neg harg]
        exact Prod.ext (hrefuse (by simpa using harg)).symm rfl

/-- The words of a line of `auth`. -/
theorem tokSplit_auth (t : List Byte) :
    tokSplit (lit "auth" ++ blank :: t) 24 = lit "auth" :: splitWords 23 (blank :: t) := rfl

/-- The connection after a line of `auth`. -/
theorem handleLine_auth (h : s.settings.cfg.password.1 ≠ []) {t : List Byte} (ht : t.length < 500) :
    replay execM e (handleLine c (lit "auth" ++ blank :: t)) s =
      ({ c with authed := c.authed ||
          (splitWords 23 (blank :: t)).head? = some s.settings.cfg.password.1 }, s) := by
  have hlen : ¬ 512 ≤ (lit "auth" ++ blank :: t).length := by
    have h4 : (lit "auth").length = 4 := by decide
    rw [List.length_append, h4, List.length_cons]
    omega
  have hauth : (Text.CStr.store 16 (lit "auth")).1 = lit "auth" := by decide
  rw [handleLine, if_neg hlen, tokSplit_auth]
  simp only [hauth, if_true]
  exact handleAuth_run h _

/-! ### The connection -/

/-- A peer that sends `bytes` and leaves the connection open, in the pieces that `recv` gets. -/
def Sends (es : List World) (bytes : List Byte) : Prop :=
  (∀ e ∈ es, e.stop = false ∧ e.recv ≠ []) ∧ (es.map (·.recv)).flatten = bytes

/-- The turns of `conn_pump`, one for each answer of the outside world. -/
def connRounds : List World → Conn → Manage → Option Conn × Manage
  | [], c, s => (some c, s)
  | e :: es, c, s =>
      match replay execM e (connRound c) s with
      | (none, s) => (none, s)
      | (some c, s) => connRounds es c s

/-- A connection that waits for a line. -/
structure Waits (c : Conn) : Prop where
  closed : c.closed = false
  binary : c.binary = false

/-- Bytes that arrive are looked at for lines. -/
theorem connRound_recv (hc : Waits c) (hstop : e.stop = false) (hne : e.recv ≠ [])
    (hroom : c.ibuf.length + e.recv.length ≤ 8192) :
    replay execM e (connRound c) s =
      replay execM e (some <$> processLines { c with ibuf := c.ibuf ++ e.recv }) s := by
  have hrecv : execM (.recv (ibufSize - c.ibuf.length)) e s = (e.recv, s) := by
    change (e.recv.take _, s) = _
    rw [List.take_of_length_le]
    rw [ibufSize]
    omega
  have hread : execM .stop e s = (false, s) := congrArg (·, s) hstop
  have hlen : ¬ 8192 < (c.ibuf ++ e.recv).length := by
    rw [List.length_append]
    omega
  unfold connRound
  simp only [hc.closed, Bool.false_eq_true, if_false, Prog.perform_bind, replay]
  rw [hread]
  simp only [Bool.false_eq_true, if_false, replay]
  rw [hrecv]
  simp only [hne, if_false, hc.binary, Bool.false_eq_true, pumpLines, hlen]

/-- Without a newline there is no line. -/
theorem processLines_open (h : nl ∉ c.ibuf) :
    replay execM e (some <$> processLines c) s = (some c, s) := by
  unfold processLines
  cases c.ibuf.length with
  | zero => rfl
  | succ n =>
      rw [processLinesFrom, if_neg h]
      rfl

/-- A line alone in the buffer. -/
theorem processLines_line {line : List Byte} (hbuf : c.ibuf = line ++ [nl]) (hl : nl ∉ line)
    {d : Conn} (hd : Waits d) (hrun : replay execM e (handleLine c (lineText line)) s = (d, s)) :
    replay execM e (some <$> processLines c) s = (some { d with ibuf := [] }, s) := by
  have hraw : c.ibuf.takeWhile (· != nl) = line := by
    have hall : ∀ b ∈ line, (b != nl) = true := by
      intro b hb
      rw [bne_iff_ne]
      rintro rfl
      exact hl hb
    rw [hbuf, List.takeWhile_append_of_pos hall, List.takeWhile_cons_of_neg (by simp),
      List.append_nil]
  have hrest : c.ibuf.drop (line.length + 1) = [] := by
    rw [hbuf, List.drop_eq_nil_iff, List.length_append, List.length_singleton]
  have hn : c.ibuf.length = line.length + 1 := by
    rw [hbuf, List.length_append, List.length_singleton]
  have hmem : nl ∈ c.ibuf := by
    rw [hbuf]
    simp
  have hdone : replay execM e (processLinesFrom line.length { d with ibuf := [] }) s =
      ({ d with ibuf := [] }, s) := by
    cases line.length with
    | zero => rfl
    | succ n =>
        rw [processLinesFrom, if_neg (by simp)]
        rfl
  have hgo : ¬ (d.closed = true ∨ d.binary = true) := by
    rw [hd.closed, hd.binary]
    decide
  have hlines : replay execM e (processLines c) s = ({ d with ibuf := [] }, s) := by
    rw [processLines, hn, processLinesFrom, if_pos hmem, hraw]
    simp only [Prog.perform_bind, replay, Program.replay_bind]
    rw [show (execM (.mark (.line line)) e s).2 = s from rfl, hrun]
    simp only [if_neg hgo, hrest]
    exact hdone
  rw [Prog.map_eq, Program.replay_bind, hlines]
  rfl

/-- A list of pieces, none of them empty, that make up nothing. -/
theorem sends_nil {es : List World} (h : Sends es []) : es = [] := by
  cases es with
  | nil => rfl
  | cons e es =>
      have hnil := (List.append_eq_nil_iff.mp h.2).1
      exact absurd hnil (h.1 e List.mem_cons_self).2

/-- **The connection when a line is complete**, however it was cut. -/
theorem connRounds_line {line : List Byte} (hl : nl ∉ line) (hlen : line.length < 8192)
    {f : Conn → Conn} (hf : ∀ c, Waits c → Waits (f c))
    (hrun : ∀ e c, replay execM e (handleLine c (lineText line)) s = (f c, s))
    {es : List World} {rest : List Byte} (hc : Waits c) (hes : Sends es rest) (hne : rest ≠ [])
    (hbuf : c.ibuf ++ rest = line ++ [nl]) :
    connRounds es c s = (some { f { c with ibuf := line ++ [nl] } with ibuf := [] }, s) := by
  induction es generalizing c rest with
  | nil => exact absurd hes.2.symm hne
  | cons e es ih =>
      obtain ⟨hall, hflat⟩ := hes
      obtain ⟨hstop, hpiece⟩ := hall e List.mem_cons_self
      have hes' : Sends es (es.map (·.recv)).flatten :=
        ⟨fun e' he' => hall e' (List.mem_cons_of_mem _ he'), rfl⟩
      have hrest : e.recv ++ (es.map (·.recv)).flatten = rest := hflat
      rw [← hrest, ← List.append_assoc] at hbuf
      have hsize : c.ibuf.length + e.recv.length ≤ line.length + 1 := by
        have := congrArg List.length hbuf
        simp only [List.length_append, List.length_singleton] at this
        omega
      rw [connRounds, connRound_recv hc hstop hpiece (by omega)]
      rcases List.eq_nil_or_concat (es.map (·.recv)).flatten with hnil | ⟨q, b, hq⟩
      · -- the newline has arrived
        rw [hnil, List.append_nil] at hbuf
        rw [hnil] at hes'
        rw [sends_nil hes']
        have hc' : Waits { c with ibuf := c.ibuf ++ e.recv } := ⟨hc.closed, hc.binary⟩
        rw [processLines_line hbuf hl (hf _ hc') (hrun e _)]
        rw [hbuf]
        rfl
      · rw [List.concat_eq_append] at hq
        rw [hq, ← List.append_assoc] at hbuf
        obtain ⟨hline, -⟩ := List.append_inj' hbuf rfl
        have hopen : nl ∉ c.ibuf ++ e.recv := fun hm => hl (hline ▸ List.mem_append_left _ hm)
        rw [processLines_open hopen]
        have hne' : (es.map (·.recv)).flatten ≠ [] := by
          rw [hq]
          simp
        refine @ih { c with ibuf := c.ibuf ++ e.recv } _ ⟨hc.closed, hc.binary⟩ hes' hne' ?_
        rw [hq, ← List.append_assoc]
        exact hbuf

/-! ### The passwords -/

/-- A password that `config_load` can store. -/
def Storable (pw : Text.CStr 64) : Prop := ∃ file s, (configLoad file s).cfg.password = pw

/-- The connection of a peer that sends `auth` and the password. -/
def presented (e : World) (es : List World) (s : Manage) : Option Conn :=
  (connRounds es (replay execM e connStart s).1 (replay execM e connStart s).2).1

/-- **Which passwords can be presented.**  A peer that sends `auth` and exactly the stored password, in
any pieces, is let in if and only if the password has no blank, tab or carriage return. -/
theorem password_presents_iff {s : Manage} (hs : Storable s.settings.cfg.password)
    (hne : s.settings.cfg.password.1 ≠ []) {e : World} {es : List World}
    (hes : Sends es (lit "auth " ++ s.settings.cfg.password.1 ++ [nl])) :
    (∃ c, presented e es s = some c ∧ c.authed = true) ↔
      ∀ b ∈ s.settings.cfg.password.1, isWhite b = false := by
  obtain ⟨hlen, hz⟩ := s.settings.cfg.password.2
  have hnl : nl ∉ s.settings.cfg.password.1 := by
    obtain ⟨file, s₀, e₀⟩ := hs
    rw [← e₀]
    exact (nl_notMem_texts file s₀).2
  have hauth : (lit "auth ").length = 5 := by decide
  have hl : nl ∉ lit "auth " ++ s.settings.cfg.password.1 := by
    rw [List.mem_append, not_or]
    exact ⟨by decide, hnl⟩
  have hdrop : (dropEnd cr s.settings.cfg.password.1).length < 500 := by
    unfold dropEnd
    split
    · rw [List.length_dropLast]
      omega
    · omega
  have hstart : replay execM e connStart s = (Conn.init, s) := by
    change ({ Conn.init with authed := decide (s.settings.cfg.password.1 = []) }, s) = _
    rw [decide_eq_false hne]
    rfl
  have hrounds := @connRounds_line s Conn.init _ hl (by rw [List.length_append, hauth]; omega)
    (fun c => { c with authed := c.authed || (splitWords 23
      (blank :: dropEnd cr s.settings.cfg.password.1)).head? = some s.settings.cfg.password.1 })
    (fun c hc => ⟨hc.closed, hc.binary⟩)
    (fun e c => by
      rw [lineText_auth hne hz]
      exact handleLine_auth hne hdrop) es _ ⟨rfl, rfl⟩ hes (by simp) rfl
  rw [presented, hstart, hrounds, ← auth_word_iff hne]
  simp [Conn.init]

/-! ### Two passwords -/

/-- A peer that sends some bytes at once. -/
def World.sending (bytes : List Byte) : World := { World.fair with recv := bytes }

/-- A router that has loaded a file. -/
def Manage.loaded (file : List Byte) : Manage :=
  { Manage.guarded [] file with settings := configLoad file .fresh }

/-- A word as password, sent in two pieces. -/
theorem password_presents_word :
    ∃ c, presented .fair [.sending (lit "auth sec"), .sending (lit "ret\n")]
      (.loaded (lit "[router]\npassword=secret\n")) = some c ∧ c.authed = true := by
  have hpw : (Manage.loaded (lit "[router]\npassword=secret\n")).settings.cfg.password.1 =
      lit "secret" := by decide +kernel
  refine (password_presents_iff ⟨lit "[router]\npassword=secret\n", .fresh, rfl⟩ ?_ ⟨?_, ?_⟩).mpr ?_
  · rw [hpw]
    decide
  · intro e he
    rcases List.mem_pair.mp he with rfl | rfl
    all_goals exact ⟨rfl, by decide⟩
  · rw [hpw]
    decide
  · rw [hpw]
    decide +kernel

/-- **A password that locks everyone out**: `my pass` is stored with its blank, and `auth my pass`
presents `my`. -/
theorem password_locked_out :
    let s := Manage.loaded (lit "[router]\npassword=my pass\n")
    Storable s.settings.cfg.password ∧ s.settings.cfg.password.1 = lit "my pass" ∧
      (presented .fair [.sending (lit "auth my pass\n")] s).map (·.authed) = some false := by
  refine ⟨⟨lit "[router]\npassword=my pass\n", .fresh, rfl⟩, ?_, ?_⟩
  all_goals decide +kernel

end LinuxRouter
