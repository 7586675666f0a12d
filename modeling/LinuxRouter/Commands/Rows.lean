import LinuxRouter.Config.RoundTrip
import LinuxRouter.Model.Show

/-!
# Commands — tables in `out`

A row of a table is a text without a NUL, and so short that the offset of the loop that prints it
does not wrap (`Row`).

* `row_fwRow`, `row_routeRow`, `row_ifaceRow`, `row_arpRow`, `row_pendRow`: the rows of the tables.
* `showRows_holds`: a table with a row leaves a string in `out`, whatever was there.
* `showTable_holds`: so does every table that has `(empty)` in place of no rows.

The loop of a table calls `snprintf` at `out + off` and adds to `off` what it returns, the length
that the row would have had, until `off` comes to the size of `out`.  A row that does not fit ends
the loop, unless the sum wraps; a row is short, so that it does not.  The string in `out` is then the
rows one after the other, cut to what fits, and `off` is 0 in the end only if there was no row, which
is what the line `(empty)` depends on.  A row's length is put together of its columns (`column`), each
a literal and a printed value of known width.
-/

namespace LinuxRouter

open Text (lit nul fmtInt fmtNat nul_notMem_lit)
open Printf (Holds Brief brief_ite padLeft padRight)

/-! ### Texts -/

/-- Two clean texts, one behind the other. -/
theorem notMem_append {s t : List Byte} (hs : nul ∉ s) (ht : nul ∉ t) : nul ∉ s ++ t := by
  rw [List.mem_append, not_or]
  exact ⟨hs, ht⟩

section Literals

variable {a b : List Char} {t : List Byte} (ht : nul ∉ t)
include ht

/-- A literal in front of a clean text. -/
theorem notMem_lit_append (ha : '\x00' ∉ a) : nul ∉ lit (String.ofList a) ++ t :=
  notMem_append (nul_notMem_lit ha) ht

/-- A literal behind a clean text. -/
theorem notMem_append_lit (ha : '\x00' ∉ a) : nul ∉ t ++ lit (String.ofList a) :=
  notMem_append ht (nul_notMem_lit ha)

/-- A text between two literals. -/
theorem notMem_between (ha : '\x00' ∉ a) (hb : '\x00' ∉ b) :
    nul ∉ lit (String.ofList a) ++ t ++ lit (String.ofList b) :=
  notMem_append_lit (notMem_lit_append ht ha) hb

end Literals

/-- An `int` takes 11 bytes at most. -/
theorem brief_fmtInt (x : CInt) : Brief 11 (fmtInt x.toInt) :=
  ⟨(Text.plain_fmtInt _).1, length_fmtInt x⟩

/-- So does a number printed as one. -/
theorem brief_fmtD (n : ℕ) : Brief 11 (fmtD n) := brief_fmtInt _

theorem brief_fmtU64 (n : ℕ) : Brief 20 (Printf.fmtU64 n) := by
  refine ⟨(Text.plain_fmtNat _).1, length_fmtNat (by decide) ?_⟩
  have := Nat.mod_lt n (show 0 < 2 ^ 64 by decide)
  omega

theorem brief_ipToStr (ip : Ip) : Brief 15 (ipToStr ip) := ⟨(plain_ipToStr ip).1, length_ipToStr ip⟩

theorem brief_macToStr (mac : Mac) : Brief 17 (macToStr mac) := by
  have hcolon : Brief 1 (lit ":") := by decide
  have h := fun b => Printf.brief_hexByte b
  exact ((((((((((h _).append hcolon).append (h _)).append hcolon).append (h _)).append hcolon).append
    (h _)).append hcolon).append (h _)).append hcolon).append (h _)

/-- A string in a buffer of the router. -/
theorem brief_cstr {n : ℕ} (s : Text.CStr n) : Brief n s.1 := ⟨s.2.2, s.2.1.le⟩

/-! ### Rows -/

/-- A row: something is printed, and its length is far from a wrap. -/
structure Row (s : List Byte) : Prop where
  brief : Brief 1000 s
  ne_nil : s ≠ []

/-- The next column, with what stands in front of it. -/
theorem column {j k : ℕ} {s t : List Byte} (h : Brief j s) (label : List Byte) (hlabel : Brief 20 label)
    (ht : Brief k t) : Brief (j + 20 + k) (s ++ label ++ t) :=
  (h.append hlabel).append ht

/-- A row is ended by a newline. -/
theorem row_of_brief {k : ℕ} {s t : List Byte} (h : Brief k s) (hk : k + 20 ≤ 1000) (ht : Brief 20 t)
    (hne : t ≠ []) : Row (s ++ t) :=
  ⟨(h.append ht).mono hk, List.append_ne_nil_of_right_ne_nil s hne⟩

theorem row_fwRow (i : ℕ) (r : FwRule) : Row (fwRow i r) := by
  have haction : Brief 5 (if r.action = fwDrop then lit "drop" else lit "allow") :=
    brief_ite (by decide) (by decide)
  have hproto : Brief 4 (protoName r.proto) :=
    brief_ite (by decide) (brief_ite (by decide) (brief_ite (by decide) (by decide)))
  have hport : ∀ port, Brief 11 (portText port) := fun port =>
    brief_ite (brief_fmtInt port) (by decide)
  have hip : ∀ ip mask, Brief 15 (maskedText ip mask) := fun ip mask =>
    brief_ite (brief_ipToStr _) (by decide)
  have h₁ := column ((brief_fmtD i).padLeft 3) (lit "  ") (by decide) (haction.padRight 5)
  have h₂ := column h₁ (lit " ip ") (by decide) ((hip r.sip r.sipMask).padRight 15)
  have h₃ := column h₂ (lit " ") (by decide) ((hip r.dip r.dipMask).padRight 15)
  have h₄ := column h₃ (lit " proto ") (by decide) (hproto.padRight 4)
  have h₅ := column h₄ (lit " sport ") (by decide) ((hport r.sport).padRight 5)
  have h₆ := column h₅ (lit " dport ") (by decide) ((hport r.dport).padRight 5)
  have h₇ := column h₆ (lit " kw \"") (by decide) (brief_cstr r.keyword)
  exact row_of_brief h₇ (by decide) (by decide) (by decide)

theorem row_routeRow (clz0 : CInt) (i : ℕ) (r : Route) : Row (routeRow clz0 i r) := by
  have hgw : Brief 15 (if r.gw ≠ 0 then ipToStr r.gw else lit "-") :=
    brief_ite (brief_ipToStr _) (by decide)
  have hkind : Brief 9 (if r.isStatic then lit "static" else lit "connected") :=
    brief_ite (by decide) (by decide)
  have h₁ := column ((brief_fmtD i).padLeft 2) (lit "  ") (by decide) ((brief_ipToStr r.dest).padRight 15)
  have h₂ := column h₁ (lit "/") (by decide) ((brief_fmtInt (prefixLen clz0 r.mask)).padRight 2)
  have h₃ := column h₂ (lit "  via ") (by decide) (hgw.padRight 15)
  have h₄ := column h₃ (lit "  if=") (by decide) ((brief_fmtInt r.ifindex).padRight 2)
  have h₅ := column h₄ (lit "  ") (by decide) hkind
  exact row_of_brief h₅ (by decide) (by decide) (by decide)

theorem row_ifaceRow (clz0 : CInt) (up : Bool) (it : Iface) : Row (ifaceRow clz0 up it) := by
  have hup : Brief 4 (if up then lit "UP" else lit "DOWN") := brief_ite (by decide) (by decide)
  have h₁ := column ((brief_cstr it.name).padRight 6) (lit " idx=") (by decide)
    ((brief_fmtInt it.ifindex).padLeft 2)
  have h₂ := column h₁ (lit " ") (by decide) hup
  have h₃ := column h₂ (lit "  ") (by decide) (brief_ipToStr it.ip)
  have h₄ := column h₃ (lit "/") (by decide) (brief_fmtInt (prefixLen clz0 it.netmask))
  have h₅ := column h₄ (lit "  ") (by decide) (brief_macToStr it.mac)
  exact row_of_brief h₅ (by decide) (by decide) (by decide)

theorem row_arpRow (now : ℕ) (e : ArpEntry) : Row (arpRow now e) := by
  have h₁ := column ((brief_ipToStr e.ip).padRight 15) (lit "  ") (by decide)
    ((brief_macToStr e.mac).padRight 17)
  have h₂ := column h₁ (lit "  if=") (by decide) ((brief_fmtInt e.ifidx).padRight 2)
  have h₃ := column h₂ (lit "  age=") (by decide) (brief_fmtU64 (arpAge now e.lastSeen))
  exact row_of_brief h₃ (by decide) (by decide) (by decide)

theorem row_pendRow (n : PendNode) : Row (pendRow n) := by
  have h₁ := column ((brief_ipToStr n.nexthop).padRight 15) (lit "  if=") (by decide)
    ((brief_fmtInt n.ifidx).padRight 2)
  have h₂ := column h₁ (lit "  retries=") (by decide) (brief_fmtD n.retries)
  have h₃ := column h₂ (lit "  frames=") (by decide) (brief_fmtD n.chainLen)
  exact row_of_brief h₃ (by decide) (by decide) (by decide)

/-! ### Writers -/

/-- The output is one string, whatever was on the stack and in `out`. -/
def Own (size : ℕ) (w : (ℕ → Byte) → Writer) : Prop := ∃ t, ∀ stack out, Holds size (w stack out) t

variable {size : ℕ} {text : List Byte} {rows : List (List Byte)} {out : ℕ → Byte}

/-- A writer that always leaves one string. -/
theorem own_writer {w : Writer} (h : ∃ t, ∀ out, Holds size (w out) t) : Own size fun _ => w := by
  obtain ⟨t, ht⟩ := h
  exact ⟨t, fun _ => ht⟩

/-- What is printed of a table. -/
def tableText (rows : List (List Byte)) : List Byte := if rows = [] then lit "(empty)\n" else rows.flatten

section Writers

variable (h₀ : 0 < size)
include h₀

/-- One `snprintf` leaves its text, cut to what fits. -/
theorem say_holds (h : nul ∉ text) : Holds size (say size text out) (text.take (size - 1)) :=
  Printf.snprintf_zero_holds h₀ h

variable (h₁ : size < 2 ^ 63)
include h₁

/-- **A table with a row** leaves its rows, cut to what fits. -/
theorem showRows_holds (hne : rows ≠ []) (h : ∀ s ∈ rows, Row s) :
    Holds size (showRows size rows out) (rows.flatten.take (size - 1)) :=
  Printf.putRows_holds h₀ h₁ hne fun s hs => ⟨(h s hs).brief.clean, (h s hs).brief.le.trans_lt (by decide)⟩

/-- **A table with `(empty)`** in place of no rows is always printed. -/
theorem showTable_text (h : ∀ s ∈ rows, Row s) :
    Holds size (showTable size rows out) ((tableText rows).take (size - 1)) := by
  cases rows with
  | nil => exact say_holds h₀ (by decide)
  | cons s rows =>
      have hlen : ∀ s' ∈ rows, s'.length < 2 ^ 63 := fun s' hs' =>
        (h s' (List.mem_cons_of_mem _ hs')).brief.le.trans_lt (by decide)
      have hs := h s List.mem_cons_self
      have hfirst : 0 < (Printf.put size (Printf.start out) s).off := by
        have hlt : 0 + s.length < 2 ^ 64 := by
          have := hs.brief.le
          omega
        refine Nat.lt_of_lt_of_eq ?_ (Nat.mod_eq_of_lt hlt).symm
        rw [Nat.zero_add]
        exact List.length_pos_of_ne_nil hs.ne_nil
      have hoff : (Printf.putRows size (s :: rows) (Printf.start out)).off ≠ 0 := by
        rw [Printf.putRows, if_pos (show (Printf.start out).off < size from h₀)]
        exact Nat.ne_of_gt (Printf.putRows_off_pos hfirst h₁ hlen)
      simp only [showTable, hoff, if_false]
      exact showRows_holds h₀ h₁ (List.cons_ne_nil s rows) h

/-- **A table with `(empty)`** leaves one string, whatever was there. -/
theorem showTable_holds (h : ∀ s ∈ rows, Row s) :
    ∃ t, ∀ out, Holds size (showTable size rows out) t :=
  ⟨_, fun _ => showTable_text h₀ h₁ h⟩

end Writers

end LinuxRouter
