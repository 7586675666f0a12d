import LinuxRouter.Commands.Rows
import LinuxRouter.Config.Routes
import LinuxRouter.Model.Console

/-!
# Commands — what a command leaves in `out`

Nobody clears `out` before a command is called: a session's is not initialised, and the terminal's
has the text of the command before.  A command's output is its own (`Own`) if it is one string
whatever was in `out` and on the stack.

* `call_own`: every command of the table has an output of its own, `showif` if there is an interface.
* `dispatch_own_iff`: so the output of a line is its own except if the line's first word is `showif`
  and there is no interface.
* `ifaces_kept`: no command brings or takes an interface.
* `terminal_own`: the terminal of a router with an interface prints the same, whatever was in `out`
  when it started.

Most commands end in one `snprintf`, and their output is its text (`Prints`): what there is to show
is that the text has no NUL in it, and it is put together of literals, of words of the line and of
printed numbers and addresses, none of which has one.  The commands that show a table append row by
row at an offset that they count themselves; `Commands/Rows` has what they leave.  `showif` is the
one that does neither.  Without a row it calls no `snprintf` at all, and what is sent is whatever
`out` held.

For a whole line the cases of `cmd_dispatch` are listed once (`Dispatched`), and the terminal's run
is an induction over its lines, with the number of interfaces, which no command changes, kept beside
it.
-/

namespace LinuxRouter

open Text (lit nul fmtInt nul_notMem_lit)
open Printf (Holds Brief padRight)

variable {size : ℕ} {text : List Byte} {out : ℕ → Byte}

/-! ### The commands -/

namespace Console

variable {e : Outside} {s : Console} {args : List (List Byte)}

/-- The answer is one `snprintf`, of a text without a NUL. -/
def Prints (size : ℕ) (a : Answer) : Prop := ∃ text, nul ∉ text ∧ a.write = say size text

/-- An answer with a clean text is one `snprintf`. -/
theorem prints_answer {rc : CInt} (h : nul ∉ text) : Prints size (s.answer size rc text) := ⟨text, h, rfl⟩

/-- One `snprintf` is an output of one's own. -/
theorem Prints.own {a : Answer} (h : Prints size a) (h₀ : 0 < size) : Own size fun _ => a.write := by
  obtain ⟨text, hz, hw⟩ := h
  refine ⟨text.take (size - 1), fun _ out => ?_⟩
  rw [hw]
  exact say_holds h₀ hz

/-- The names and help texts of the table are short and clean. -/
theorem cmdTable_brief : ∀ c ∈ cmdTable, Brief 40 (lit c.name) ∧ Brief 440 (lit c.help) := by
  simp only [cmdTable, List.forall_mem_cons, List.not_mem_nil, false_imp_iff, implies_true, and_true]
  repeat' apply And.intro
  all_goals exact Printf.brief_lit (by decide) (by decide)

theorem usage_clean (i : Fin cmdTable.length) : nul ∉ usage i :=
  notMem_between (cmdTable_brief _ (List.get_mem _ _)).2.clean (by decide) (by decide)

section Args

variable (hargs : ∀ w ∈ args, nul ∉ w)
include hargs

theorem cmdSetip_prints : Prints size (s.cmdSetip e size args) := by
  rw [cmdSetip.eq_def]
  split
  · rename_i name addr
    have hname : nul ∉ lit "setip " ++ name := notMem_lit_append (hargs name (by simp)) (by decide)
    split
    · exact prints_answer (nul_notMem_lit (by decide))
    · rename_i ip mask hcidr
      have haddr : nul ∉ lit "setip " ++ name ++ lit " " ++ ipToStr ip :=
        notMem_append (notMem_append_lit hname (by decide)) (plain_ipToStr ip).1
      simp only
      split
      · exact prints_answer (notMem_append_lit
          (notMem_append (notMem_append_lit haddr (by decide)) (Text.plain_fmtInt _).1) (by decide))
      · exact prints_answer (notMem_append_lit hname (by decide))
  · exact prints_answer (nul_notMem_lit (by decide))

theorem cmdDelip_prints : Prints size (s.cmdDelip e size args) := by
  rw [cmdDelip.eq_def]
  split
  · rename_i name
    have hname : nul ∉ lit "delip " ++ name := notMem_lit_append (hargs name (by simp)) (by decide)
    simp only
    split
    · exact prints_answer (notMem_append_lit hname (by decide))
    · exact prints_answer (notMem_append_lit hname (by decide))
  · exact prints_answer (nul_notMem_lit (by decide))

/-- What is printed when an option is refused. -/
theorem routeOpts_clean {ifs : Ifaces} {o : Ip × CInt} (h : routeOpts ifs args o = .error text) :
    nul ∉ text := by
  induction args generalizing o with
  | nil => cases h
  | cons tok args ih =>
      cases args with
      | nil => cases h
      | cons arg args =>
          have hrest := fun o => @ih (fun w hw => hargs w (List.mem_cons_of_mem _ hw)) o
          have harg : nul ∉ arg := hargs arg (by simp)
          rw [routeOpts] at h
          split at h
          · split at h
            · obtain rfl := Except.error.inj h
              exact notMem_between harg (by decide) (by decide)
            · exact hrest _ h
          · split at h
            · split at h
              · obtain rfl := Except.error.inj h
                exact notMem_between harg (by decide) (by decide)
              · exact hrest _ h
            · exact hrest _ h

theorem cmdAddroute_prints : Prints size (s.cmdAddroute size args) := by
  rw [cmdAddroute.eq_def]
  split
  · rename_i tok arg args
    split
    · exact prints_answer (usage_clean _)
    · split
      · rename_i text htext
        exact prints_answer (routeOpts_clean (fun w hw => hargs w (List.mem_cons_of_mem _ hw)) htext)
      · split
        · exact prints_answer (nul_notMem_lit (by decide))
        · simp only
          split
          · exact prints_answer (nul_notMem_lit (by decide))
          · exact prints_answer (nul_notMem_lit (by decide))
  · exact prints_answer (usage_clean _)

end Args

theorem cmdAddfw_prints : Prints size (s.cmdAddfw e size args) := by
  rw [cmdAddfw]
  split
  · exact prints_answer (usage_clean _)
  · split
    · exact prints_answer (nul_notMem_lit (by decide))
    · simp only
      split
      · exact prints_answer (notMem_between (Text.plain_fmtInt _).1 (by decide) (by decide))
      · exact prints_answer (nul_notMem_lit (by decide))

theorem cmdDelfw_prints : Prints size (s.cmdDelfw size args) := by
  refine prints_answer ?_
  rw [Tables.cmdDelfw.eq_def]
  split
  · simp only
    split
    · exact notMem_between (Text.plain_fmtInt _).1 (by decide) (by decide)
    · exact notMem_between (Text.plain_fmtInt _).1 (by decide) (by decide)
  · exact nul_notMem_lit (by decide)

theorem cmdDelroute_prints : Prints size (s.cmdDelroute size args) := by
  refine prints_answer ?_
  rw [Tables.cmdDelroute.eq_def]
  split
  · simp only
    split
    · exact notMem_between (Text.plain_fmtInt _).1 (by decide) (by decide)
    · split
      · exact notMem_between (Text.plain_fmtInt _).1 (by decide) (by decide)
      · exact notMem_between (Text.plain_fmtInt _).1 (by decide) (by decide)
  · exact nul_notMem_lit (by decide)

theorem cmdReload_prints : Prints size (s.cmdReload e size) := by
  have hi : ∀ n, nul ∉ fmtInt n := fun n => (Text.plain_fmtInt n).1
  refine prints_answer (notMem_append_lit (notMem_append (notMem_append_lit ?_ (by decide)) (hi _))
    (by decide))
  exact notMem_append (notMem_between (hi _) (by decide) (by decide)) (hi _)

/-! ### The configuration -/

/-- Nothing of a configuration's text comes from the stack. -/
theorem confPieces_source (e : Outside) (stack : ℕ → Byte) (s : Console) :
    confPieces (s.source e stack) = confPieces (s.source e fun _ => nul) := by
  simp only [confPieces, source, fwRuleToLine_eq]

/-- Only the pieces of a configuration matter. -/
theorem configSerialize_congr {c c' : ConfSource} {n : ℕ} (h : confPieces c = confPieces c') :
    configSerialize n out c = configSerialize n out c' := by
  rw [configSerialize, configSerialize, h]

/-- The line of a route is clean. -/
theorem nul_notMem_routeText (clz0 : CInt) (ifs : Ifaces) (r : Route) : nul ∉ routeText clz0 ifs r := by
  have hdest : nul ∉ ipToStr r.dest ++ lit "/" ++ fmtInt (prefixLen clz0 r.mask).toInt :=
    notMem_append (notMem_append_lit (plain_ipToStr r.dest).1 (by decide)) (Text.plain_fmtInt _).1
  refine notMem_append (notMem_append_lit ?_ (by decide)) ?_
  · split
    · exact notMem_append (notMem_append_lit hdest (by decide)) (plain_ipToStr _).1
    · exact hdest
  · split
    · rename_i it hit
      exact it.name.2.2
    · decide

/-- So is every piece of a configuration. -/
theorem nul_notMem_confPieces (c : ConfSource) : ∀ p ∈ confPieces c, nul ∉ p := by
  intro p hp
  have hset : ∀ {key : List Char} (x : CInt), '\x00' ∉ key →
      nul ∉ lit (String.ofList key) ++ fmtInt x.toInt ++ [Text.nl] :=
    fun x hkey => notMem_append (notMem_lit_append (Text.plain_fmtInt _).1 hkey) (by decide)
  simp only [confPieces, List.mem_append, List.mem_map, List.mem_cons, List.not_mem_nil,
    or_false] at hp
  rcases hp with (((hp | rfl | rfl) | ⟨r, -, rfl⟩) | rfl) | ⟨r, -, rfl⟩
  · simp only [routerPieces, List.mem_cons, List.not_mem_nil, or_false] at hp
    rcases hp with rfl | rfl | rfl | rfl | rfl | rfl | rfl | rfl
    · exact nul_notMem_lit (by decide)
    · exact notMem_append (notMem_lit_append c.cfg.hostname.2.2 (by decide)) (by decide)
    · exact hset _ (by decide)
    · exact hset _ (by decide)
    · exact hset _ (by decide)
    · exact hset _ (by decide)
    · exact hset _ (by decide)
    · exact hset _ (by decide)
  · exact nul_notMem_lit (by decide)
  · exact nul_notMem_lit (by decide)
  · exact notMem_append (Text.nul_notMem_cstr _) (by decide)
  · exact nul_notMem_lit (by decide)
  · exact notMem_append (nul_notMem_routeText _ _ _) (by decide)

/-- `showcfg` has an output of its own. -/
theorem cmdShowcfg_own (h₀ : 0 < size) (h₁ : size < 2 ^ 63) :
    Own size fun stack => (s.cmdShowcfg e stack size).write := by
  refine ⟨(confText (s.source e fun _ => nul)).take (size - 1), fun stack out => ?_⟩
  have hlen := length_confText (s.source e fun _ => nul)
  change Holds size (Printf.putAll size (confPieces (s.source e stack)) (Printf.start out)).mem _
  rw [confPieces_source]
  exact Printf.putAll_holds h₀ (by omega) (confPieces_ne_nil _) (nul_notMem_confPieces _)
    (by rw [← confText]; omega)

theorem cmdSave_own (h₀ : 0 < size) : Own size fun stack => (s.cmdSave e stack size).write := by
  have hsame : ∀ stack, s.cmdSave e stack size = s.cmdSave e (fun _ => nul) size := fun stack => by
    rw [cmdSave, cmdSave, saves, saves, configSave, configSave,
      configSerialize_congr (confPieces_source e stack s)]
  have hsays : Prints size (s.cmdSave e (fun _ => nul) size) := by
    rw [cmdSave]
    split
    · exact prints_answer (nul_notMem_lit (by decide))
    · exact prints_answer (nul_notMem_lit (by decide))
  obtain ⟨t, ht⟩ := hsays.own h₀
  refine ⟨t, fun stack out => ?_⟩
  change Holds size ((s.cmdSave e stack size).write out) t
  rw [hsame]
  exact ht stack out

/-! ### `showip` -/

/-- A row for each address, behind what is there. -/
theorem foldl_append_holds {α : Type*} (row : α → List Byte) (hrow : ∀ a, nul ∉ row a) (xs : List α)
    (t : List Byte) : ∃ t', ∀ mem, Holds size mem t →
      Holds size (xs.foldl (fun mem a => Printf.append size mem (row a)) mem) t' := by
  induction xs generalizing t with
  | nil => exact ⟨t, fun _ h => h⟩
  | cons a xs ih =>
      obtain ⟨t', ht'⟩ := ih ((t ++ row a).take (size - 1))
      exact ⟨t', fun mem h => ht' _ (h.append (hrow a))⟩

/-- The row of an address is clean. -/
theorem ipRow_clean {name ip mask : List Byte} (h : nul ∉ name) (h' : nul ∉ ip) (h'' : nul ∉ mask) :
    nul ∉ ipRow name ip mask := by
  have hpad : ∀ (n : ℕ) {t : List Byte}, nul ∉ t → nul ∉ padRight n t := fun n t ht =>
    notMem_append ht (Printf.brief_blanks _).clean
  have h₁ : nul ∉ padRight 8 name ++ lit "  " := notMem_append_lit (hpad 8 h) (by decide)
  have h₂ : nul ∉ padRight 8 name ++ lit "  " ++ padRight 15 ip ++ lit "  " :=
    notMem_append_lit (notMem_append h₁ (hpad 15 h')) (by decide)
  exact notMem_append_lit (notMem_append h₂ (hpad 15 h'')) (by decide)

/-- `showip` has an output of its own. -/
theorem cmdShowip_own (h₀ : 0 < size) : Own size fun _ => (s.cmdShowip size).write := by
  have hrow : ∀ it : Iface, nul ∉ ipRow it.name.1 (ipToStr it.ip) (ipToStr it.netmask) := fun it =>
    ipRow_clean it.name.2.2 (plain_ipToStr _).1 (plain_ipToStr _).1
  obtain ⟨t, ht⟩ := @foldl_append_holds size _ _ hrow (s.ifaces.filter (·.ip != 0))
    ((ipRow (lit "iface") (lit "IP") (lit "mask")).take (size - 1))
  exact ⟨t, fun _ out => ht _ (say_holds h₀ (by decide))⟩

/-! ### The table -/

theorem row_help (c : CmdEntry) (hc : c ∈ cmdTable) :
    Row (lit "  " ++ padRight 8 (lit c.name) ++ lit "  " ++ lit c.help ++ lit "\n") := by
  obtain ⟨hname, hhelp⟩ := cmdTable_brief c hc
  have hfirst : Brief 2 (lit "  ") := by decide
  have h₁ := column (hfirst.append (hname.padRight 8)) (lit "  ") (by decide) hhelp
  exact row_of_brief h₁ (by decide) (by decide) (by decide)

theorem tpoolShow_prints {n : CInt} {k : ℕ} {p : TaskQueue} :
    Prints size (s.shows (tpoolShow size n k p)) := by
  refine ⟨_, ?_, rfl⟩
  simp only [List.mem_append, (Text.plain_fmtInt _).1, (Text.plain_fmtNat _).1, (brief_fmtD _).clean,
    (brief_fmtU64 _).clean, or_false]
  decide

theorem mpShow_prints {p : Pool} : Prints size (s.shows (mpShow size p)) := by
  have hd : nul ∉ fmtD mpCount := (brief_fmtD mpCount).clean
  have hu : ∀ n, nul ∉ Printf.fmtU64 n := fun n => (brief_fmtU64 n).clean
  have hi : ∀ x, nul ∉ fmtInt x := fun x => (Text.plain_fmtInt x).1
  refine ⟨_, ?_, rfl⟩
  simp only [List.mem_append, hd, hu, hi, or_false]
  decide

/-- The text of `showstat` is clean. -/
theorem statText_clean (g : Stats) : nul ∉ statText g := by
  have hlabel : ∀ x ∈ statLabels, nul ∉ x.1 := by decide
  refine notMem_append ?_ (by decide)
  rw [List.mem_flatMap, not_exists]
  exact fun x hx => notMem_append (hlabel x hx.1) (brief_fmtU64 _).clean hx.2

/-- **Every command has an output of its own**, `showif` if there is an interface. -/
theorem call_own (h₀ : 0 < size) (h₁ : size < 2 ^ 63) (hargs : ∀ w ∈ args, nul ∉ w) (fn : CmdFn)
    (hif : fn = .showif → s.ifaces ≠ []) : Own size fun stack => (s.call e stack size args fn).write := by
  have hindexed : ∀ {α : Type} {f : ℕ → α → List Byte} {xs : List α}, (∀ i x, Row (f i x)) →
      ∀ r ∈ xs.mapIdx f, Row r := by
    intro α f xs hf r hr
    obtain ⟨i, hi, rfl⟩ := List.mem_mapIdx.mp hr
    exact hf i _
  cases fn with
  | help =>
      refine own_writer ⟨_, fun out => showRows_holds h₀ h₁ (by decide) fun r hr => ?_⟩
      obtain ⟨c, hc, rfl⟩ := List.mem_map.mp hr
      exact row_help c hc
  | setip => exact (cmdSetip_prints hargs).own h₀
  | delip => exact (cmdDelip_prints hargs).own h₀
  | showip => exact cmdShowip_own h₀
  | addfw => exact cmdAddfw_prints.own h₀
  | delfw => exact cmdDelfw_prints.own h₀
  | showfw => exact own_writer (showTable_holds h₀ h₁ (hindexed row_fwRow))
  | addroute => exact (cmdAddroute_prints hargs).own h₀
  | delroute => exact cmdDelroute_prints.own h₀
  | showroute => exact own_writer (showTable_holds h₀ h₁ (hindexed (row_routeRow _)))
  | showif =>
      refine own_writer ⟨_, fun out => showRows_holds h₀ h₁ ?_ (hindexed fun i => row_ifaceRow _ _)⟩
      exact fun h => hif rfl (List.mapIdx_eq_nil_iff.mp h)
  | showarp =>
      refine own_writer (showTable_holds h₀ h₁ fun r hr => ?_)
      obtain ⟨en, -, rfl⟩ := List.mem_map.mp hr
      exact row_arpRow _ en
  | showthread => exact tpoolShow_prints.own h₀
  | showpool => exact mpShow_prints.own h₀
  | showpend =>
      refine own_writer (showTable_holds h₀ h₁ fun r hr => ?_)
      obtain ⟨i, -, rfl⟩ := List.mem_map.mp hr
      exact row_pendRow _
  | showstat => exact own_writer ⟨_, fun _ => say_holds h₀ (statText_clean _)⟩
  | showcfg => exact cmdShowcfg_own h₀ h₁
  | save => exact cmdSave_own h₀
  | reload => exact cmdReload_prints.own h₀
  | exit => exact Prints.own (prints_answer (nul_notMem_lit (by decide))) h₀

/-! ### A line -/

/-- The table knows `showif` by its name. -/
theorem find_showif : (cmdTable.find? fun c => lit c.name == lit "showif").map (·.fn) = some .showif := by
  decide +kernel

theorem name_of_showif : ∀ c ∈ cmdTable, c.fn = .showif → c.name = "showif" := by
  decide +kernel

/-- What `cmd_dispatch` comes to: one text, or a call. -/
inductive Dispatched (e : Outside) (size : ℕ) (line : List Byte) (s : Console) : Prop
  | text (rc : CInt) (text : List Byte) (hclean : nul ∉ text)
      (hword : (dispatchWords line).head? ≠ some (lit "showif"))
      (h : ∀ stack, s.cmdDispatch e stack size line = s.answer size rc text)
  | call (args : List (List Byte)) (fn : CmdFn) (hclean : ∀ w ∈ args, nul ∉ w)
      (hword : (dispatchWords line).head? = some (lit "showif") ↔ fn = .showif)
      (h : ∀ stack, s.cmdDispatch e stack size line = s.call e stack size args fn)

theorem dispatched (e : Outside) (size : ℕ) (line : List Byte) (s : Console) : Dispatched e size line s := by
  have hclean : ∀ w ∈ dispatchWords line, nul ∉ w := fun w hw hz =>
    (Text.CStr.store 512 line).2.2 (Text.subset_of_mem_splitWords hw hz)
  cases hline : dispatchWords line with
  | nil =>
      refine .text 0 (lit "\n") (nul_notMem_lit (by decide)) (by simp [hline]) fun stack => ?_
      rw [cmdDispatch, hline]
  | cons name args =>
      rw [hline] at hclean
      obtain ⟨hname, hargs⟩ := List.forall_mem_cons.mp hclean
      have hhead : (dispatchWords line).head? = some name := by rw [hline, List.head?_cons]
      cases hfind : cmdTable.find? fun c => lit c.name == name with
      | none =>
          refine .text (-1) (lit "unknown command '" ++ name ++ lit "' (try 'help')\n")
            (notMem_between hname (by decide) (by decide)) (fun h => ?_) fun stack => ?_
          · have hsome := find_showif
            rw [← Option.some.inj (hhead.symm.trans h), hfind] at hsome
            cases hsome
          · rw [cmdDispatch, hline]
            simp only [hfind]
      | some c =>
          have hname : lit c.name = name := by simpa using List.find?_some hfind
          refine .call args c.fn hargs ?_ fun stack => ?_
          · rw [hhead, Option.some_inj]
            constructor
            · rintro rfl
              have hsome := find_showif
              rwa [hfind, Option.map_some, Option.some_inj] at hsome
            · intro hfn
              rw [← hname, name_of_showif c (List.mem_of_find?_eq_some hfind) hfn]
          · rw [cmdDispatch, hline]
            simp only [hfind]

variable {line : List Byte}

/-- Without an interface `showif` writes nothing. -/
theorem not_own_showif (hword : (dispatchWords line).head? = some (lit "showif"))
    (hnone : s.ifaces = []) : ¬ Own size fun stack => (s.cmdDispatch e stack size line).write := by
  cases dispatched e size line s with
  | text rc text hclean hword' h => exact absurd hword hword'
  | call args fn hclean hword' h =>
      obtain rfl := hword'.mp hword
      simp only [h]
      rintro ⟨t, ht⟩
      have hend := (ht (fun _ => nul) fun _ => 1#8).ended
      simp only [call, shows, ifaceShow, showRows, hnone, List.mapIdx_nil, Printf.putRows,
        Printf.start] at hend
      exact absurd hend (by decide)

/-- Every other line has an output of its own. -/
theorem own_of_dispatch (h₀ : 0 < size) (h₁ : size < 2 ^ 63)
    (hif : ¬ ((dispatchWords line).head? = some (lit "showif") ∧ s.ifaces = [])) :
    Own size fun stack => (s.cmdDispatch e stack size line).write := by
  cases dispatched e size line s with
  | text rc text hclean hword h =>
      simp only [h]
      exact (prints_answer hclean).own h₀
  | call args fn hclean hword h =>
      simp only [h]
      exact call_own h₀ h₁ hclean fn fun hfn hnone => hif ⟨hword.mpr hfn, hnone⟩

/-- **The output of a line is its own** except if the line is `showif` and there is no interface: what
`out` holds up to its NUL does not depend on what was on the stack, and is inside the
buffer.  `cmd_showif` alone writes nothing where its loop has no round. -/
theorem dispatch_own_iff (e : Outside) (line : List Byte) (s : Console) {size : ℕ} (h₀ : 0 < size)
    (h₁ : size < 2 ^ 63) :
    (Own size fun stack => (s.cmdDispatch e stack size line).write) ↔
      ¬ ((dispatchWords line).head? = some (lit "showif") ∧ s.ifaces = []) :=
  ⟨fun h ⟨hword, hnone⟩ => not_own_showif hword hnone h, own_of_dispatch h₀ h₁⟩

/-- `showif` of a router with an interface, into the `char out[2048]` of a session. -/
theorem dispatch_own_iff_eth0 : Own 2048 fun stack =>
    ({ start with ifaces := [eth0] }.cmdDispatch .plain stack 2048 (lit "showif")).write :=
  (dispatch_own_iff .plain (lit "showif") { start with ifaces := [eth0] } (by decide) (by decide)).mpr
    (fun h => nomatch h.2)

/-- The same of a router that has none: nothing is written into `out`, and the session is sent what the
stack happened to hold there. -/
theorem showif_stale : ¬ ∀ (e : Outside) (line : List Byte) (s : Console) (size : ℕ), 0 < size →
    size < 2 ^ 63 → Own size fun stack => (s.cmdDispatch e stack size line).write := fun h =>
  not_own_showif (by decide +kernel) rfl (h .plain (lit "showif") start 2048 (by decide) (by decide))

/-! ### A run of the terminal -/

/-- An address comes to an interface that was there. -/
theorem length_ifaceAddAddr (ok : Bool) (name : List Byte) (ip mask : Ip) (ifs : Ifaces) :
    (ifaceAddAddr ok name ip mask ifs).2.length = ifs.length := by
  rw [ifaceAddAddr]
  split
  · rfl
  · split
    · exact List.length_modify ..
    · rfl

/-- And goes from one that stays. -/
theorem length_ifaceDelAddr (ok : Bool) (name : List Byte) (ifs : Ifaces) :
    (ifaceDelAddr ok name ifs).2.length = ifs.length := by
  rw [ifaceDelAddr]
  split
  · rfl
  · split
    · exact List.length_modify ..
    · rfl

/-- A line of the file changes no interface. -/
theorem ifaces_loadLine (s : Console) (x : List Byte × List Byte) : (s.loadLine x).ifaces = s.ifaces := by
  rw [loadLine]
  split
  · rfl
  · split
    · split <;> rfl
    · split
      · split <;> rfl
      · split
        · split <;> rfl
        · rfl

theorem ifaces_load (e : Outside) (s : Console) : (s.load e).ifaces = s.ifaces := by
  have hlines : ∀ (xs : List (List Byte × List Byte)) (s : Console),
      (xs.foldl loadLine s).ifaces = s.ifaces := by
    intro xs
    induction xs with
    | nil => exact fun s => rfl
    | cons x xs ih => exact fun s => (ih _).trans (ifaces_loadLine s x)
  rw [load]
  split
  · rfl
  · exact hlines _ _

/-- **No command brings or takes an interface.** -/
theorem ifaces_kept (e : Outside) (stack : ℕ → Byte) (size : ℕ) (line : List Byte) (s : Console) :
    (s.cmdDispatch e stack size line).console.ifaces.length = s.ifaces.length := by
  cases dispatched e size line s with
  | text rc text hclean hword h => rw [h]; rfl
  | call args fn hclean hword h =>
      rw [h]
      cases fn with
      | setip =>
          rw [call, cmdSetip.eq_def]
          split
          · split
            · rfl
            · simp only
              split
              · exact length_ifaceAddAddr ..
              · rfl
          · rfl
      | delip =>
          rw [call, cmdDelip.eq_def]
          split
          · simp only
            split
            · exact length_ifaceDelAddr ..
            · rfl
          · rfl
      | addfw =>
          rw [call, cmdAddfw]
          split
          · rfl
          · split
            · rfl
            · simp only
              split <;> rfl
      | addroute =>
          rw [call, cmdAddroute.eq_def]
          split
          · split
            · rfl
            · split
              · rfl
              · split
                · rfl
                · simp only
                  split <;> rfl
          · rfl
      | save =>
          rw [call, cmdSave]
          split <;> rfl
      | reload => exact congrArg List.length (ifaces_load e s)
      | _ => rfl

/-- **The terminal prints the same**, whatever was in `out` when it started, if there is an interface
or nobody asks for them: of an earlier command's output, or of what the stack held before, nothing is
printed. -/
theorem terminal_own {xs : List Turn} {s : Console}
    (hothers : ∀ x ∈ xs, ∀ s, (x.others s).ifaces.length = s.ifaces.length)
    (hif : s.ifaces ≠ [] ∨ ∀ x ∈ xs, (dispatchWords x.command).head? ≠ some (lit "showif"))
    (out out' : ℕ → Byte) : terminalLoop xs s out = terminalLoop xs s out' := by
  induction xs generalizing s out out' with
  | nil => rfl
  | cons x xs ih =>
      obtain ⟨hother, hothers⟩ := List.forall_mem_cons.mp hothers
      have hkept : ∀ {s' : Console}, s'.ifaces.length = s.ifaces.length →
          s'.ifaces ≠ [] ∨ ∀ x ∈ xs, (dispatchWords x.command).head? ≠ some (lit "showif") := by
        intro s' hlen
        refine hif.imp (fun h h' => h ?_) fun h => (List.forall_mem_cons.mp h).2
        rwa [← List.length_eq_zero_iff, ← hlen, List.length_eq_zero_iff]
      rw [terminalLoop, terminalLoop]
      simp only
      split
      · exact ih hothers (hkept (hother s)) out out'
      · have hshow : ¬ ((dispatchWords x.command).head? = some (lit "showif") ∧
            (x.others s).ifaces = []) := by
          rintro ⟨hword, hnone⟩
          refine hif.elim (fun h => h ?_) fun h => (List.forall_mem_cons.mp h).1 hword
          rw [← List.length_eq_zero_iff, ← hother s, hnone, List.length_nil]
        obtain ⟨t, ht⟩ := @own_of_dispatch 1024 x.outside (x.others s) x.command (by decide) (by decide) hshow
        have hprint : ∀ out, Printf.stringIn 1024
            (((x.others s).cmdDispatch x.outside x.stack 1024 x.command).write out) = t := fun out =>
          (ht x.stack out).stringIn_eq
        rw [hprint, hprint, ih hothers (hkept ((ifaces_kept ..).trans (hother s)))]

end Console

end LinuxRouter
