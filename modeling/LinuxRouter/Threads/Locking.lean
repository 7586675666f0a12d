import LinuxRouter.Model.Control
import LinuxRouter.Remote.Parts
import LinuxRouter.Support.Traces
import LinuxRouter.Threads.Deadlock

/-!
# Threads — the locks of the management programs

The codes of `Locks` for the console and the connections, against their programs.

A command of `Manage` or `Control` stands for the section of the function that it models
(`MCmd.code`, `CtlCmd.code`), and a program's events are read off its commands.

* `conn_admitted`: whatever a connection does, from its start on and for any number of rounds, is
  admitted by the code `connThread`; `terminal_admitted` says it of the console.
* `rounds_inOrder`: so these programs take their locks in the order of `Lock.rank`, wait for a peer or
  for a line with none, and hold none between two rounds.

The proof follows the programs.  A lemma for each function says that the program of the function does
no more than its code, by the lemmas for those that it calls; `inSteps_follows` puts the commands of
`terminal.c`, step by step, in the place of `cmd_dispatch`.  A round is then judged with the code of
what the thread has still to do after it, which depends on its result: a connection that is closed
ends with `upgrade_abort`, one that is not goes on with its loop.
-/

namespace LinuxRouter

open Locks (Code Follows Refines Admits InOrder Rounds Trace)
open Locks.Code (all oneOf loop)
open Program (Prog)

/-! ### Commands -/

/-- The section that a command stands for. -/
def MCmd.code : ∀ ⦃β : Type⦄, MCmd β → LockCode.LCode
  | _, .mark _ => .done
  | _, .stop => .done
  | _, .recv _ => LockCode.outside
  | _, .send _ => LockCode.sendAll
  -- the section of `cfg_password` gives a pointer; what it points to is read under no lock
  | _, .password => .done
  | _, .serialize => LockCode.configSerialize
  | _, .dispatch _ => LockCode.cmdDispatch
  | _, .fopen => .done
  | _, .fwrite _ _ => .done
  | _, .fclose _ => .done
  | _, .rename => .done
  | _, .unlink => .done
  | _, .upgradeBegin _ _ => LockCode.upgradeBegin
  | _, .upgradeWrite _ => .done
  | _, .upgradeFinish => LockCode.upgradeFinish
  | _, .upgradeExec => LockCode.upgradeExec
  | _, .upgradeAbort => LockCode.upgradeAbort
  | _, .readConf => .done
  | _, .configDefault => LockCode.configDefault
  | _, .configSave => LockCode.configSave
  | _, .routerKey _ => LockCode.parseRouterKey
  | _, .fwClear => LockCode.fwClear
  | _, .fwAdd _ => LockCode.fwAdd
  | _, .ifaces => .done
  | _, .routeClearStatic => LockCode.routeClearStatic
  | _, .routeAdd _ _ _ _ => LockCode.routeAdd
  | _, .routeDeriveConnected => LockCode.routeDeriveConnected

/-- The lock of the routes is taken at the beginning of a derivation and given back at its end. -/
def TermCmd.code : ∀ ⦃β : Type⦄, TermCmd β → LockCode.LCode
  | _, .fgets => LockCode.outside
  | _, .tty => .done
  | _, .junk => .done
  | _, .ioctl => .done
  | _, .setIp _ _ => .done
  | _, .setNetmask _ _ => .done
  | _, .ip _ => .done
  | _, .netmask _ => .done
  | _, .fwDel _ => LockCode.fwDel
  | _, .routeDel _ => LockCode.routeDel
  | _, .deriveLock _ => .lock .route .write .done
  | _, .full => .done
  | _, .push _ => .done
  | _, .unlock => .unlock .route .done

/-- A command of `Control`.  What `cmd_dispatch` shows, it reads in one section with nothing in it. -/
def CtlCmd.code : ∀ ⦃β : Type⦄, CtlCmd β → LockCode.LCode
  | _, .of (.dispatch _) => .done
  | _, .of c => c.code
  | _, .own c => c.code

namespace LockCode

section Refines

variable {p : LCode}

theorem refines_maybe : Refines p (maybe p) := .either_left

theorem done_refines_maybe : Refines .done (maybe p) := .either_right

theorem done_refines_alone {k : Lock} {m : Locks.Mode} : Refines .done (alone k m) := .section_done

end Refines

/-- The program of a function does no more than its code. -/
abbrev Within {C : Type → Type} {α : Type} (loc : ∀ ⦃β : Type⦄, C β → LCode) (p : Prog C α)
    (q : LCode) : Prop := Follows loc p (fun _ => .done) q

/-! ### config.c -/

/-- A line of the configuration. -/
def confLine : LCode :=
  maybe (oneOf [parseRouterKey, parseFilterLine, parseFirewallLine, parseRouteLine, logMsg])

theorem line_refines {q : LCode}
    (h : q ∈ [parseRouterKey, parseFilterLine, parseFirewallLine, parseRouteLine, logMsg]) :
    Refines q confLine := (Refines.oneOf h).trans refines_maybe

/-- A line: the section that it stands in decides which function gets it, and whether that one takes
a lock. -/
theorem loadLine_follows (sec p : List Byte) : Within MCmd.code (loadLine sec p) confLine := by
  have hkey := line_refines (List.mem_cons_self : parseRouterKey ∈ _)
  have hlog : Refines .done (all [maybe logMsg]) := .all_done done_refines_maybe
  have hfilter : Refines fwAdd parseFilterLine := (Refines.skip_last hlog).trans refines_maybe
  have hfirewall : Refines fwAdd parseFirewallLine := Refines.either_left.trans refines_maybe
  have hroute : Refines routeAdd parseRouteLine := Refines.either_left.trans refines_maybe
  unfold loadLine
  split_ifs
  · exact .last hkey
  · split
    · exact (Follows.last (hfilter.trans (line_refines (by simp)))).bind fun _ => .ret .refl
    · exact .ret done_refines_maybe
  · split
    · exact (Follows.last (hfirewall.trans (line_refines (by simp)))).bind fun _ => .ret .refl
    · exact .ret done_refines_maybe
  · refine .quiet rfl fun ifs => ?_
    split
    · exact (Follows.last (hroute.trans (line_refines (by simp)))).bind fun _ => .ret .refl
    · exact .ret done_refines_maybe
  · exact .ret done_refines_maybe

/-- The loop over the lines. -/
theorem loadLines_follows (lines : List (List Byte × List Byte)) :
    Within MCmd.code (loadLines lines) (loop confLine) := by
  induction lines with
  | nil => exact .ret .loop_done
  | cons line lines ih => exact ((loadLine_follows line.1 line.2).seq fun _ => ih).mono .loop_next

/-- `config_load`, with the file and without it, where the defaults are saved. -/
theorem configLoadSteps_follows : Within MCmd.code configLoadSteps configLoad := by
  have hnew : Refines (all [configDefault, fwClear, routeClearStatic, configSave]) configLoad :=
    (Refines.skip done_refines_maybe .refl).trans .either_left
  refine .quiet rfl fun file => ?_
  cases file with
  | none =>
      refine Follows.mono ?_ hnew
      exact .step .refl fun _ => .step .refl fun _ => .step .refl fun _ => .last (.skip_last .refl)
  | some file =>
      refine Follows.mono ?_ .either_right
      refine .step .refl fun _ => .step .refl fun _ => .step .refl fun _ => ?_
      have hend : Refines .done (all [cfgGet, logMsg]) := .all_done ⟨done_refines_alone, done_refines_maybe⟩
      exact (loadLines_follows _).mono (.skip_last hend)

/-- The end of a reload, whose output reads three settings. -/
theorem derive_refines : Refines routeDeriveConnected
    (all [maybe (all [routeDeriveConnected, cfgGet, cfgGet, cfgGet])]) := by
  have hend : Refines .done (all [cfgGet, cfgGet, cfgGet]) :=
    .all_done ⟨done_refines_alone, done_refines_alone, done_refines_alone⟩
  exact ((Refines.skip_last hend).trans refines_maybe).trans (.skip_last .refl)

theorem reload_follows : Within MCmd.code reload cmdReload :=
  configLoadSteps_follows.seq fun _ => .last derive_refines

/-! ### remote.c -/

/-- A text that is sent: the peer may be waited for. -/
theorem sendStr_follows (s : List Byte) : Within MCmd.code (sendStr s) sendAll := .last .refl

/-- An answer, with which a function ends. -/
theorem reply_follows {α : Type} (s : List Byte) (a : α) :
    Within MCmd.code (sendStr s >>= fun _ => pure a) sendAll :=
  (sendStr_follows s).bind fun _ => .ret .refl

/-- One of the codes of a line. -/
theorem handleLine_refines {q : LCode} (h : q ∈ [sendAll, all [cfgGet, sendAll],
    all [configSerialize, sendAll, sendAll, sendAll], all [upgradeBegin, sendAll],
    all [cmdDispatch, sendAll, sendAll]]) : Refines q handleLine := .oneOf h

theorem sendAll_refines : Refines sendAll handleLine := handleLine_refines List.mem_cons_self

/-- The password is read behind the pointer, so that `auth` only answers. -/
theorem handleAuth_follows (c : Conn) (args : List (List Byte)) :
    Within MCmd.code (handleAuth c args) sendAll := by
  have haccept : Within MCmd.code (do
      Prog.perform (.mark .authed)
      sendStr (Text.lit "AUTH_OK\r\n")
      pure { c with authed := true } : MAct Conn) sendAll := .quiet rfl fun _ => reply_follows _ _
  refine .quiet rfl fun pw => ?_
  split_ifs
  · exact haccept
  · cases args with
    | nil => exact reply_follows _ _
    | cons arg args =>
        refine .quiet rfl fun pw => ?_
        split_ifs
        · exact haccept
        · exact reply_follows _ _

/-- The text of the configuration in one section, then the three sends. -/
theorem handleGetconf_follows (c : Conn) : Within MCmd.code (handleGetconf c) handleLine := by
  have hcode : Refines (all [configSerialize, sendAll, sendAll, sendAll]) handleLine :=
    handleLine_refines (by simp)
  refine Follows.mono ?_ hcode
  refine .step .refl fun conf => ?_
  exact (sendStr_follows _).seq fun _ => (sendStr_follows _).seq fun _ =>
    (reply_follows _ _).mono (.skip_last .refl)

/-- `putconf` opens its file under no lock. -/
theorem handlePutconf_follows (c : Conn) (arg : List Byte) :
    Within MCmd.code (handlePutconf c arg) sendAll := by
  unfold handlePutconf
  dsimp only
  split_ifs
  · exact reply_follows _ _
  · refine .quiet rfl fun f => ?_
    cases f with
    | none => exact reply_follows _ _
    | some f => exact .quiet rfl fun _ => reply_follows _ _

/-- `upgrade_begin` under `g_up_lock`, then the answer. -/
theorem handleUpgrade_follows (c : Conn) (arg sha : List Byte) :
    Within MCmd.code (handleUpgrade c arg sha) handleLine := by
  have hcode : Refines (all [upgradeBegin, sendAll]) handleLine := handleLine_refines (by simp)
  refine Follows.mono ?_ hcode
  refine .step .refl fun err => ?_
  cases err with
  | some err => exact (reply_follows _ _).mono (.skip_last .refl)
  | none => exact .quiet rfl fun _ => (reply_follows _ _).mono (.skip_last .refl)

/-- A line of the console: the command, then its output and its result. -/
theorem handleCommand_follows (c : Conn) (line : List Byte) :
    Within MCmd.code (handleCommand c line) handleLine := by
  have hcode : Refines (all [cmdDispatch, sendAll, sendAll]) handleLine := handleLine_refines (by simp)
  refine Follows.mono ?_ hcode
  refine .step .refl fun r => ?_
  exact (sendStr_follows _).seq fun _ => (reply_follows _ _).mono (.skip_last .refl)

/-- The lines of an authenticated connection, by their first word. -/
theorem handleAuthed_follows (c : Conn) (first : List Byte) (args : List (List Byte))
    (line : List Byte) : Within MCmd.code (handleAuthed c first args line) handleLine := by
  unfold handleAuthed
  split
  · exact handleGetconf_follows c
  · split
    · exact handleCommand_follows c _
    · split
      · exact (handlePutconf_follows c _).mono sendAll_refines
      · split
        · exact handleCommand_follows c _
        · split
          · exact handleUpgrade_follows c _ _
          · exact handleCommand_follows c _

/-- **`handle_line`.** -/
theorem handleLine_follows (c : Conn) (line : List Byte) :
    Within MCmd.code (LinuxRouter.handleLine c line) handleLine := by
  unfold LinuxRouter.handleLine
  split
  · exact (reply_follows _ _).mono sendAll_refines
  · split
    · exact .ret (Refines.loop_done.trans sendAll_refines)
    · dsimp only
      split_ifs
      · exact (handleAuth_follows c _).mono sendAll_refines
      · exact (reply_follows _ _).mono sendAll_refines
      · exact handleAuthed_follows c _ _ line

/-- The lines of a buffer. -/
theorem processLinesFrom_follows (n : ℕ) (c : Conn) :
    Within MCmd.code (processLinesFrom n c) processLines := by
  induction n generalizing c with
  | zero => exact .ret .loop_done
  | succ n ih =>
      unfold processLinesFrom
      split_ifs
      · refine .quiet rfl fun _ => ?_
        refine Follows.mono ((handleLine_follows c _).seq fun d => ?_) .loop_next
        dsimp only
        split_ifs
        · exact .ret .loop_done
        · exact ih _
      · exact .ret .loop_done

/-- A part of a payload is written under no lock; a failure is answered. -/
theorem binWrite_follows (c : Conn) (p : List Byte) :
    Within MCmd.code (LinuxRouter.binWrite c p) binWrite := by
  refine .quiet rfl fun _ => ?_
  split
  · exact .quiet rfl fun r => .ret done_refines_maybe
  · exact .ret done_refines_maybe
  · refine .quiet rfl fun err => ?_
    cases err with
    | none => exact .ret done_refines_maybe
    | some err => exact (reply_follows _ _).mono refines_maybe
  · exact .ret done_refines_maybe

/-- The reload is over before the answer is sent. -/
theorem finishPutconf_follows (c : Conn) : Within MCmd.code (finishPutconf c) binFinish := by
  have hload : Refines (all [configLoad, routeDeriveConnected, sendAll]) binFinish := .oneOf (by simp)
  refine .quiet rfl fun ok => ?_
  split
  · exact .quiet rfl fun _ => (reply_follows _ _).mono (.oneOf (by simp))
  · refine Follows.mono (configLoadSteps_follows.seq fun _ => .step .refl fun _ => ?_) hload
    exact (reply_follows _ _).mono (.skip_last .refl)

/-- The end of a payload.  `config_save` inside `upgrade_finish` is a part of its section. -/
theorem binFinish_follows (c : Conn) : Within MCmd.code (LinuxRouter.binFinish c) binFinish := by
  have hup : Refines (all [upgradeFinish, sendAll, maybe upgradeExec]) binFinish := .oneOf (by simp)
  have hexec : Refines .done (all [maybe upgradeExec]) := .all_done done_refines_maybe
  refine .quiet rfl fun _ => ?_
  split
  · split
    · exact .quiet rfl fun _ => finishPutconf_follows _
    · exact finishPutconf_follows _
  · refine Follows.mono (.step .refl fun err => ?_) hup
    cases err with
    | some err => exact (reply_follows _ _).mono (.skip_last hexec)
    | none => exact (sendStr_follows _).seq fun _ => .step refines_maybe fun _ => .ret .refl
  · exact .ret (Refines.loop_done.trans (.oneOf (by simp : sendAll ∈ _)))

/-! ### A connection -/

/-- What a connection has still to do in its loop and after it. -/
def connRest : LCode := connPump.seq (maybe upgradeAbort)

/-- What it has still to do after a turn of `conn_pump`. -/
def connNext {α : Type} : Option α → LCode
  | some _ => connRest
  | none => .done

/-- What it does with the bytes that it has received. -/
def connBytes : LCode :=
  oneOf [all [binWrite, maybe (all [binFinish, processLines])], sendAll, processLines]

/-- The end of a connection, wherever it has got. -/
theorem abort_refines : Refines (maybe upgradeAbort) connRest := .skip .loop_done .refl

/-- It may also do nothing more: its loop may be over. -/
theorem done_refines_rest : Refines .done connRest := done_refines_maybe.trans abort_refines

/-- A turn, and what is after it. -/
theorem turn_refines : Refines (outside.seq (connBytes.seq connRest)) connRest := by
  have hturn : outside.seq (connBytes.seq connRest) = (all [outside, connBytes]).seq connRest := by
    rw [Code.all, Code.all, Code.all, Locks.seq_done, Locks.seq_assoc]
  rw [hturn]
  exact .loop_before

/-- Only an upgrade that is cut off needs a lock at the end. -/
theorem connClose_follows (c : Conn) : Within MCmd.code (connClose c) (maybe upgradeAbort) := by
  unfold connClose
  split
  · exact .quiet rfl fun _ => .last done_refines_maybe
  · exact .last refines_maybe
  · exact .ret done_refines_maybe

/-- A connection that ends. -/
theorem close_follows (c : Conn) : Follows MCmd.code (connClose c >>= fun _ => pure (none : Option Conn))
    connNext (maybe upgradeAbort) :=
  (connClose_follows c).bind fun _ => .ret .refl

/-- The lines that are there, and the loop after them. -/
theorem lines_follows (c : Conn) : Follows MCmd.code (some <$> LinuxRouter.processLines c) connNext
    (processLines.seq connRest) := .map (processLinesFrom_follows _ c).frame

/-- What follows a call of `bin_write`. -/
theorem pumpAfter_follows (take : ℕ) (r : Bool × Conn) : Follows MCmd.code (pumpAfter take r) connNext
    ((maybe (all [binFinish, processLines])).seq connRest) := by
  have hfinish : Refines (binFinish.seq (processLines.seq connRest))
      ((maybe (all [binFinish, processLines])).seq connRest) := by
    rw [← Locks.seq_assoc]
    exact .seq (.trans (.seq .refl (.skip_last .refl)) refines_maybe) .refl
  unfold pumpAfter
  dsimp only
  split
  · exact (close_follows _).mono (.skip done_refines_maybe abort_refines)
  · split
    · exact .ret (.skip done_refines_maybe .refl)
    · refine Follows.mono ((binFinish_follows _).seq fun f => ?_) hfinish
      cases f with
      | failed c => exact (close_follows c).mono (.skip .loop_done abort_refines)
      | replaced => exact .ret (.skip .loop_done done_refines_rest)
      | done c => exact lines_follows c

/-- A part of a payload. -/
theorem pumpBinary_follows (c : Conn) :
    Follows MCmd.code (pumpBinary c) connNext (connBytes.seq connRest) := by
  have hpayload : Refines (binWrite.seq ((maybe (all [binFinish, processLines])).seq connRest))
      (connBytes.seq connRest) := by
    have hone : Refines (all [binWrite, maybe (all [binFinish, processLines])]) connBytes :=
      .oneOf List.mem_cons_self
    rw [← Locks.seq_assoc]
    exact .seq (.trans (.seq .refl (.skip_last .refl)) hone) .refl
  have hwrite : Within MCmd.code
      (if min c.ibuf.length c.bleft = 0 then .ret (true, c)
        else LinuxRouter.binWrite c (c.ibuf.take (min c.ibuf.length c.bleft))) binWrite := by
    split
    · exact .ret done_refines_maybe
    · exact binWrite_follows c _
  rw [pumpBinary_eq]
  exact Follows.mono (hwrite.seq fun r => pumpAfter_follows _ r) hpayload

/-- Lines, or too many bytes without one. -/
theorem pumpLines_follows (c : Conn) :
    Follows MCmd.code (pumpLines c) connNext (connBytes.seq connRest) := by
  unfold pumpLines
  split
  · have herror : Refines (sendAll.seq (maybe upgradeAbort)) (connBytes.seq connRest) :=
      .seq (.oneOf (by simp)) abort_refines
    exact Follows.mono ((sendStr_follows _).seq fun _ => close_follows c) herror
  · exact (lines_follows c).mono (.seq (.oneOf (by simp)) .refl)

/-- A turn of `conn_pump`. -/
theorem connRound_follows (c : Conn) : Follows MCmd.code (connRound c) connNext connRest := by
  unfold connRound
  split
  · exact (close_follows c).mono abort_refines
  · refine .quiet rfl fun stop => ?_
    split
    · exact (close_follows c).mono abort_refines
    · refine Follows.mono (.step .refl fun bytes => ?_) turn_refines
      have hquiet : Refines .done connBytes := Refines.loop_done.trans (.oneOf (by simp : sendAll ∈ _))
      dsimp only
      split_ifs
      · exact (close_follows c).mono (.skip hquiet abort_refines)
      · exact pumpBinary_follows _
      · exact pumpLines_follows _

/-- The greeting, and the password that decides whether `auth` is asked for. -/
theorem connStart_follows :
    Follows MCmd.code connStart (fun _ => connRest) connThread := by
  have hafter : Refines connRest (all [cfgGet, connPump, maybe upgradeAbort]) :=
    .skip done_refines_alone (.seq .refl (.skip_last .refl))
  refine (sendStr_follows _).seq fun _ => .quiet rfl fun pw => .ret hafter

/-! ### terminal.c -/

/-- The second loop of `route_derive_connected` takes no lock. -/
theorem deriveLoop_follows (i : ℕ) (ifs : Ifaces) : Within CtlCmd.code (deriveLoop i ifs) .done := by
  induction ifs generalizing i with
  | nil => exact .ret .refl
  | cons it ifs ih =>
      refine .quiet rfl fun full => ?_
      split
      · exact .ret .refl
      · refine .quiet rfl fun ip => ?_
        split
        · exact ih _
        · refine .quiet rfl fun mask => ?_
          split
          · exact ih _
          · exact .quiet rfl fun _ => .quiet rfl fun _ => .quiet rfl fun _ => .quiet rfl fun _ => ih _

/-- `route_derive_connected`: the lock of the routes around the whole of it. -/
theorem deriveSteps_follows (t : ℕ) : Within CtlCmd.code (deriveSteps t) routeDeriveConnected := by
  have hsection : Within CtlCmd.code (deriveSteps t)
      (Code.seq (.lock Lock.route .write .done) (.unlock Lock.route .done)) := by
    refine .step .refl fun _ => .quiet rfl fun ifs => ?_
    exact (deriveLoop_follows 0 ifs).seq fun _ => .last .refl
  exact hsection.mono (.skip_last (.all_done done_refines_maybe))

/-- The interfaces are written under no lock. -/
theorem ifaceAddAddrSteps_follows (name : List Byte) (ip mask : Ip) :
    Within CtlCmd.code (ifaceAddAddrSteps name ip mask) .done := by
  refine .quiet rfl fun ifs => ?_
  split
  · exact .ret .refl
  · refine .quiet rfl fun ok => ?_
    split
    · exact .quiet rfl fun _ => .quiet rfl fun _ => .ret .refl
    · exact .ret .refl

/-- An address is set, and the routes are derived. -/
theorem setAddr_follows (t : ℕ) (name : List Byte) (ip mask : Ip) :
    Within CtlCmd.code (do if ← ifaceAddAddrSteps name ip mask then deriveSteps t else pure ())
      (maybe (all [ifaceLogs, maybe routeDeriveConnected])) := by
  have hderive : Refines routeDeriveConnected (maybe (all [ifaceLogs, maybe routeDeriveConnected])) :=
    (Refines.skip .loop_done (refines_maybe.trans (.skip_last .refl))).trans refines_maybe
  refine (ifaceAddAddrSteps_follows name ip mask).seq fun ok => ?_
  split
  · exact (deriveSteps_follows t).mono hderive
  · exact .ret done_refines_maybe

/-- A command of a connection as one of the console. -/
theorem of_follows ⦃β : Type⦄ (c : MCmd β) : Within CtlCmd.code (Control.of c) c.code := by
  cases c with
  | dispatch => exact .last done_refines_maybe
  | _ => exact .last .refl

/-- `cmd_reload`. -/
theorem reloadSteps_follows (t : ℕ) : Within CtlCmd.code (reloadSteps t) cmdReload :=
  (configLoadSteps_follows.handle of_follows).seq fun _ => (deriveSteps_follows t).mono derive_refines

theorem setipSteps_follows (t : ℕ) (args : List (List Byte)) :
    Within CtlCmd.code (setipSteps t args) cmdSetip := by
  unfold setipSteps
  split
  · split
    · exact .ret done_refines_maybe
    · exact setAddr_follows t _ _ _
  · exact .ret done_refines_maybe

theorem delipSteps_follows (t : ℕ) (args : List (List Byte)) :
    Within CtlCmd.code (delipSteps t args) cmdDelip := by
  unfold delipSteps
  split
  · exact setAddr_follows t _ 0 0
  · exact .ret done_refines_maybe

theorem addfwSteps_follows (args : List (List Byte)) :
    Within CtlCmd.code (addfwSteps args) cmdAddfw := by
  unfold addfwSteps
  split
  · exact .ret done_refines_maybe
  · refine .quiet rfl fun junk => ?_
    split
    · exact .ret done_refines_maybe
    · exact (Follows.last refines_maybe).bind fun _ => .ret .refl

theorem delfwSteps_follows (args : List (List Byte)) :
    Within CtlCmd.code (delfwSteps args) cmdDelfw := by
  unfold delfwSteps
  split
  · exact .last refines_maybe
  · exact .ret done_refines_maybe

theorem addrouteSteps_follows (args : List (List Byte)) :
    Within CtlCmd.code (addrouteSteps args) cmdAddroute := by
  unfold addrouteSteps
  split
  · split
    · exact .ret done_refines_maybe
    · refine .quiet rfl fun ifs => ?_
      split
      · exact .ret done_refines_maybe
      · split
        · exact .ret done_refines_maybe
        · exact (Follows.last refines_maybe).bind fun _ => .ret .refl
  · exact .ret done_refines_maybe

theorem delrouteSteps_follows (args : List (List Byte)) :
    Within CtlCmd.code (delrouteSteps args) cmdDelroute := by
  unfold delrouteSteps
  split
  · exact .last refines_maybe
  · exact .ret done_refines_maybe

/-- One of the codes of a command. -/
theorem cmdDispatch_refines {q : LCode} (h : q ∈ [cmdSetip, cmdDelip, cmdAddfw, cmdDelfw, fwShow,
    cmdAddroute, cmdDelroute, routeShow, arpShow, tpoolShow, pendShow, configSerialize, configSave,
    cmdReload]) : Refines q cmdDispatch := (Refines.oneOf h).trans refines_maybe

/-- A command through the table. -/
theorem callSteps_follows (t : ℕ) (args : List (List Byte)) (f : CmdFn) :
    Within CtlCmd.code (callSteps t args f) cmdDispatch := by
  cases f with
  | setip => exact (setipSteps_follows t args).mono (cmdDispatch_refines (by simp))
  | delip => exact (delipSteps_follows t args).mono (cmdDispatch_refines (by simp))
  | addfw => exact (addfwSteps_follows args).mono (cmdDispatch_refines (by simp))
  | delfw => exact (delfwSteps_follows args).mono (cmdDispatch_refines (by simp))
  | addroute => exact (addrouteSteps_follows args).mono (cmdDispatch_refines (by simp))
  | delroute => exact (delrouteSteps_follows args).mono (cmdDispatch_refines (by simp))
  | save => exact (of_follows .configSave).mono (cmdDispatch_refines (by simp [MCmd.code]))
  | reload => exact (reloadSteps_follows t).mono (cmdDispatch_refines (by simp))
  -- the others show something
  | help | showip | showfw | showroute | showif | showarp | showthread | showpool | showpend | showstat
  | showcfg | exit => exact .ret done_refines_maybe

/-- `cmd_dispatch`; a word that no command has takes no lock. -/
theorem dispatchSteps_follows (t : ℕ) (line : List Byte) :
    Within CtlCmd.code (dispatchSteps t line) cmdDispatch := by
  unfold dispatchSteps
  split
  · exact .ret done_refines_maybe
  · split
    · exact callSteps_follows t _ _
    · exact .ret done_refines_maybe

/-- The steps of a command do no more than the command. -/
theorem inSteps_follows (t : ℕ) ⦃β : Type⦄ (c : MCmd β) : Within CtlCmd.code (inSteps t c) c.code := by
  cases c with
  | dispatch line =>
      have hdispatch : Refines (cmdDispatch.seq .done) cmdDispatch := by
        rw [Locks.seq_done]
        exact .refl
      exact Follows.mono ((dispatchSteps_follows t line).seq fun _ => .last .refl) hdispatch
  | routeDeriveConnected => exact deriveSteps_follows t
  | _ => exact of_follows _

/-! ### The threads -/

/-- What the console has still to do, between two lines. -/
def terminalRest : LCode := loop (all [outside, maybe cmdDispatch])

/-- What a thread has still to do, between two rounds. -/
def rest : CtlTask → LCode
  | .terminal => terminalRest
  | .task .accept => connThread
  | .task (.pump _) => connRest
  | .task .reload => cmdReload

/-- A turn of `terminal_loop`: a line is waited for, and a command follows it, or none. -/
theorem terminalRound_follows (t : ℕ) :
    Follows CtlCmd.code (terminalRound t) (fun o => o.elim .done rest) terminalRest := by
  have hround : Refines (outside.seq ((maybe cmdDispatch).seq terminalRest)) terminalRest := by
    have hassoc : outside.seq ((maybe cmdDispatch).seq terminalRest) =
        (all [outside, maybe cmdDispatch]).seq terminalRest := by
      rw [Code.all, Code.all, Code.all, Locks.seq_done, Locks.seq_assoc]
    rw [hassoc]
    exact .loop_next
  have hend : Refines .done ((maybe cmdDispatch).seq terminalRest) := .skip done_refines_maybe .loop_done
  have hnext : Refines terminalRest ((maybe cmdDispatch).seq terminalRest) := .skip done_refines_maybe .refl
  refine .quiet rfl fun stop => ?_
  split
  · exact .ret .loop_done
  · refine Follows.mono (.step .refl fun line => ?_) hround
    split
    · refine .quiet rfl fun tty => ?_
      split
      · exact .ret hend
      · exact .ret hnext
    · dsimp only
      split
      · exact .ret hnext
      · have hcmd : Refines (cmdDispatch.seq terminalRest) ((maybe cmdDispatch).seq terminalRest) :=
          .seq refines_maybe .refl
        refine Follows.mono ((inSteps_follows t _).seq fun r => ?_) hcmd
        split
        · exact .ret .loop_done
        · exact .ret .refl

/-- **A round, and what the thread has still to do after it, is what it had to do before.** -/
theorem ctlBody_follows (t : ℕ) (l : CtlTask) :
    Follows CtlCmd.code (ctlBody t l) (fun o => o.elim .done rest) (rest l) := by
  cases l with
  | terminal => exact terminalRound_follows t
  | task l =>
      refine .map (.handle (inSteps_follows t) ?_)
      cases l with
      | accept => exact .map connStart_follows
      | pump c =>
          refine .map ((connRound_follows c).after fun o => ?_)
          cases o with
          | none => exact .refl
          | some c => exact .refl
      | reload => exact .map reload_follows

/-- Between two rounds a thread may rest for good. -/
theorem done_refines_idle (l : CtlTask) : Refines .done (rest l) := by
  cases l with
  | terminal => exact .loop_done
  | task l =>
      cases l with
      | accept => exact .all_done ⟨.loop_done, done_refines_alone, .loop_done, done_refines_maybe⟩
      | pump c => exact done_refines_rest
      | reload =>
          have hfile : Refines .done
              (all [configDefault, fwClear, routeClearStatic, loop confLine, cfgGet, logMsg]) :=
            .all_done ⟨done_refines_alone, done_refines_alone, done_refines_alone, .loop_done, done_refines_alone,
              done_refines_maybe⟩
          have hload : Refines .done configLoad := hfile.trans .either_right
          exact .all_done ⟨hload, done_refines_maybe⟩

/-- Whatever a thread has still to do is in order. -/
theorem rest_calm (l : CtlTask) : Calm (rest l) := by
  cases l with
  | terminal => exact .loop (.all ⟨.outside, cmdDispatch_calm.maybe⟩)
  | task l =>
      cases l with
      | accept => exact connThread_calm
      | pump c => exact Locks.Ok.seq connPump_calm alone_calm.maybe
      | reload => exact cmdReload_calm

section Results

variable {t : ℕ} {l : CtlTask} {o : Option CtlTask} {es : List (Locks.Event Lock)}

/-- What a thread does in some rounds, with any answers, is admitted by what it had to do. -/
theorem rounds_admitted (h : Rounds CtlCmd.code (ctlBody t) l o es) : Admits (rest l) es :=
  h.admits (fun l => done_refines_idle l [] Trace.done.admits) (ctlBody_follows t)

/-- **A connection keeps to its code**, from the greeting on. -/
theorem conn_admitted (i : ℕ) (h : Rounds CtlCmd.code (ctlBody t) (.task .accept) o es) :
    Admits (body (.conn i)) es := rounds_admitted h

/-- **The console keeps to its code.** -/
theorem terminal_admitted (h : Rounds CtlCmd.code (ctlBody t) .terminal o es) :
    Admits (body .terminal) es := by
  have hcode : Refines terminalRest (body .terminal) := .skip done_refines_maybe (.skip_last .refl)
  exact hcode es (rounds_admitted h)

/-- **The management programs keep the order of the locks**: whatever they are answered, they take each
lock above all that they hold, they wait for a peer or for a line with none in hand, and a thread
between two rounds holds none. -/
theorem rounds_inOrder (h : Rounds CtlCmd.code (ctlBody t) l o es) : InOrder Lock.rank [] es [] :=
  (rounds_admitted h).inOrder (rest_calm l)

end Results

end LockCode

end LinuxRouter
