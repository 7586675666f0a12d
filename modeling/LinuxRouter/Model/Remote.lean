import LinuxRouter.Model.Manage

/-!
# Model — Remote

`remote.c`: a management connection.  A line protocol, and payloads of a known length on the same
buffer.

A round of a connection's thread is one turn of the loop of `conn_pump`; what it carries over is the
`conn_t`.  `ibuf` is the first `ilen` bytes of the buffer.
-/

namespace LinuxRouter

open Text (lit fmtNat nul nl cr)
open Stdio (Stream)
open Program.Prog (perform)

inductive Mode where
  | line | putconf | upgrade
  deriving DecidableEq

/-- `conn_t`. -/
structure Conn where
  authed : Bool
  closed : Bool
  ibuf : List Byte
  binary : Bool
  bleft : ℕ
  mode : Mode
  pcfp : Option Stream
  deriving DecidableEq

/-- `sizeof(ibuf)`. -/
def ibufSize : ℕ := 16384

/-- A fresh `conn_t`. -/
def Conn.init : Conn where
  authed := false
  closed := false
  ibuf := []
  binary := false
  bleft := 0
  mode := .line
  pcfp := none

/-- `send_str`.  Its result is never used. -/
def sendStr (s : List Byte) : MAct Unit := perform (.send s)

/-- An error text and `CMD_ERR`, in a `char e[256]`. -/
def sendErr (err : List Byte) : MAct Unit :=
  sendStr (Text.CStr.store 256 (err ++ lit "\r\nCMD_ERR\r\n")).1

/-- The last reply to an upload that is in force. -/
def okReloaded : List Byte := lit "OK reloaded\r\n"

/-! ### Commands -/

/-- `auth`.  The password is read where it is stored, twice. -/
def handleAuth (c : Conn) (args : List (List Byte)) : MAct Conn := do
  let accept : MAct Conn := do
    perform (.mark .authed)
    sendStr (lit "AUTH_OK\r\n")
    pure { c with authed := true }
  let refuse : MAct Conn := do
    sendStr (lit "AUTH_FAIL\r\n")
    pure c
  let pw ← perform .password
  if pw = [] then accept
  else
    match args with
    | [] => refuse
    | arg :: _ =>
      let pw ← perform .password
      if arg = pw then accept else refuse

/-- `getconf`. -/
def handleGetconf (c : Conn) : MAct Conn := do
  let buf := (← perform .serialize).getD []
  sendStr (lit "CONF_BEGIN " ++ fmtNat buf.length ++ lit "\r\n")
  sendStr buf
  sendStr (lit "\r\nCONF_END\r\n")
  pure c

/-- `putconf`. -/
def handlePutconf (c : Conn) (arg : List Byte) : MAct Conn := do
  let size := Text.strtoul arg
  if size = 0 ∨ 256 * 1024 < size then
    sendStr (lit "bad size\r\nCMD_ERR\r\n")
    pure c
  else
    match ← perform .fopen with
    | none =>
      sendStr (lit "open failed\r\nCMD_ERR\r\n")
      pure { c with pcfp := none }
    | some f =>
      perform (.mark (.binary size))
      sendStr (lit "OK\r\n")
      pure { c with pcfp := some f, binary := true, bleft := size, mode := .putconf }

/-- `upgrade`. -/
def handleUpgrade (c : Conn) (arg sha : List Byte) : MAct Conn := do
  let size := Text.strtoul arg
  match ← perform (.upgradeBegin sha size) with
  | some err =>
    sendErr err
    pure c
  | none =>
    perform (.mark (.binary size))
    sendStr (lit "OK\r\n")
    pure { c with binary := true, bleft := size, mode := .upgrade }

/-- The commands of the table.  `exit` closes the connection only. -/
def handleCommand (c : Conn) (line : List Byte) : MAct Conn := do
  let (rc, out) ← perform (.dispatch line)
  sendStr out
  sendStr (if rc = 1 ∨ rc = 0 then lit "\r\nCMD_OK\r\n" else lit "\r\nCMD_ERR\r\n")
  pure (if rc = 1 then { c with closed := true } else c)

/-- A line of an authenticated connection, that is not `auth`. -/
def handleAuthed (c : Conn) (first : List Byte) (args : List (List Byte)) (line : List Byte) :
    MAct Conn :=
  if first = lit "getconf" then handleGetconf c
  else
    match args with
    | [] => handleCommand c (if first = lit "stat" then lit "showstat" else line)
    | arg :: args =>
        if first = lit "putconf" then handlePutconf c arg
        else
          match args with
          | [] => handleCommand c (if first = lit "stat" then lit "showstat" else line)
          | sha :: _ =>
              if first = lit "upgrade" then handleUpgrade c arg sha
              else handleCommand c (if first = lit "stat" then lit "showstat" else line)

/-- `handle_line`. -/
def handleLine (c : Conn) (line : List Byte) : MAct Conn :=
  if 512 ≤ line.length then do
    sendStr (lit "line too long\r\nCMD_ERR\r\n")
    pure c
  else
    match tokSplit line 24 with
    | [] => pure c
    | tok :: args =>
        let first := (Text.CStr.store 16 tok).1
        if first = lit "auth" then handleAuth c args
        else if !c.authed then do
          sendStr (lit "AUTH_REQUIRED\r\n")
          pure c
        else handleAuthed c first args line

/-! ### Lines and payloads -/

/-- The string `handle_line` gets for the bytes before a newline. -/
def lineText (raw : List Byte) : List Byte := Text.cstr (dropEnd cr raw)

/-- The loop of `process_lines`, at most `n` rounds. -/
def processLinesFrom : ℕ → Conn → MAct Conn
  | 0, c => pure c
  | n + 1, c =>
      if nl ∈ c.ibuf then do
        let raw := c.ibuf.takeWhile (· != nl)
        perform (.mark (.line raw))
        let d ← handleLine c (lineText raw)
        let d := { d with ibuf := c.ibuf.drop (raw.length + 1) }
        if d.closed ∨ d.binary then pure d else processLinesFrom n d
      else pure c

/-- `process_lines`.  A round takes at least one byte. -/
def processLines (c : Conn) : MAct Conn := processLinesFrom c.ibuf.length c

/-- `bin_write`: whether it succeeded. -/
def binWrite (c : Conn) (p : List Byte) : MAct (Bool × Conn) := do
  perform (.mark (.chunk p))
  match c.mode, c.pcfp with
  | .putconf, some f =>
    let (n, f) ← perform (.fwrite f p)
    pure (n = p.length, { c with pcfp := some f })
  | .putconf, none => pure (false, c)
  | .upgrade, _ =>
    match ← perform (.upgradeWrite p) with
    | none => pure (true, c)
    | some err =>
      sendErr err
      pure (false, c)
  | .line, _ => pure (true, c)

/-- How `bin_finish` ends; after `execv` it does not. -/
inductive Finish where
  | failed (c : Conn)
  | done (c : Conn)
  | replaced

/-- `bin_finish`. -/
def binFinish (c : Conn) : MAct Finish := do
  perform (.mark .finish)
  match c.mode with
  | .putconf =>
    match c.pcfp with
    -- what `fclose` returns is not looked at
    | some f => let _ ← perform (.fclose f)
    | none => pure ()
    let c := { c with pcfp := none }
    if !(← perform .rename) then
      perform .unlink
      sendStr (lit "rename failed\r\nCMD_ERR\r\n")
      pure (.failed c)
    else
      configLoadSteps
      perform .routeDeriveConnected
      sendStr (lit "OK reloaded\r\n")
      pure (.done c)
  | .upgrade =>
    match ← perform .upgradeFinish with
    | some err =>
      sendErr err
      pure (.failed c)
    | none =>
      sendStr (lit "OK upgrading\r\n")
      pure (if ← perform .upgradeExec then .replaced else .done c)
  | .line => pure (.done c)

/-! ### The thread -/

/-- What `conn_thread` does after `conn_pump`. -/
def connClose (c : Conn) : MAct Unit := do
  match c.mode, c.pcfp with
  | .putconf, some f =>
    let _ ← perform (.fclose f)
    perform .unlink
  | .upgrade, _ => perform .upgradeAbort
  | _, _ => pure ()

/-- A part of a payload, at the front of the buffer. -/
def pumpBinary (c : Conn) : MAct (Option Conn) := do
  let take := min c.ibuf.length c.bleft
  let (ok, c) ← if take = 0 then pure (true, c) else binWrite c (c.ibuf.take take)
  if !ok then
    connClose c
    pure none
  else
    let c := { c with ibuf := c.ibuf.drop take, bleft := c.bleft - take }
    if c.bleft ≠ 0 then pure (some c)
    else
      match ← binFinish { c with binary := false } with
      | .failed c =>
        connClose c
        pure none
      | .replaced => pure none
      | .done c => some <$> processLines c

/-- Lines.  A buffer of more than 8192 bytes is a protocol error. -/
def pumpLines (c : Conn) : MAct (Option Conn) := do
  if 8192 < c.ibuf.length then
    sendStr (lit "protocol error\r\nCMD_ERR\r\n")
    connClose c
    pure none
  else some <$> processLines c

/-- A turn of the loop of `conn_pump`, and the end of `conn_thread` after its last one. -/
def connRound (c : Conn) : MAct (Option Conn) := do
  if c.closed then
    connClose c
    pure none
  else if ← perform .stop then
    connClose c
    pure none
  else
    let bytes ← perform (.recv (ibufSize - c.ibuf.length))
    if bytes = [] then
      connClose c
      pure none
    else
      let c := { c with ibuf := c.ibuf ++ bytes }
      if c.binary then pumpBinary c else pumpLines c

/-- `conn_thread` up to `conn_pump`. -/
def connStart : MAct Conn := do
  sendStr (lit "MOTD RTR v1.0\r\n")
  let pw ← perform .password
  pure { Conn.init with authed := pw = [] }

/-- `cmd_reload`, and every other reload from outside a connection. -/
def reload : MAct Unit := do
  configLoadSteps
  perform .routeDeriveConnected

/-! ### The system -/

/-- What a management thread is about to do. -/
inductive Task where
  | accept
  | pump (c : Conn)
  | reload

/-- What a thread does, as its history has it. -/
inductive Note where
  | mark (m : Mark)
  | recv (room : ℕ) (bytes : List Byte)
  | send (s : List Byte)
  | password (pw : List Byte)
  | serialize
  | dispatch (line : List Byte)
  | fopen (f : Option Stream)
  | fwrite (p : List Byte) (n : ℕ) (f : Stream)
  | fclose (ok : Bool)
  | rename (ok : Bool)
  | unlink
  | upgradeBegin (ok : Bool)
  | upgradeWrite (p : List Byte) (ok : Bool)
  | upgradeFinish (ok : Bool)
  | upgradeExec
  | upgradeAbort
  | readConf (text : Option (List Byte))
  | configDefault
  | configSave
  | routerKey (p : List Byte)
  | fwClear
  | fwAdd (r : FwRule) (ok : Bool)
  | routeAdd (ok : Bool)
  | quiet

/-- The note of a command and its answer. -/
def MCmd.note : ∀ ⦃β : Type⦄, MCmd β → β → Note
  | _, .mark m, _ => .mark m
  | _, .stop, _ => .quiet
  | _, .recv room, bytes => .recv room bytes
  | _, .send s, _ => .send s
  | _, .password, pw => .password pw
  | _, .serialize, _ => .serialize
  | _, .dispatch line, _ => .dispatch line
  | _, .fopen, f => .fopen f
  | _, .fwrite _ p, r => .fwrite p r.1 r.2
  | _, .fclose _, ok => .fclose ok
  | _, .rename, ok => .rename ok
  | _, .unlink, _ => .unlink
  | _, .upgradeBegin _ _, err => .upgradeBegin err.isNone
  | _, .upgradeWrite p, err => .upgradeWrite p err.isNone
  | _, .upgradeFinish, err => .upgradeFinish err.isNone
  | _, .upgradeExec, _ => .upgradeExec
  | _, .upgradeAbort, _ => .upgradeAbort
  | _, .readConf, text => .readConf text
  | _, .configDefault, _ => .configDefault
  | _, .configSave, _ => .configSave
  | _, .routerKey p, _ => .routerKey p
  | _, .fwClear, _ => .fwClear
  | _, .fwAdd r, ok => .fwAdd r ok
  | _, .ifaces, _ => .quiet
  | _, .routeClearStatic, _ => .quiet
  | _, .routeAdd _ _ _ _, ok => .routeAdd ok
  | _, .routeDeriveConnected, _ => .quiet

/-- A round of a management thread. -/
def taskBody : Task → MAct (Option Task)
  | .accept => (fun c => some (.pump c)) <$> connStart
  | .pump c => Option.map .pump <$> connRound c
  | .reload => (fun _ => none) <$> reload

/-- The management side: any number of connections and reloads.  A thread's ghost value is its
history, newest first. -/
def manage (admin : Manage → Manage → Prop) :
    Program.System MCmd World Manage (List Note) ℕ Task where
  exec := execM
  hold _ c _ a h := c.note a :: h
  body _ := taskBody
  admin := admin

end LinuxRouter
