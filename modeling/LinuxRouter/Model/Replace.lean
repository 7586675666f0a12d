import LinuxRouter.Support.Stdio
import LinuxRouter.Model.Manage

/-!
# Model — Replace

The two ways to a new `router.conf`: `config_save`, and an upload by `putconf`, as far as they go
for the files.  Here `fwrite` buffers, and every file call may fail.

* `configSaveFile` is `config_save`.  Its temporary file is `router.conf.tmp`.
* `putconf` is an upload from its line to its end, over `router.conf.new`: the size check and
  `fopen` of `handle_line`, the part of `conn_pump` that takes a payload, `bin_finish`, and what
  `conn_thread` does if it comes to that.  The result is what it sends.
* `configLoadFile` is `config_load`, which writes the file if it cannot read it.
-/

namespace LinuxRouter

open Text (lit)
open Files (Fs)
open Stdio (Stream Written)

/-- What the calls of `config_save` return.  `flushed` and `closed` are nothing for 0, and otherwise
how many bytes were written before the failure. -/
structure SaveCalls where
  malloc : Bool
  opened : Bool
  wrote : Written
  flushed : Option ℕ
  synced : Bool
  closed : Option ℕ
  renamed : Bool
  unlinked : Bool

/-- The temporary file of `config_save`. -/
def saveTmp : Path := configFile ++ lit ".tmp"

/-- `unlink`, if it succeeds. -/
def tryUnlink (ok : Bool) (path : Path) (fs : Disk) : Disk := if ok then fs.unlink path else fs

/-- `config_save`, from `fopen` on: whether it returns 0. -/
def saveText (o : SaveCalls) (text : List Byte) (fs : Disk) : Bool × Disk :=
  if o.opened = false then (false, fs)
  else
    let (fp, fs) := Stdio.fopenW saveTmp fs
    let (n, fp, fs) := Stdio.fwrite o.wrote text fp fs
    let (flushed, fp, fs) := Stdio.fflush o.flushed fp fs
    let rc := n == text.length && flushed && o.synced
    -- what `fclose` returns is not looked at
    let (_, fs) := Stdio.fclose o.closed fp fs
    if rc && o.renamed then (true, fs.rename saveTmp configFile)
    else (false, tryUnlink o.unlinked saveTmp fs)

/-- `config_save`: whether it returns 0.  `buf` is what `malloc` returns. -/
def configSaveFile (o : SaveCalls) (buf : ℕ → Byte) (c : ConfSource) (fs : Disk) : Bool × Disk :=
  if o.malloc = false then (false, fs)
  else
    match configSave buf c with
    | none => (false, fs)
    | some text => saveText o text fs

/-! ### An upload -/

/-- What the calls of an upload return.  `chunks` is what is in the buffer after each `recv`, until
one returns nothing, with the `fwrite` for it.  `loaded` is whether `config_load` can open the file,
and `save` is what it does if not. -/
structure UploadCalls where
  opened : Bool
  chunks : List (Written × List Byte)
  closed : Option ℕ
  renamed : Bool
  unlinked : Bool
  loaded : Bool
  save : SaveCalls

/-- The tables after `config_default`, `fw_clear` and `route_clear_static`. -/
def ConfSource.cleared (c : ConfSource) : ConfSource where
  cfg := cfgDefault
  rules := []
  routes := routeClearStatic c.routes
  ifaces := c.ifaces
  clz0 := c.clz0
  stack := c.stack
  rules_le := Nat.zero_le _
  routes_le := (List.length_filter_le ..).trans c.routes_le

/-- `config_load`, as far as it changes files. -/
def configLoadFile (loaded : Bool) (o : SaveCalls) (buf : ℕ → Byte) (c : ConfSource) (fs : Disk) :
    Disk :=
  if loaded then fs else (configSaveFile o buf c.cleared fs).2

/-- `conn_pump` in a payload of which `bleft` bytes are missing: whether it is all there. -/
def putconfPump : List (Written × List Byte) → ℕ → Stream → Disk → Bool × Stream × Disk
  | [], _, fp, fs => (false, fp, fs)
  | (o, p) :: ps, bleft, fp, fs =>
      let part := p.take (min p.length bleft)
      let (n, fp, fs) := if part = [] then (0, fp, fs) else Stdio.fwrite o part fp fs
      if n ≠ part.length then (false, fp, fs)
      else if bleft - part.length = 0 then (true, fp, fs)
      else putconfPump ps (bleft - part.length) fp fs

/-- `bin_finish` of an upload. -/
def putconfFinish (o : UploadCalls) (buf : ℕ → Byte) (c : ConfSource) (fp : Stream) (fs : Disk) :
    List (List Byte) × Disk :=
  -- what `fclose` returns is not looked at
  let (_, fs) := Stdio.fclose o.closed fp fs
  if o.renamed = false then ([lit "rename failed\r\nCMD_ERR\r\n"], tryUnlink o.unlinked confTmp fs)
  else
    ([lit "OK reloaded\r\n"],
      configLoadFile o.loaded o.save buf c (fs.rename confTmp configFile))

/-- `conn_thread`, where the payload is not all there. -/
def putconfAbort (o : UploadCalls) (fp : Stream) (fs : Disk) : Disk :=
  let (_, fs) := Stdio.fclose o.closed fp fs
  tryUnlink o.unlinked confTmp fs

/-- `putconf`: what is sent. -/
def putconf (o : UploadCalls) (size : ℕ) (buf : ℕ → Byte) (c : ConfSource) (fs : Disk) :
    List (List Byte) × Disk :=
  if size = 0 ∨ 256 * 1024 < size then ([lit "bad size\r\nCMD_ERR\r\n"], fs)
  else if o.opened = false then ([lit "open failed\r\nCMD_ERR\r\n"], fs)
  else
    let (fp, fs) := Stdio.fopenW confTmp fs
    let (ok, fp, fs) := putconfPump o.chunks size fp fs
    if ok then
      let (sent, fs) := putconfFinish o buf c fp fs
      (lit "OK\r\n" :: sent, fs)
    else ([lit "OK\r\n"], putconfAbort o fp fs)

end LinuxRouter
