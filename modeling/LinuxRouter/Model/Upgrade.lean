import LinuxRouter.Support.Files
import LinuxRouter.Model.Router
import LinuxRouter.Model.Sha256

/-!
# Model — Upgrade

`upgrade.c`: the upgrade session, `g_up`, and the four calls on it.

A call returns the text of its error, or nothing.  What its file calls return is a `FileCalls`.  The
bytes of a successful `fwrite` are taken to be in the file; `fclose` may still fail.

The ways out of `upgrade_finish` are in the order of the source, each with its cleanup.  The session
is a global that any caller may use: nothing here asks who it is.

What `upgrade_begin` takes for the path of the executable is what `readlink` gives it, up to 511
bytes, and the new file has that name with `.new` behind it.  Size, magic number and hash are
followed piece by piece in the session, and looked at only at the end.  `upgrade_abort` closes and
removes the file of whatever session there is.
-/

namespace LinuxRouter

open Text (lit fmtNat)
open Files (Fs File)

abbrev Path := List Byte

/-- The file system. -/
abbrev Disk := Fs Path

/-- `CONFIG_FILE`. -/
def configFile : Path := lit "router.conf"

/-- What the file calls of an operation return.  `exe` is the target of `/proc/self/exe`; `wrote` is
how much of a failed `fwrite` was written, `none` for one that did not fail; `saved` is the file
that `config_save` leaves, if it does not fail. -/
structure FileCalls where
  exe : Option Path
  opened : Bool
  wrote : Option ℕ
  closed : Bool
  renamed : Bool
  saved : Option (List Byte)

/-- `g_up`.  `first4` is its first `nfirst` bytes. -/
structure Upgrade where
  inProgress : Bool
  newPath : Path
  exePath : Path
  fp : Option File
  hc : Sha256
  haveSha : Bool
  expect : List Byte
  expected : ℕ
  received : ℕ
  first4 : List Byte

/-- The text of an error, in a `char err[128]`. -/
def errText (s : List Byte) : Option (List Byte) := some (Text.CStr.store 128 s).1

/-- `hex_digit`. -/
def hexDigit (c : Byte) : Option (BitVec 8) :=
  if 48#8 ≤ c ∧ c ≤ 57#8 then some (c - 48#8)
  else if 97#8 ≤ c ∧ c ≤ 102#8 then some (c - 97#8 + 10)
  else if 65#8 ≤ c ∧ c ≤ 70#8 then some (c - 65#8 + 10)
  else none

/-- The loop of `hex_to_bytes`. -/
def hexPairs : List Byte → Option (List Byte)
  | hi :: lo :: s =>
      match hexDigit hi, hexDigit lo with
      | some h, some l => (hexPairs s).map fun out => (h <<< 4 ||| l) :: out
      | _, _ => none
  | _ => some []

/-- `hex_to_bytes`. -/
def hexToBytes (hex : List Byte) (n : ℕ) : Option (List Byte) :=
  if hex.length ≠ n * 2 then none else hexPairs hex

/-- `upgrade_begin`. -/
def upgradeBegin (o : FileCalls) (shaHex : List Byte) (size : ℕ) (u : Upgrade) (fs : Disk) :
    Option (List Byte) × Upgrade × Disk :=
  if size = 0 ∨ maxUpload < size then (errText (lit "bad size " ++ fmtNat size), u, fs)
  else if u.inProgress then (errText (lit "upgrade already in progress"), u, fs)
  else
    match o.exe with
    | none | some [] => (errText (lit "cannot resolve /proc/self/exe"), u, fs)
    | some path =>
        let exe := Text.cstr (path.take 511)
        let u := { u with exePath := exe, newPath := exe ++ lit ".new" }
        if o.opened = false then
          (errText (lit "cannot create " ++ u.newPath), { u with fp := none }, fs)
        else
          let (f, fs) := fs.openW u.newPath
          let u := { u with
            fp := some f, expected := size, received := 0, first4 := []
            haveSha := shaHex != lit "-" }
          if u.haveSha then
            match hexToBytes shaHex 32 with
            -- `g_up.fp` keeps the closed file
            | none => (errText (lit "bad sha256 hex"), { u with inProgress := false },
                fs.unlink u.newPath)
            | some d => (none, { u with expect := d, hc := sha256Init, inProgress := true }, fs)
          else (none, { u with inProgress := true }, fs)

/-- `upgrade_write`.  A write without a file is undefined; it is taken to fail. -/
def upgradeWrite (o : FileCalls) (data : List Byte) (u : Upgrade) (fs : Disk) :
    Option (List Byte) × Upgrade × Disk :=
  if u.expected < u.received + data.length then (errText (lit "size exceeded"), u, fs)
  else
    let u := { u with first4 := u.first4 ++ data.take (4 - u.first4.length) }
    match u.fp with
    | none => (errText (lit "write failed"), u, fs)
    | some f =>
        match o.wrote with
        | some k =>
            let (f, fs) := fs.write f (data.take k)
            (errText (lit "write failed"), { u with fp := some f }, fs)
        | none =>
            let (f, fs) := fs.write f data
            (none, { u with
              fp := some f
              hc := if u.haveSha then sha256Update u.hc data else u.hc
              received := u.received + data.length }, fs)

/-- `upgrade_cleanup_unlocked`. -/
def upgradeCleanup (u : Upgrade) (fs : Disk) : Upgrade × Disk :=
  ({ u with fp := none, inProgress := false }, fs.unlink u.newPath)

/-- `upgrade_finish`. -/
def upgradeFinish (o : FileCalls) (u : Upgrade) (fs : Disk) :
    Option (List Byte) × Upgrade × Disk :=
  if u.inProgress = false then (errText (lit "no upgrade in progress"), u, fs)
  else if u.received ≠ u.expected then
    (errText (lit "short upload: got " ++ fmtNat u.received ++ lit " want " ++ fmtNat u.expected),
      upgradeCleanup u fs)
  else if u.first4 ≠ [0x7f#8, 69#8, 76#8, 70#8] then
    (errText (lit "not an ELF file"), upgradeCleanup u fs)
  else
    let digest := sha256Final u.hc
    let u := if u.haveSha then { u with hc := sha256Init } else u
    if u.haveSha ∧ digest ≠ u.expect then (errText (lit "sha256 mismatch"), upgradeCleanup u fs)
    else if o.closed = false then
      (errText (lit "finalize write failed"), upgradeCleanup { u with fp := none } fs)
    else
      let u := { u with fp := none }
      if o.renamed = false then (errText (lit "rename failed"), upgradeCleanup u fs)
      else
        let fs := fs.rename u.newPath u.exePath
        let fs := match o.saved with
          | some text => fs.link configFile text
          | none => fs
        (none, { u with inProgress := false }, fs)

/-- `upgrade_abort`. -/
def upgradeAbort (u : Upgrade) (fs : Disk) : Upgrade × Disk :=
  if u.inProgress then upgradeCleanup u fs else (u, fs)

end LinuxRouter
