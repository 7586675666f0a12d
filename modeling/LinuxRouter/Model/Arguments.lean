import LinuxRouter.Support.Fetch
import LinuxRouter.Model.Firewall

/-!
# Model — Arguments

`fw_parse_rule`, cell by cell: a program that reads the array of its words.  `Firewall` has what it
returns.  A cell that the source reads several times on end is read once here.

`cmd_addfw` copies the words of its line to an array of 16, and calls `fw_parse_rule` on it.

That the words go past the end of the array is not an error of the program here.  It asks for a
cell, and it is left to the reader of the array what the cell holds.
-/

namespace LinuxRouter

open Text (lit)
open Program (Prog Fetch)
open Program.Prog (fetch)

/-- A program that reads an array of words. -/
abbrev ArgLook (α : Type) := Prog (Fetch ℕ (List Byte)) α

/-- The loop of `fw_parse_rule`, with `n` words left from the cell `i` on. -/
def lookArgs : ℕ → ℕ → FwRule → ArgLook (Option FwRule)
  | 0, _, r => pure (some r)
  | 1, i, _ => do
    -- every option has an operand, and other words are refused
    let _ ← fetch i
    pure none
  | n + 2, i, r => do
    let tok ← fetch i
    if tok = lit "ip" then do
      let src ← fetch (i + 1)
      match r.setSource src with
      | none => pure none
      | some r =>
        match n with
        | 0 => pure (some r)
        | n + 1 => do
          -- the look-ahead for a destination
          let dst ← fetch (i + 2)
          if isAddrToken dst then
            match r.setDest dst with
            | none => pure none
            | some r => lookArgs n (i + 3) r
          else lookArgs (n + 1) (i + 2) r
    else if tok = lit "proto" then do
      let arg ← fetch (i + 1)
      match parseProto arg with
      | none => pure none
      | some p => lookArgs n (i + 2) { r with proto := p }
    else if tok = lit "sport" then do
      let arg ← fetch (i + 1)
      match parsePort arg with
      | none => pure none
      | some p => lookArgs n (i + 2) { r with sport := p }
    else if tok = lit "dport" then do
      let arg ← fetch (i + 1)
      match parsePort arg with
      | none => pure none
      | some p => lookArgs n (i + 2) { r with dport := p }
    else if tok = lit "keyword" then do
      let arg ← fetch (i + 1)
      lookArgs n (i + 2) { r with keyword := parseKeyword arg }
    else pure none

/-- `fw_parse_rule` of the `argc` words of an array. -/
def lookRule : ℕ → ArgLook (Option FwRule)
  | 0 => pure none
  | n + 1 => do
    let tok ← fetch 0
    if tok = lit "drop" then lookArgs n 1 (.blank fwDrop)
    else if tok = lit "allow" then lookArgs n 1 (.blank fwAllow)
    else pure none

/-- The words of a line, as `cmd_dispatch` splits it. -/
def dispatchWords (line : List Byte) : List (List Byte) := tokSplit (Text.CStr.store 512 line).1 24

/-- The cells of `args` that the loop of `cmd_addfw` sets, from the words of its line. -/
def addfwArg (argv : List (List Byte)) (j : ℕ) : Option (List Byte) :=
  if j + 1 < 16 then argv[j + 1]? else none

/-- The cells that `fw_parse_rule` reads when a line is `addfw`; `junk` is what is in the cells of
`args` that were not set, and behind them. -/
def addfwReads (junk : ℕ → List Byte) (line : List Byte) : List ℕ :=
  match dispatchWords line with
  | [] => []
  | name :: args =>
      if name = lit "addfw" ∧ args ≠ [] then
        ((lookRule args.length).scan fun j => (addfwArg (name :: args) j).getD (junk j)).2
      else []

end LinuxRouter
