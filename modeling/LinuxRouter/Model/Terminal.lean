import LinuxRouter.Model.FwTable
import LinuxRouter.Routes.Table

/-!
# Model — Terminal

`terminal.c`: the commands that change interfaces and routes; `cmd_addroute` is in `Route`.  `args`
are the words after the command's name, and the answer is whether the command returned 0.

`Tables` are the rules and the routes as the code keeps them, and its commands those that delete by
an index, with what they return and print.

The texts are in `Console`, which is checked against these commands in `Commands/Agreement`.

The interfaces are changed only if the system agrees, and the connected routes are derived again
only after that.  A deletion takes its index from `atoi`, for which a word that is no number is 0,
and the text of the answer says which entry it was.
-/

namespace LinuxRouter

open Text (atoi lit fmtInt)

/-- `cmd_delroute`. -/
def cmdDelroute (args : List (List Byte)) (routes : List Route) : Bool × List Route :=
  match args with
  | [index] =>
      let r := routeDel (atoi index) routes
      (r.1 = 0, r.2)
  | _ => (false, routes)

/-- `cmd_setip`. -/
def cmdSetip (ok : Bool) (args : List (List Byte)) (ifs : Ifaces) (routes : List Route) :
    Bool × Ifaces × List Route :=
  match args with
  | [name, addr] =>
      match parseCidr addr with
      | none => (false, ifs, routes)
      | some (ip, mask) =>
          let r := ifaceAddAddr ok name ip mask ifs
          if r.1 then (true, r.2, routeDeriveConnected r.2 routes) else (false, r.2, routes)
  | _ => (false, ifs, routes)

/-- `cmd_delip`. -/
def cmdDelip (ok : Bool) (args : List (List Byte)) (ifs : Ifaces) (routes : List Route) :
    Bool × Ifaces × List Route :=
  match args with
  | [name] =>
      let r := ifaceDelAddr ok name ifs
      if r.1 then (true, r.2, routeDeriveConnected r.2 routes) else (false, r.2, routes)
  | _ => (false, ifs, routes)

/-- The tables of `firewall.c` and `route.c`; the routes are within their array. -/
structure Tables where
  rules : FwTable
  routes : RouteTable
  le : routes.n ≤ maxRoute

namespace Tables

/-- `cmd_delfw`: what it returns, what it prints, and the tables after it. -/
def cmdDelfw (args : List (List Byte)) (t : Tables) : (CInt × List Byte) × Tables :=
  match args with
  | [index] =>
      let idx := atoi index
      let r := t.rules.del idx
      if r.1 then
        ((0, lit "rule " ++ fmtInt idx.toInt ++ lit " deleted\n"), { t with rules := r.2 })
      else ((-1, lit "no rule " ++ fmtInt idx.toInt ++ lit "\n"), { t with rules := r.2 })
  | _ => ((-1, lit "usage: delfw <index>\n"), t)

/-- `route_del` on the tables. -/
def routeDel (index : CInt) (t : Tables) : CInt × Tables where
  fst := (t.routes.del index).1
  snd := { t with routes := (t.routes.del index).2, le := t.routes.call_le t.le (.del index) }

/-- `cmd_delroute`: what it returns, what it prints, and the tables after it. -/
def cmdDelroute (args : List (List Byte)) (t : Tables) : (CInt × List Byte) × Tables :=
  match args with
  | [index] =>
      let idx := atoi index
      let r := t.routeDel idx
      if r.1 = 0 then ((0, lit "route " ++ fmtInt idx.toInt ++ lit " deleted\n"), r.2)
      else if r.1 = -2 then
        ((-1, lit "refuse: route " ++ fmtInt idx.toInt ++ lit " is connected\n"), r.2)
      else ((-1, lit "no route " ++ fmtInt idx.toInt ++ lit "\n"), r.2)
  | _ => ((-1, lit "usage: delroute <index>\n"), t)

end Tables

end LinuxRouter
