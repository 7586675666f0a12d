import LinuxRouter.Support.Rows
import LinuxRouter.Model.Route

/-!
# Model — RouteTable

`route.c`: the routes as the code keeps them, static and connected ones in one array with a count,
and the calls that change them.  The lists of `Route` are what such a table holds.

The loops that remove routes move the cells behind them one place down, or write those they keep
over the first ones, and what is behind the count stays where it is.

`keep` is the loop that two of the calls share, with a test of its own in each.  The derivation
appends the connected routes behind the static ones that it has kept, until the array is full.
`Routes.Table` shows that after any calls the cells up to the count are the list of `Route`, and
that no call writes behind the array.
-/

namespace LinuxRouter

/-- `g_routes` and `g_n`. -/
structure RouteTable where
  route : ℕ → Route
  n : ℕ

namespace RouteTable

/-- `route_init`: the array stays as it is. -/
def init (t : RouteTable) : RouteTable := { t with n := 0 }

/-- The loop that `route_clear_static` and `route_derive_connected` start with: the routes with the
property `p`, moved to the front. -/
def keep (p : Route → Bool) (t : RouteTable) : RouteTable :=
  let s := Rows.compact p t.route t.n
  { route := s.1, n := s.2 }

/-- `route_clear_static`. -/
def clearStatic (t : RouteTable) : RouteTable := t.keep fun r => !r.isStatic

/-- A route written at `g_n`. -/
def push (r : Route) (t : RouteTable) : RouteTable where
  route := Function.update t.route t.n r
  n := t.n + 1

/-- The second loop of `route_derive_connected`. -/
def pushConnected : Ifaces → RouteTable → RouteTable
  | [], t => t
  | it :: ifs, t =>
      if t.n < maxRoute then
        if it.ip = 0 ∨ it.ifindex < 0 ∨ it.netmask = 0 then pushConnected ifs t
        else pushConnected ifs (t.push
          { dest := it.ip &&& it.netmask, mask := it.netmask, gw := 0, ifindex := it.ifindex
            isStatic := false })
      else t

/-- `route_derive_connected`. -/
def deriveConnected (ifs : Ifaces) (t : RouteTable) : RouteTable :=
  pushConnected ifs (t.keep (·.isStatic))

/-- The loop of `route_add`, from the route `i` on, over `m` routes: whether one of them is the
same. -/
def hasFrom (t : RouteTable) (dest mask gw : Ip) (ifindex : CInt) : ℕ → ℕ → Bool
  | 0, _ => false
  | m + 1, i =>
      if (t.route i).dest = dest ∧ (t.route i).mask = mask ∧ (t.route i).gw = gw ∧
          (t.route i).ifindex = ifindex then true
      else hasFrom t dest mask gw ifindex m (i + 1)

/-- `route_add`. -/
def add (dest mask gw : Ip) (ifindex : CInt) (t : RouteTable) : CInt × RouteTable :=
  if t.hasFrom dest mask gw ifindex t.n 0 then (0, t)
  else if maxRoute ≤ t.n then (-1, t)
  else (0, t.push { dest, mask, gw, ifindex, isStatic := true })

/-- `route_del`.  The `memmove` takes the routes behind the index one place down. -/
def del (index : CInt) (t : RouteTable) : CInt × RouteTable :=
  if index < 0 then (-1, t)
  else if (t.n : ℤ) ≤ index.toInt then (-1, t)
  else if !(t.route index.toInt.toNat).isStatic then (-2, t)
  else (0, { route := Rows.remove t.route t.n index.toInt.toNat, n := t.n - 1 })

end RouteTable

/-- A change of the table. -/
inductive RouteCall where
  | add (dest mask gw : Ip) (ifindex : CInt)
  | del (index : CInt)
  | clearStatic
  | derive (ifs : Ifaces)

/-- A call, on the table. -/
def RouteTable.call (t : RouteTable) : RouteCall → RouteTable
  | .add dest mask gw ifindex => (t.add dest mask gw ifindex).2
  | .del index => (t.del index).2
  | .clearStatic => t.clearStatic
  | .derive ifs => t.deriveConnected ifs

end LinuxRouter
