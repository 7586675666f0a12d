import LinuxRouter.Model.Utils

/-!
# Model — Route

`route.c`: the routing table, its longest-prefix lookup and its changes.

`prefix_len` depends on `__builtin_clz(0)` for a `/32`, and so does the lookup, which compares
prefix lengths.  Connected routes are derived from the interfaces in the order of their table, as
long as there is room.

The lookup goes over the whole table and keeps the best entry so far with its length; of two entries
of one length the first stays.  A network is compared by its address and its mask, and an entry
whose address has bits behind the mask matches nothing.  Here a table is the list of its entries;
`RouteTable` has the array and the count, and `Routes.Table` that the one is what the other holds.
-/

namespace LinuxRouter

/-- `route_t`.  A `gw` of 0 is a direct route. -/
structure Route where
  dest : Ip
  mask : Ip
  gw : Ip
  ifindex : CInt
  isStatic : Bool
  deriving DecidableEq

/-- One step of the loop of `route_lookup`: the best route so far and its prefix length. -/
def routeStep (clz0 : CInt) (dst : Ip) (best : Option Route × CInt) (r : Route) :
    Option Route × CInt :=
  if dst &&& r.mask = r.dest ∧ best.2 < prefixLen clz0 r.mask then
    (some r, prefixLen clz0 r.mask)
  else best

/-- `route_lookup`. -/
def routeLookup (clz0 : CInt) (routes : List Route) (dst : Ip) : Option Route :=
  (routes.foldl (routeStep clz0 dst) (none, -1)).1

/-- `route_clear_static`. -/
def routeClearStatic (routes : List Route) : List Route := routes.filter fun r => !r.isStatic

/-- The connected route of an interface, if it has one. -/
def Iface.connected (it : Iface) : Option Route :=
  if it.ip = 0 ∨ it.ifindex < 0 ∨ it.netmask = 0 then none
  else some
    { dest := it.ip &&& it.netmask, mask := it.netmask, gw := 0, ifindex := it.ifindex
      isStatic := false }

/-- `route_derive_connected`: the static routes, then the connected ones as far as there is room. -/
def routeDeriveConnected (ifs : Ifaces) (routes : List Route) : List Route :=
  let keep := routes.filter (·.isStatic)
  keep ++ (ifs.filterMap Iface.connected).take (maxRoute - keep.length)

/-- `route_add`: whether the table has the route now. -/
def routeAdd (dest mask gw : Ip) (ifindex : CInt) (routes : List Route) : Bool × List Route :=
  if routes.any fun r => r.dest == dest && r.mask == mask && r.gw == gw && r.ifindex == ifindex then
    (true, routes)
  else if maxRoute ≤ routes.length then (false, routes)
  else (true, routes ++ [{ dest, mask, gw, ifindex, isStatic := true }])

/-- `route_at`. -/
def routeAt (index : CInt) (routes : List Route) : Option Route :=
  if index < 0 then none else routes[index.toInt.toNat]?

/-- `route_del`. -/
def routeDel (index : CInt) (routes : List Route) : CInt × List Route :=
  match routeAt index routes with
  | none => (-1, routes)
  | some r => if r.isStatic then (0, routes.eraseIdx index.toInt.toNat) else (-2, routes)

/-- The options of a route, as `addroute` and the lines of `[route]` have them: the gateway and the
interface index so far.  An option is looked for at every token, also at one that is the argument
of another. -/
def routeOptions (ifs : Ifaces) : List (List Byte) → Ip × CInt → Option (Ip × CInt)
  | tok :: arg :: args, o =>
      if tok = Text.lit "via" then
        (strToIp arg).bind fun gw => routeOptions ifs (arg :: args) (gw, o.2)
      else if tok = Text.lit "dev" then
        (ifaceByName ifs arg).bind fun it => routeOptions ifs (arg :: args) (o.1, it.ifindex)
      else routeOptions ifs (arg :: args) o
  | _, o => some o

/-- A route as text: a prefix and its options. -/
def parseRoute (ifs : Ifaces) : List (List Byte) → Option (Ip × Ip × Ip × CInt)
  | [] => none
  | tok :: args => do
      let (dest, mask) ← parseCidr tok
      let (gw, ifindex) ← routeOptions ifs args (0, -1)
      if ifindex < 0 then none else some (dest, mask, gw, ifindex)

/-- `cmd_addroute`, on the table; `args` are the words after the command's name. -/
def cmdAddroute (ifs : Ifaces) (args : List (List Byte)) (routes : List Route) : Bool × List Route :=
  if args.length < 2 then (false, routes)
  else
    match parseRoute ifs args with
    | none => (false, routes)
    | some (dest, mask, gw, ifindex) => routeAdd dest mask gw ifindex routes

end LinuxRouter
