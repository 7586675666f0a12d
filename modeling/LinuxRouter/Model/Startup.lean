import LinuxRouter.Model.Console
import LinuxRouter.Model.Workers

/-!
# Model — Startup

`iface_init`, and the tables as `main` sets them up before its threads start.

`main` reads the interfaces, loads the configuration, derives the connected routes and sets the ARP
table's limit, in this order.  What `getifaddrs` lists and the `ioctl` calls return is a `Links`.

The loop over the addresses takes the first of each name that is an IPv4 address, skips `lo`, and
stops where the table is full; an address of another family, or none, is passed over, and a netmask
may be missing.  Whether an interface is up is kept beside the table.  A router that has just booted
is a `Console` with the tables that these steps leave, so that the invariants of the commands can
start from it.
-/

namespace LinuxRouter

open Text (lit)

def maxIface : ℕ := 16

/-- `ifa_addr`. -/
inductive SockAddr where
  | inet (ip : Ip)
  | other

/-- `struct ifaddrs`; `up` is `IFF_UP` of its flags.  A name of the system fits into `IFNAMSIZ`. -/
structure IfAddr where
  name : Option (Text.CStr 16)
  addr : Option SockAddr
  netmask : Option Ip
  up : Bool

/-- What the system says of its interfaces: the list of `getifaddrs`, if there is a socket and the
list, and for a name the answers of `SIOCGIFINDEX` and `SIOCGIFHWADDR`. -/
structure Links where
  addrs : Option (List IfAddr)
  index : Text.CStr 16 → Option CInt
  hwaddr : Text.CStr 16 → Option Mac

/-- `name_present`. -/
def namePresent (ifs : Ifaces) (name : List Byte) : Bool := ifs.any fun it => it.name.1 == name

/-- What `iface_init` writes at `g_nif`, but for `up`. -/
def Links.iface (k : Links) (name : Text.CStr 16) (ip : Ip) (netmask : Option Ip) : Iface where
  name := name
  mac := (k.hwaddr name).getD (Vector.replicate 6 0)
  ip := ip
  netmask := netmask.getD 0xFFFFFFFF#32
  ifindex := (k.index name).getD (-1)

/-- The loop of `iface_init`; the second part of a table is `up` of its places. -/
def ifaceLoop (k : Links) : List IfAddr → Ifaces × (ℕ → Bool) → Ifaces × (ℕ → Bool)
  | [], t => t
  | ifa :: ifas, t =>
      if maxIface ≤ t.1.length then t
      else
        match ifa.name, ifa.addr with
        | some name, some (.inet ip) =>
            if name.1 = lit "lo" then ifaceLoop k ifas t
            else if namePresent t.1 name.1 then ifaceLoop k ifas t
            else ifaceLoop k ifas
              (t.1 ++ [k.iface name ip ifa.netmask], Function.update t.2 t.1.length ifa.up)
        | _, _ => ifaceLoop k ifas t

/-- `iface_init`, which returns the length of the table. -/
def ifaceInit (k : Links) (up : ℕ → Bool) : Ifaces × (ℕ → Bool) :=
  match k.addrs with
  | none => ([], up)
  | some ifas => ifaceLoop k ifas ([], up)

/-- `main`, up to `tpool_init`: the interfaces, the file, the connected routes, the ageing limit and
the number of workers. -/
def Console.boot (k : Links) (e : Outside) : Console :=
  let t := ifaceInit k start.up
  let s := ({ start with ifaces := t.1, up := t.2 }.load e).derive
  { s with
    settings := s.settings.setTimeout s.settings.cfg.arpTimeout
    nthreads := Int32.ofNat (clampThreads s.settings.cfg.threads) }

end LinuxRouter
