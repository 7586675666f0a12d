import LinuxRouter.Model.Router

/-!
# Model — Interface

`interface.c`: the table of interfaces and its lookups.

`iface_add_addr` and `iface_del_addr` ask the system first and write the table only if it agrees;
what it answers is a parameter.  Lookups return the first entry that fits.

An `Iface` has the fields that some modelled function reads.  A name is a `char name[16]`, so that
the type holds no text that the source could not store, and an index is the `int` of the source,
which may be negative.  How the table is filled at the start is in `Startup`, and what it holds then
in `Control.Startup`; that every command keeps the names and the indexes is in `Control.Runs`.
-/

namespace LinuxRouter

/-- `iface_t`.  Its `up` is only shown. -/
structure Iface where
  name : Text.CStr 16
  mac : Mac
  ip : Ip
  netmask : Ip
  ifindex : CInt

/-- `g_ifaces[0..g_nif)`. -/
abbrev Ifaces := List Iface

/-- `iface_by_index`. -/
def ifaceByIndex (ifs : Ifaces) (ifindex : CInt) : Option Iface :=
  ifs.find? fun it => it.ifindex == ifindex

/-- `iface_by_name`. -/
def ifaceByName (ifs : Ifaces) (name : List Byte) : Option Iface :=
  ifs.find? fun it => it.name.1 == name

/-- `iface_with_ip`. -/
def ifaceWithIp (ifs : Ifaces) (ip : Ip) : Option Iface := ifs.find? fun it => it.ip == ip

/-- `iface_mac_is_ours`. -/
def ifaceMacIsOurs (ifs : Ifaces) (mac : Mac) : Bool := ifs.any fun it => it.mac == mac

/-- `iface_add_addr`, and whether it returned 0.  `ok` is whether the system takes the address. -/
def ifaceAddAddr (ok : Bool) (name : List Byte) (ip mask : Ip) (ifs : Ifaces) : Bool × Ifaces :=
  match ifs.findIdx? fun it => it.name.1 == name with
  | none => (false, ifs)
  | some i =>
      if ok then (true, ifs.modify i fun it => { it with ip := ip, netmask := mask })
      else (false, ifs)

/-- `iface_del_addr`, and whether it returned 0.  What the system says is not looked at; `ok` is
whether there is a socket to ask it. -/
def ifaceDelAddr (ok : Bool) (name : List Byte) (ifs : Ifaces) : Bool × Ifaces :=
  match ifs.findIdx? fun it => it.name.1 == name with
  | none => (false, ifs)
  | some i =>
      if ok then (true, ifs.modify i fun it => { it with ip := 0, netmask := 0 }) else (false, ifs)

/-- The subnet test that learning and forwarding make: an interface with an address, whose subnet
the address is in. -/
def Iface.covers (it : Iface) (ip : Ip) : Bool :=
  it.ip != 0 && ip &&& it.netmask == it.ip &&& it.netmask

end LinuxRouter
