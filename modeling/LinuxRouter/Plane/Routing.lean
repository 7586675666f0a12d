import LinuxRouter.Model.Receive
import LinuxRouter.Routes.Longest

/-!
# Plane — routing

Where a frame for another host is sent.

* `Decides`: what `forward_task` makes of a destination.  `decides_onLink` reads it off the program.
* `forward_decision`: the first interface whose subnet has the destination, and `longestMatch` for
  every other destination.

The decision is a loop over the interfaces and then a lookup in the routes, both on tables that do
not change while it is made; so it is read off the program branch by branch, as the first interface
in the order of the table, or as the lookup.  What the two do together differs from one longest
match over both, and `onLink_first` is where.
-/

namespace LinuxRouter

open Text (lit)
open Program (Prog Runs replay)

/-! ### The decision -/

/-- The way of a frame once its next hop is known. -/
def forwardBy (blk : Block) (f : List Byte) : Option Key → Act Unit
  | none => drop .noroute blk
  | some k => forwardTo blk f k

/-- The frame passes the checks before the decision. -/
structure ForAnother (s : Plane) (blk : Block) : Prop where
  header : headerOk (s.mem blk).data (s.mem blk).len = true
  allowed : fwCheck s.rules (s.mem blk).data (s.mem blk).len ≠ fwDrop
  notLocal : isLocal s.ifaces (getBe32 (s.mem blk).data 30) = false

/-- What `forward_task` does with the block is what is done with the decision `d`. -/
def Decides (s : Plane) (blk : Block) (d : Option Key) : Prop :=
  ∀ r s', Runs exec (forwardTask blk) s r s' ↔ Runs exec (forwardBy blk (s.mem blk).data d) s r s'

instance : Nonempty Env := ⟨⟨0, none, none, false⟩⟩

/-- Step 4 of `forward_task`. -/
theorem decides_onLink {s : Plane} {blk : Block} (h : ForAnother s blk) :
    Decides s blk (match s.ifaces.find? (·.covers (getBe32 (s.mem blk).data 30)) with
      | some it => some (getBe32 (s.mem blk).data 30, it.ifindex)
      | none => (routeLookup s.clz0 s.routes (getBe32 (s.mem blk).data 30)).map
          (·.nextHop (getBe32 (s.mem blk).data 30))) := by
  intro r s'
  have hifs : ∀ {α : Type} {k : Ifaces → Act α} {r : α},
      Runs exec (Prog.perform .ifaces >>= k) s r s' ↔ Runs exec (k s.ifaces) s r s' :=
    Program.runs_const fun _ => rfl
  unfold forwardTask
  rw [Program.runs_const (a := s.mem blk) (t := s) fun _ => rfl]
  simp only [h.header, Bool.not_true, Bool.false_eq_true, if_false]
  rw [Program.runs_const (a := fwCheck s.rules _ _) (t := s) fun _ => rfl, if_neg h.allowed, hifs,
    h.notLocal, if_neg (by simp), hifs]
  cases s.ifaces.find? (·.covers (getBe32 (s.mem blk).data 30)) with
  | some it => exact Iff.rfl
  | none =>
      rw [Program.runs_const (a := routeLookup s.clz0 s.routes _) (t := s) fun _ => rfl]
      cases routeLookup s.clz0 s.routes (getBe32 (s.mem blk).data 30) <;> exact Iff.rfl

/-- A subnet that has the destination, of an interface that has a connected route, is matched by
it. -/
theorem connected_has {ifs : Ifaces} {routes : List Route} {it : Iface} {dst : Ip} (hi : it ∈ ifs)
    (hc : it.covers dst = true) (hm : it.netmask ≠ 0) (hx : 0 ≤ it.ifindex)
    (hroom : (routes.filter (·.isStatic)).length + (ifs.filterMap Iface.connected).length ≤ maxRoute) :
    ∃ r ∈ routeDeriveConnected ifs routes, r.has dst = true := by
  obtain ⟨hip, hsub⟩ : it.ip ≠ 0 ∧ dst &&& it.netmask = it.ip &&& it.netmask := by
    simpa [Iface.covers] using hc
  have hcon : it.connected = some
      { dest := it.ip &&& it.netmask, mask := it.netmask, gw := 0, ifindex := it.ifindex
        isStatic := false } := by
    rw [Iface.connected, if_neg]
    rintro (h | h | h)
    · exact hip h
    · exact absurd hx (Int32.not_le.mpr h)
    · exact hm h
  refine ⟨⟨it.ip &&& it.netmask, it.netmask, 0, it.ifindex, false⟩, ?_, beq_iff_eq.mpr hsub⟩
  rw [routeDeriveConnected, List.take_of_length_le (by omega)]
  exact List.mem_append_right _ (List.mem_filterMap.mpr ⟨it, hi, hcon⟩)

/-- **The decision of `forward_task`.**  The first interface whose subnet has the destination takes
it on link, whatever the table says of it.  Every other destination goes by the longest prefix of the
whole table.  No route is reported exactly for a destination that no entry matches. -/
theorem forward_decision {s : Plane} {blk : Block} {routes : List Route} (h : ForAnother s blk)
    (hroutes : s.routes = routeDeriveConnected s.ifaces routes)
    (hroom : (routes.filter (·.isStatic)).length + (s.ifaces.filterMap Iface.connected).length ≤
      maxRoute)
    (hifs : ∀ it ∈ s.ifaces, it.ip ≠ 0 → it.netmask ≠ 0 ∧ 0 ≤ it.ifindex)
    (hhost : (∀ it ∈ s.ifaces, it.covers (getBe32 (s.mem blk).data 30) = false) →
      ∀ r ∈ s.routes, r.has (getBe32 (s.mem blk).data 30) = true → r.mask = 0xFFFFFFFF#32 →
        s.clz0 = 32) :
    let dst := getBe32 (s.mem blk).data 30
    ∃ d, Decides s blk d ∧
      (∀ it, s.ifaces.find? (·.covers dst) = some it → d = some (dst, it.ifindex)) ∧
      ((∀ it ∈ s.ifaces, it.covers dst = false) →
        d = (longestMatch s.routes dst).map (·.nextHop dst)) ∧
      (d = none ↔ ∀ r ∈ s.routes, r.has dst = false) := by
  intro dst
  refine ⟨_, decides_onLink h, ?_⟩
  rw [show getBe32 (s.mem blk).data 30 = dst from rfl] at hhost ⊢
  cases hf : s.ifaces.find? (·.covers dst) with
  | some it =>
      have hmem := List.mem_of_find?_eq_some hf
      have hcov : it.covers dst = true := by simpa using List.find?_some hf
      refine ⟨fun it' e => ?_, fun hall => ?_, iff_of_false (by simp) fun hall => ?_⟩
      · cases e
        rfl
      · exact absurd (hcov.symm.trans (hall it hmem)) (by simp)
      · have hip : it.ip ≠ 0 := by
          intro e
          simp [Iface.covers, e] at hcov
        obtain ⟨hm, hx⟩ := hifs it hmem hip
        obtain ⟨r, hr, hd⟩ := connected_has hmem hcov hm hx hroom
        rw [← hroutes] at hr
        exact absurd (hd.symm.trans (hall r hr)) (by simp)
  | none =>
      have hnone : ∀ it ∈ s.ifaces, it.covers dst = false := by simpa using hf
      rw [routeLookup_eq (hhost hnone)]
      refine ⟨fun it e => (nomatch e), fun _ => rfl, ?_⟩
      rw [← longestMatch_none, Option.map_eq_none_iff]

/-! ### A longer prefix inside a subnet -/

/-- An interface with an address and a prefix. -/
def Iface.subnet (name : List Byte) (ip : Ip) (bits ifindex : CInt) : Iface where
  name := Text.CStr.store 16 name
  mac := Vector.replicate 6 0
  ip := ip
  netmask := maskFromPrefix bits
  ifindex := ifindex

/-- 10.0.0.1/24 and 10.1.0.1/24. -/
def twoLans : Ifaces := [.subnet (lit "eth0") 0x0a000001 24 1, .subnet (lit "eth1") 0x0a010001 24 2]

/-- `addroute 10.0.0.128/25 via 10.1.0.9 dev eth1`. -/
def upperHalf : List Route :=
  [{ dest := 0x0a000080, mask := maskFromPrefix 25, gw := 0x0a010009, ifindex := 2
     isStatic := true }]

/-- An IP header for a destination. -/
def headerFor (dst : Ip) : List Byte :=
  List.replicate 14 0 ++ [0x45#8, 0, 0, 20, 0, 0, 0, 0, 64] ++ putBe32 (List.replicate 11 0) 7 dst

/-- A router between the two, with that route, and a frame for `dst` in hand. -/
def Plane.between (dst : Ip) : Plane :=
  { Plane.init twoLans (routeDeriveConnected twoLans upperHalf) [] false 32
      (fun _ => { next := none, len := 34, outIfidx := 0, nexthop := 0, data := headerFor dst }) with
    pool := { Pool.init with live := [0] } }

/-- A frame that only the connected route of 10.1.0.0/24 matches. -/
theorem forward_decision_lan : ∃ d, Decides (.between 0x0a010002) (.heap 0) d ∧
    d = some (0x0a010002, 2) := by
  obtain ⟨d, hd, hon, -, -⟩ := @forward_decision (.between 0x0a010002) (.heap 0) upperHalf
    ⟨by decide +kernel, by decide +kernel, by decide +kernel⟩ rfl (by decide)
    (by decide +kernel) fun _ _ _ _ _ => rfl
  exact ⟨d, hd, hon _ rfl⟩

/-- **Not the longest prefix.**  10.0.0.200 is in the `/25`, and is sent on link instead. -/
theorem onLink_first :
    let s := Plane.between 0x0a0000c8
    let y := (replay exec ⟨0, none, none, true⟩ (forwardTask (.heap 0)) s).2
    ForAnother s (.heap 0) ∧ s.routes = routeDeriveConnected s.ifaces upperHalf ∧
      (upperHalf.filter (·.isStatic)).length + (s.ifaces.filterMap Iface.connected).length ≤
        maxRoute ∧
      (longestMatch s.routes 0x0a0000c8).map (·.nextHop 0x0a0000c8) = some (0x0a010009, 2) ∧
      (y.mem (.heap 0)).outIfidx = 1 ∧ (y.mem (.heap 0)).nexthop = 0x0a0000c8 ∧
      y.trace.getLast? = some (.created (0x0a0000c8, 1)) := by
  intro s y
  refine ⟨⟨by decide +kernel, by decide +kernel, by decide +kernel⟩, rfl, by decide, ?_, ?_, ?_, ?_⟩
  all_goals decide +kernel

end LinuxRouter
