import LinuxRouter.Support.Roster
import LinuxRouter.Model.Startup

/-!
# Control — the interfaces at startup

The table that `iface_init` makes of what the system says.

* `Links.candidate`: the interface that an entry of `getifaddrs` could become.
* `ifaceInit_table`: the table has each name of a candidate once, in the order in which they come
  first, up to `MAX_IFACE`, and for a name the first candidate.

The loop looks every name up in the table it has made so far, and fills a row only if the system
calls go through.  By induction on the entries, the table is the first candidates of the names seen.
-/

namespace LinuxRouter

open Text (lit)

variable (k : Links)

/-- The interface of an entry, and whether it is up. -/
def Links.candidate (ifa : IfAddr) : Option (Iface × Bool) :=
  match ifa.name, ifa.addr with
  | some name, some (.inet ip) =>
      if name.1 = lit "lo" then none else some (k.iface name ip ifa.netmask, ifa.up)
  | _, _ => none

/-- The candidates, in the order of the list. -/
def Links.candidates : List (Iface × Bool) := (k.addrs.getD []).filterMap k.candidate

/-- A name in the table is that of a place. -/
theorem namePresent_iff {ifs : Ifaces} {name : Text.CStr 16} :
    namePresent ifs name.1 = true ↔ name ∈ ifs.map (·.name) := by
  rw [namePresent, List.any_eq_true, List.mem_map]
  constructor
  · rintro ⟨it, hit, h⟩
    exact ⟨it, hit, Subtype.ext (beq_iff_eq.mp h)⟩
  · rintro ⟨it, hit, rfl⟩
    exact ⟨it, hit, beq_self_eq_true _⟩

/-- What the loop makes of a table that has a place for every candidate so far. -/
structure Enumerates (found : List (Iface × Bool)) (t : Ifaces × (ℕ → Bool)) : Prop where
  names : t.1.map (·.name) = (found.map (·.1.name)).foldl (Roster.enter maxIface) []
  entry : ∀ i it, t.1[i]? = some it → found.find? (fun x => x.1.name == it.name) = some (it, t.2 i)

variable {k} {found : List (Iface × Bool)} {t : Ifaces × (ℕ → Bool)} {it : Iface} {up : Bool}

/-- A candidate whose name is there, or for which there is no place. -/
theorem Enumerates.pass (h : Enumerates found t) (x : Iface × Bool)
    (hx : x.1.name ∈ t.1.map (·.name) ∨ maxIface ≤ t.1.length) : Enumerates (found ++ [x]) t := by
  refine ⟨?_, fun i it hit => ?_⟩
  · rw [List.map_append, List.foldl_append, ← h.names, List.map_singleton, List.foldl_cons,
      List.foldl_nil, Roster.enter, if_pos]
    rwa [List.length_map]
  · rw [List.find?_append, h.entry i it hit, Option.some_or]

/-- A candidate with a new name. -/
theorem Enumerates.add (h : Enumerates found t) (hx : it.name ∉ t.1.map (·.name))
    (hroom : t.1.length < maxIface) :
    Enumerates (found ++ [(it, up)]) (t.1 ++ [it], Function.update t.2 t.1.length up) := by
  have hnames : (t.1 ++ [it]).map (·.name) =
      ((found ++ [(it, up)]).map (·.1.name)).foldl (Roster.enter maxIface) [] := by
    rw [List.map_append, List.map_append, List.foldl_append, ← h.names, List.map_singleton,
      List.map_singleton, List.foldl_cons, List.foldl_nil, Roster.enter, if_neg]
    rw [List.length_map]
    exact not_or.mpr ⟨hx, Nat.not_le.mpr hroom⟩
  refine ⟨hnames, fun i jt hjt => ?_⟩
  rw [List.find?_append]
  rcases Nat.lt_or_ge i t.1.length with hi | hi
  · rw [List.getElem?_append_left hi] at hjt
    rw [h.entry i jt hjt, Option.some_or]
    exact congrArg (fun b => some (jt, b)) (Function.update_of_ne (Nat.ne_of_lt hi) up t.2).symm
  · rw [List.getElem?_append_right hi] at hjt
    obtain ⟨hz, rfl⟩ : i - t.1.length = 0 ∧ it = jt := by
      rcases hn : i - t.1.length with _ | n
      · rw [hn] at hjt
        exact ⟨rfl, Option.some.inj hjt⟩
      · rw [hn] at hjt
        cases hjt
    obtain rfl : i = t.1.length := by omega
    -- with a place, every candidate so far has its name in the table
    have hnone : found.find? (fun x => x.1.name == it.name) = none := by
      rw [List.find?_eq_none]
      intro x hx' hname
      refine hx ?_
      rw [h.names, Roster.foldl_enter, List.nil_append, Roster.taken_nil, List.take_of_length_le]
      · rw [Roster.mem_firsts, ← beq_iff_eq.mp hname]
        exact List.mem_map_of_mem hx'
      · have hlen := congrArg List.length h.names
        rw [Roster.foldl_enter, List.nil_append, Roster.taken_nil, List.length_map,
          List.length_take] at hlen
        omega
    rw [hnone, Option.none_or, List.find?_singleton, if_pos (beq_self_eq_true _)]
    exact congrArg (fun b => some (it, b)) (Function.update_self t.1.length up t.2).symm

theorem Enumerates.full (h : Enumerates found t) (hfull : maxIface ≤ t.1.length)
    (xs : List (Iface × Bool)) : Enumerates (found ++ xs) t := by
  induction xs generalizing found with
  | nil => rwa [List.append_nil]
  | cons x xs ih =>
      rw [List.append_cons]
      exact ih (h.pass x (.inr hfull))

/-- **The loop of `iface_init`.** -/
theorem ifaceLoop_enumerates (ifas : List IfAddr) (h : Enumerates found t) :
    Enumerates (found ++ ifas.filterMap k.candidate) (ifaceLoop k ifas t) := by
  induction ifas generalizing found t with
  | nil => rwa [List.filterMap_nil, List.append_nil]
  | cons ifa ifas ih =>
      rw [ifaceLoop]
      split
      · rename_i hfull
        exact h.full hfull _
      · rename_i hroom
        split
        · rename_i name ip hname haddr
          have hc : k.candidate ifa = if name.1 = lit "lo" then none
              else some (k.iface name ip ifa.netmask, ifa.up) := by
            rw [Links.candidate, hname, haddr]
          split
          · rename_i hlo
            rw [List.filterMap_cons_none (hc.trans (if_pos hlo))]
            exact ih h
          · rename_i hlo
            rw [List.filterMap_cons_some (hc.trans (if_neg hlo)), List.append_cons]
            split
            · rename_i hp
              exact ih (h.pass _ (.inl (namePresent_iff.mp hp)))
            · rename_i hp
              exact ih (h.add (mt namePresent_iff.mpr hp) (Nat.lt_of_not_le hroom))
        · rename_i hno
          have hc : k.candidate ifa = none := by
            rw [Links.candidate]
            split
            · rename_i name ip hname haddr
              exact absurd haddr (hno name ip hname)
            · rfl
          rw [List.filterMap_cons_none hc]
          exact ih h

/-- **The interfaces of the router**: the names of the candidates, each once and in order, as far as
there is room, and for each name the first candidate that has it. -/
theorem ifaceInit_table (k : Links) (up : ℕ → Bool) :
    let t := ifaceInit k up
    t.1.map (·.name) = (Roster.firsts (k.candidates.map (·.1.name))).take maxIface ∧
      ∀ i it, t.1[i]? = some it →
        k.candidates.find? (fun x => x.1.name == it.name) = some (it, t.2 i) := by
  have h : Enumerates k.candidates (ifaceInit k up) := by
    have hnil : Enumerates [] ([], up) := ⟨rfl, fun i it hit => by cases hit⟩
    rw [ifaceInit, Links.candidates]
    cases k.addrs with
    | none => exact hnil
    | some ifas => exact ifaceLoop_enumerates ifas hnil
  refine ⟨?_, h.entry⟩
  rw [h.names, Roster.foldl_enter, List.nil_append, Roster.taken_nil]

end LinuxRouter
