import LinuxRouter.Config.Routes
import LinuxRouter.Routes.Longest

/-!
# Routes — what an accepted route covers

`addroute` and the lines of `[route]` keep the bits of an address behind its prefix, and
`route_lookup` compares them.

* `Accepted`: a route that `addroute` or a line has put into the table, or found there.
* `Covers`: every destination of the network of a route is found, with a prefix at least as long.
* `serves_iff`: what it takes to find a destination so.
* `covers_iff`, `route_covers_iff`: a route without bits behind its prefix covers its network, a `/32` if it wins;
  a route with such bits covers it if the table did so before.

`route_lookup` masks the destination and compares it with the address as it is stored, so that an
entry whose address has bits behind its prefix is equal to no masked destination and matches
nothing. An accepted route is in the table with the address as it was typed.  So either it has no
such bits, and is found for the whole of its network, or it might as well not be there, and its
destinations are found only through others.  The `/32` has no bits behind its prefix, but the length
that the lookup gives it is undefined, so that it may lose against a shorter one.
-/

namespace LinuxRouter

open Text (lit)

/-- A route that a command or a line of the file asked for, with success: the table was `routes` and
is `routes'`. -/
inductive Accepted (ifs : Ifaces) (routes : List Route) (x : RouteArgs) (routes' : List Route) : Prop
    where
  | command (args : List (List Byte)) (hp : parseRoute ifs args = some x)
      (h : cmdAddroute ifs args routes = (true, routes'))
  | line (p : List Byte) (hp : parseRouteLine ifs p = some x)
      (h : routeAdd x.1 x.2.1 x.2.2.1 x.2.2.2 routes = (true, routes'))

/-- Every destination with the prefix of `x` is found, and goes by a prefix at least as long. -/
def Covers (clz0 : CInt) (routes : List Route) (x : RouteArgs) : Prop :=
  ∀ dst, dst &&& x.2.1 = x.1 &&& x.2.1 →
    ∃ rt, routeLookup clz0 routes dst = some rt ∧ prefixBits x.2.1 ≤ prefixBits rt.mask

/-- The destination is found, with a prefix of at least `len` bits. -/
def Serves (clz0 : CInt) (routes : List Route) (len : ℕ) (dst : Ip) : Prop :=
  (∃ r ∈ routes, r.has dst = true ∧ r.isHost = false ∧ len ≤ prefixBits r.mask) ∨
    HostWins clz0 routes dst

/-- A `/32` entry for the destination wins, one that is there or a new one. -/
def HostFits (clz0 : CInt) (routes : List Route) (dst : Ip) : Prop :=
  HostWins clz0 routes dst ∨
    (NoHost routes dst ∧ 0 ≤ clz0 ∧
      ∀ r ∈ routes, r.has dst = true → (prefixBits r.mask : ℤ) < clz0.toInt)

variable {clz0 : CInt} {routes routes' : List Route} {dst : Ip} {ifs : Ifaces} {x : RouteArgs}

/-! ### The masks -/

/-- The mask of a length has that many leading ones. -/
theorem prefixBits_maskFromPrefix {p : CInt} (h₀ : 0 ≤ p) (h₃₂ : p ≤ 32) :
    (prefixBits (maskFromPrefix p) : ℤ) = p.toInt := by
  obtain ⟨n, rfl⟩ := exists_length h₀ h₃₂
  revert n
  decide

/-- A destination goes by a long enough prefix exactly if a network entry is long enough or a host
entry wins: a longer network entry would be long enough too. -/
theorem serves_iff {len : ℕ} (hlen : len ≤ 32) :
    (∃ rt, routeLookup clz0 routes dst = some rt ∧ len ≤ prefixBits rt.mask) ↔
      Serves clz0 routes len dst := by
  constructor
  · rintro ⟨rt, hrt, hle⟩
    cases hh : rt.isHost with
    | true => exact .inr (hostWins_of_lookup hrt hh)
    | false =>
        have hfirst := (routeLookup_eq_some.mp hrt).2
        exact .inl ⟨rt, hfirst.mem, hfirst.holds, hh, hle⟩
  · rintro (⟨r, hr, hd, hnet, hle⟩ | hwins)
    · have hscore := @prefixLen_net clz0 r hnet
      cases hrt : routeLookup clz0 routes dst with
      | none =>
          have := routeLookup_eq_none.mp hrt r hr hd
          omega
      | some rt =>
          refine ⟨rt, rfl, ?_⟩
          cases hh : rt.isHost with
          | true => exact hlen.trans (prefixBits_host hh).ge
          | false =>
              have hbest := (routeLookup_eq_some.mp hrt).2.le hr hd
              rw [hscore, prefixLen_net hh] at hbest
              exact hle.trans (Int.ofNat_le.mp hbest)
    · obtain ⟨rt, hrt, hh, -⟩ := hwins.lookup
      exact ⟨rt, hrt, hlen.trans (prefixBits_host hh).ge⟩

/-! ### The table with the route -/

theorem isMask_of_parseRoute {args : List (List Byte)} (h : parseRoute ifs args = some x) :
    IsMask x.2.1 := by
  cases args with
  | nil => cases h
  | cons tok args =>
      obtain ⟨⟨dest, mask⟩, hc, h⟩ := Option.bind_eq_some_iff.mp h
      obtain ⟨⟨gw, ifindex⟩, -, h⟩ := Option.bind_eq_some_iff.mp h
      dsimp only at h
      split at h
      · cases h
      · cases h
        exact isMask_of_parseCidr hc

theorem Accepted.isMask (h : Accepted ifs routes x routes') : IsMask x.2.1 := by
  cases h with
  | command args hp h => exact isMask_of_parseRoute hp
  | line p hp h => exact isMask_of_parseRoute hp

theorem Accepted.routeAdd (h : Accepted ifs routes x routes') :
    routeAdd x.1 x.2.1 x.2.2.1 x.2.2.2 routes = (true, routes') := by
  cases h with
  | command args hp h =>
      unfold cmdAddroute at h
      rw [hp] at h
      split at h
      · cases h
      · exact h
  | line p hp h => exact h

/-- An entry for `x` was there, or is new behind the others. -/
theorem Accepted.table (h : Accepted ifs routes x routes') :
    (routes' = routes ∧ x ∈ routes.map Route.args) ∨ routes' = routes ++ [x.route] := by
  have hadd := h.routeAdd
  have hsame : addRoute routes x = routes' := congrArg Prod.snd hadd
  rcases addRoute_cases routes x with ⟨e, hm | hfull⟩ | ⟨-, -, e⟩
  · exact .inl ⟨hsame.symm.trans e, hm⟩
  · unfold LinuxRouter.routeAdd at hadd
    split at hadd
    · rename_i hany
      exact .inl ⟨hsame.symm.trans e, any_args.mp hany⟩
    · cases hadd
  · exact .inr (hsame.symm.trans e)

theorem has_args {r : Route} (h : r.args = x) : r.has dst = true ↔ dst &&& x.2.1 = x.1 := by
  subst h
  exact beq_iff_eq

/-- One more entry, and the host entry that wins. -/
theorem hostWins_concat {r : Route} : HostWins clz0 (routes ++ [r]) dst ↔
    ((r.has dst = true → r.isHost = false → (prefixBits r.mask : ℤ) ≤ clz0.toInt) ∧
      HostWins clz0 routes dst) ∨
    (r.has dst = true ∧ r.isHost = true ∧ NoHost routes dst ∧ 0 ≤ clz0 ∧
      ∀ c ∈ routes, c.has dst = true → (prefixBits c.mask : ℤ) < clz0.toInt) := by
  constructor
  · rintro ⟨h0, before, rt, after, e, hd, hh, hb, ha⟩
    rcases List.eq_nil_or_concat after with rfl | ⟨after, c, rfl⟩
    · obtain ⟨rfl, hr⟩ := List.append_inj' e rfl
      obtain rfl : r = rt := List.singleton_inj.mp hr
      exact .inr ⟨hd, hh, fun c hc hcd => (hb c hc hcd).1, h0, fun c hc hcd => (hb c hc hcd).2⟩
    · rw [List.concat_eq_append] at e ha
      rw [← List.cons_append, ← List.append_assoc] at e
      obtain ⟨rfl, hr⟩ := List.append_inj' e rfl
      obtain rfl : r = c := List.singleton_inj.mp hr
      exact .inl ⟨ha r (by simp), h0, before, rt, after, rfl, hd, hh, hb,
        fun c hc => ha c (List.mem_append_left _ hc)⟩
  · rintro (⟨hr, h0, before, rt, after, rfl, hd, hh, hb, ha⟩ | ⟨hd, hh, hno, h0, hlt⟩)
    · refine ⟨h0, before, rt, after ++ [r], by simp, hd, hh, hb, fun c hc => ?_⟩
      rcases List.mem_append.mp hc with hc | hc
      · exact ha c hc
      · rw [List.mem_singleton.mp hc]
        exact hr
    · exact ⟨h0, routes, r, [], rfl, hd, hh, fun c hc hcd => ⟨hno c hc hcd, hlt c hc hcd⟩,
        fun c hc => absurd hc List.not_mem_nil⟩

/-- An entry without the destination changes nothing. -/
theorem serves_concat {r : Route} {len : ℕ} (h : r.has dst = false) :
    Serves clz0 (routes ++ [r]) len dst ↔ Serves clz0 routes len dst := by
  have hr : ¬ r.has dst = true := by
    rw [h]
    exact Bool.false_ne_true
  unfold Serves
  rw [hostWins_concat]
  constructor
  · rintro (⟨c, hc, hd, hnet, hle⟩ | ⟨-, hwins⟩ | ⟨hd, -⟩)
    · rcases List.mem_append.mp hc with hc | hc
      · exact .inl ⟨c, hc, hd, hnet, hle⟩
      · rw [List.mem_singleton.mp hc] at hd
        exact absurd hd hr
    · exact .inr hwins
    · exact absurd hd hr
  · rintro (⟨c, hc, hrest⟩ | hwins)
    · exact .inl ⟨c, List.mem_append_left _ hc, hrest⟩
    · exact .inr (.inl ⟨fun hd => absurd hd hr, hwins⟩)

/-! ### The network -/

/-- Bits behind the prefix: the entry has no destination at all. -/
theorem has_of_bits {r : Route} (hr : r.args = x) (h : x.1 &&& x.2.1 ≠ x.1) : r.has dst = false := by
  rw [Bool.eq_false_iff]
  intro hd
  have e := (has_args hr).mp hd
  exact h (by rw [← e, BitVec.and_assoc, BitVec.and_self])

theorem covers_of_bits (h : Accepted ifs routes x routes') (hbits : x.1 &&& x.2.1 ≠ x.1)
    (len : ℕ) (dst : Ip) : Serves clz0 routes' len dst ↔ Serves clz0 routes len dst := by
  rcases h.table with ⟨rfl, -⟩ | rfl
  · exact Iff.rfl
  · exact serves_concat (has_of_bits rfl hbits)

/-- A route to a network, in the table. -/
theorem serves_of_net (h : Accepted ifs routes x routes') (hmask : x.2.1 ≠ 0xFFFFFFFF#32)
    (hdst : dst &&& x.2.1 = x.1) : Serves clz0 routes' (prefixBits x.2.1) dst := by
  have hentry : ∀ r ∈ routes', r.args = x → Serves clz0 routes' (prefixBits x.2.1) dst := by
    rintro r hr rfl
    refine .inl ⟨r, hr, beq_iff_eq.mpr hdst, ?_, Nat.le_refl _⟩
    exact beq_eq_false_iff_ne.mpr hmask
  rcases h.table with ⟨rfl, hm⟩ | rfl
  · obtain ⟨r, hr, e⟩ := List.mem_map.mp hm
    exact hentry r hr e
  · exact hentry x.route (by simp) rfl

/-- A route to a host, in the table. -/
theorem serves_host (h : Accepted ifs routes x routes') (hmask : x.2.1 = 0xFFFFFFFF#32) :
    Serves clz0 routes' 32 x.1 ↔ HostFits clz0 routes x.1 := by
  have hfull : x.1 &&& x.2.1 = x.1 := by
    rw [hmask]
    exact BitVec.and_allOnes
  have hserves : ∀ routes, Serves clz0 routes 32 x.1 ↔ HostWins clz0 routes x.1 := by
    refine fun routes => ⟨?_, .inr⟩
    rintro (⟨r, -, -, hnet, hle⟩ | hwins)
    · exact absurd hle (Nat.not_le.mpr (prefixBits_net hnet))
    · exact hwins
  rw [hserves, HostFits]
  rcases h.table with ⟨rfl, hm⟩ | rfl
  · obtain ⟨r, hr, e⟩ := List.mem_map.mp hm
    refine ⟨.inl, ?_⟩
    rintro (hwins | ⟨hno, -⟩)
    · exact hwins
    · have hnet := hno r hr ((has_args e).mpr hfull)
      subst e
      exact absurd (isHost_iff.mpr hmask) (Bool.eq_false_iff.mp hnet)
  · have hh : x.route.isHost = true := isHost_iff.mpr hmask
    rw [hostWins_concat]
    constructor
    · rintro (⟨-, hwins⟩ | ⟨-, -, hnew⟩)
      · exact .inl hwins
      · exact .inr hnew
    · rintro (hwins | hnew)
      · exact .inl ⟨fun _ hnet => absurd hh (Bool.eq_false_iff.mp hnet), hwins⟩
      · exact .inr ⟨(has_args rfl).mpr hfull, hh, hnew⟩

/-- The networks, for one value of `__builtin_clz(0)`. -/
theorem covers_iff (h : Accepted ifs routes x routes') (clz0 : CInt) :
    Covers clz0 routes' x ↔
      (x.1 &&& x.2.1 = x.1 ∧ (x.2.1 = 0xFFFFFFFF#32 → HostFits clz0 routes x.1)) ∨
      (x.1 &&& x.2.1 ≠ x.1 ∧
        ∀ dst, dst &&& x.2.1 = x.1 &&& x.2.1 → Serves clz0 routes (prefixBits x.2.1) dst) := by
  have hle : prefixBits x.2.1 ≤ 32 := by
    unfold prefixBits clz
    split <;> omega
  have hcovers : Covers clz0 routes' x ↔
      ∀ dst, dst &&& x.2.1 = x.1 &&& x.2.1 → Serves clz0 routes' (prefixBits x.2.1) dst :=
    forall₂_congr fun _ _ => serves_iff hle
  rw [hcovers]
  by_cases hbits : x.1 &&& x.2.1 = x.1
  · by_cases hmask : x.2.1 = 0xFFFFFFFF#32
    · have h32 : prefixBits x.2.1 = 32 := if_pos hmask
      have hself : ∀ ip : Ip, ip &&& x.2.1 = ip := fun ip => by
        rw [hmask]
        exact BitVec.and_allOnes
      have hiff : (∀ dst, dst = x.1 → Serves clz0 routes' 32 dst) ↔ HostFits clz0 routes x.1 := by
        rw [forall_eq]
        exact serves_host h hmask
      simp only [hself, h32]
      rw [hiff]
      constructor
      · exact fun hfits => .inl ⟨trivial, fun _ => hfits⟩
      · rintro (⟨-, hfits⟩ | ⟨hne, -⟩)
        · exact hfits hmask
        · exact absurd rfl hne
    · simp only [hbits]
      refine iff_of_true (fun dst hdst => serves_of_net h hmask hdst) (.inl ⟨trivial, fun e => ?_⟩)
      exact absurd e hmask
  · simp only [covers_of_bits h hbits]
    constructor
    · exact fun hall => .inr ⟨hbits, hall⟩
    · rintro (⟨e, -⟩ | ⟨-, hall⟩)
      · exact absurd e hbits
      · exact hall

/-- **When an accepted route covers its network.**  Without bits behind its prefix it does; a `/32`
has to win with the length that `__builtin_clz(0)` gives it.  With such bits it never matches, and the
network is covered exactly if it was before. -/
theorem route_covers_iff (h : Accepted ifs routes x routes') :
    ∃ len : CInt, 0 ≤ len ∧ len ≤ 32 ∧ x.2.1 = maskFromPrefix len ∧
      (prefixBits x.2.1 : ℤ) = len.toInt ∧
      ∀ clz0, Covers clz0 routes' x ↔
        (x.1 &&& x.2.1 = x.1 ∧ (len = 32 → HostFits clz0 routes x.1)) ∨
        (x.1 &&& x.2.1 ≠ x.1 ∧
          ∀ dst, dst &&& x.2.1 = x.1 &&& x.2.1 → Serves clz0 routes (prefixBits x.2.1) dst) := by
  obtain ⟨len, h₀, h₃₂, hmask⟩ := h.isMask
  have hbits : (prefixBits x.2.1 : ℤ) = len.toInt := by
    rw [hmask]
    exact prefixBits_maskFromPrefix h₀ h₃₂
  have hfull : len = 32 ↔ x.2.1 = 0xFFFFFFFF#32 := by
    rw [hmask]
    exact (maskFromPrefix_full h₀ h₃₂).symm
  refine ⟨len, h₀, h₃₂, hmask, hbits, fun clz0 => ?_⟩
  rw [hfull]
  exact covers_iff h clz0

/-! ### Two commands -/

/-- `addroute 10.1.0.0/16 via 10.0.0.9 dev eth0`. -/
theorem accepted_net : Accepted [eth0] [] (0x0a010000, 0xFFFF0000, 0x0a000009, 2)
    [RouteArgs.route (0x0a010000, 0xFFFF0000, 0x0a000009, 2)] :=
  .command [lit "10.1.0.0/16", lit "via", lit "10.0.0.9", lit "dev", lit "eth0"] (by decide +kernel)
    (by decide +kernel)

theorem route_covers_net :
    Covers 0 [RouteArgs.route (0x0a010000, 0xFFFF0000, 0x0a000009, 2)]
      (0x0a010000, 0xFFFF0000, 0x0a000009, 2) := by
  obtain ⟨len, -, -, -, hbits, hall⟩ := route_covers_iff accepted_net
  refine (hall 0).mpr (.inl ⟨by decide, fun h => ?_⟩)
  subst h
  exact absurd hbits (by decide)

/-- **An accepted route that matches nothing**: `addroute 10.1.2.3/16 via 10.0.0.9 dev eth0` succeeds,
and 10.1.2.3 has no route afterwards. -/
theorem route_covers_nothing :
    let x : RouteArgs := (0x0a010203, 0xFFFF0000, 0x0a000009, 2)
    Accepted [eth0] [] x [x.route] ∧ routeLookup 32 [x.route] 0x0a010203 = none ∧
      ¬ Covers 32 [x.route] x := by
  intro x
  have hnone : routeLookup 32 [x.route] 0x0a010203 = none := by decide +kernel
  refine ⟨.command [lit "10.1.2.3/16", lit "via", lit "10.0.0.9", lit "dev", lit "eth0"]
    (by decide +kernel) (by decide +kernel), hnone, fun h => ?_⟩
  obtain ⟨rt, hrt, -⟩ := h 0x0a010203 rfl
  exact absurd (hnone.symm.trans hrt) (by simp)

end LinuxRouter
