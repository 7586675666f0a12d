import Mathlib.Data.List.MinMax
import LinuxRouter.Support.Scan
import LinuxRouter.Routes.Table

/-!
# Routes — the longest prefix

What `route_lookup` finds, for each value of `__builtin_clz(0)`.

* `longestMatch` is the entry that longest-prefix routing chooses from a table, and `routeLookup_eq`
  says that `route_lookup` chooses it, as long as no `/32` entry asks `__builtin_clz` for its
  undefined value.
* `routeLookup_eq_some`: what `route_lookup` chooses otherwise, a scan for the largest `prefix_len`.
* `longest_prefix_iff`: it is longest-prefix exactly if no `/32` entry has the destination, or the
  first one wins with the length that `__builtin_clz(0)` gives it.

The lookup is a scan for the largest value of a score, as `Support/Scan` has it, with `prefix_len`
for the score.  For every mask but that of a `/32` the score is the prefix length, so that the scan
finds the longest prefix, the first of those with one length.  For a `/32` it is `__builtin_clz(0)`,
which may be anything: a value of 32 or more leaves the choice as it is, a smaller one puts the
entry behind others, and the condition of `longest_prefix_iff` says exactly when that matters.
-/

namespace LinuxRouter

/-! ### Longest prefixes -/

/-- The leading ones of a mask. -/
def prefixBits (mask : Ip) : ℕ := if mask = 0xFFFFFFFF#32 then 32 else clz (~~~mask)

theorem prefixLen_toInt {clz0 : CInt} {mask : Ip} (h : mask = 0xFFFFFFFF#32 → clz0 = 32) :
    (prefixLen clz0 mask).toInt = prefixBits mask := by
  have hsmall : clz (~~~mask) < 2 ^ 31 := by
    unfold clz
    omega
  unfold prefixLen prefixBits
  by_cases h₀ : mask = 0
  · rw [if_pos h₀, h₀]
    decide
  · rw [if_neg h₀]
    by_cases h₁ : mask = 0xFFFFFFFF#32
    · rw [h h₁, if_pos h₁, h₁]
      decide
    · have h₂ : ~~~mask ≠ 0 := fun e => h₁ (by
        rw [← BitVec.not_not (b := mask), e]
        decide)
      rw [if_neg h₂, if_neg h₁, Int32.toInt_ofNat_of_lt hsmall]

/-- The test of `route_lookup`: the destination has the prefix of the entry. -/
def Route.has (dst : Ip) (r : Route) : Bool := dst &&& r.mask == r.dest

/-- The entry with the longest prefix of the destination, the first of several. -/
def longestMatch (routes : List Route) (dst : Ip) : Option Route :=
  (routes.filter (·.has dst)).argmax fun r => prefixBits r.mask

theorem longestMatch_none {routes : List Route} {dst : Ip} :
    longestMatch routes dst = none ↔ ∀ r ∈ routes, r.has dst = false := by
  rw [longestMatch, List.argmax_eq_none, List.filter_eq_nil_iff]
  simp

/-- The entry chosen has the destination, and no other that has it has a longer prefix. -/
theorem longestMatch_some {routes : List Route} {dst : Ip} {rt : Route}
    (h : longestMatch routes dst = some rt) :
    rt ∈ routes ∧ rt.has dst = true ∧
      ∀ r ∈ routes, r.has dst = true → prefixBits r.mask ≤ prefixBits rt.mask := by
  have hm := List.argmax_mem h
  rw [List.mem_filter] at hm
  refine ⟨hm.1, hm.2, fun r hr hd => ?_⟩
  exact List.le_of_mem_argmax (f := fun r : Route => prefixBits r.mask)
    (List.mem_filter.mpr ⟨hr, hd⟩) h

/-- One more entry. -/
theorem longestMatch_concat (routes : List Route) (r : Route) (dst : Ip) :
    longestMatch (routes ++ [r]) dst =
      if r.has dst then
        match longestMatch routes dst with
        | none => some r
        | some c => if prefixBits c.mask < prefixBits r.mask then some r else some c
      else longestMatch routes dst := by
  unfold longestMatch
  rw [List.filter_append]
  cases hd : r.has dst with
  | false => simp [hd]
  | true =>
      rw [show [r].filter (·.has dst) = [r] by simp [hd], List.argmax_concat]
      cases (routes.filter (·.has dst)).argmax fun r => prefixBits r.mask <;> rfl

/-- The state of `route_lookup`'s loop with the best entry so far. -/
def bestSoFar (clz0 : CInt) (best : Option Route) : Option Route × CInt :=
  (best, best.elim (-1) fun r => prefixLen clz0 r.mask)

theorem routeStep_best {clz0 : CInt} {routes : List Route} {r : Route} {dst : Ip}
    (h : ∀ c ∈ routes ++ [r], c.has dst = true → c.mask = 0xFFFFFFFF#32 → clz0 = 32) :
    routeStep clz0 dst (bestSoFar clz0 (longestMatch routes dst)) r =
      bestSoFar clz0 (longestMatch (routes ++ [r]) dst) := by
  rw [longestMatch_concat, routeStep]
  cases hd : r.has dst with
  | false =>
      have hne : dst &&& r.mask ≠ r.dest := by simpa [Route.has] using hd
      rw [if_neg fun h => hne h.1]
      simp
  | true =>
      have heq : dst &&& r.mask = r.dest := by simpa [Route.has] using hd
      have hlen := prefixLen_toInt (h r (by simp) hd)
      cases hbest : longestMatch routes dst with
      | none =>
          have hlt : (-1 : CInt) < prefixLen clz0 r.mask := by
            rw [Int32.lt_iff_toInt_lt, hlen]
            exact Int.lt_of_lt_of_le (by decide) (Int.natCast_nonneg _)
          rw [if_pos ⟨heq, hlt⟩]
          rfl
      | some c =>
          obtain ⟨hc, hcd, -⟩ := longestMatch_some hbest
          have hlen' := prefixLen_toInt (h c (by simp [hc]) hcd)
          have hiff : (bestSoFar clz0 (some c)).2 < prefixLen clz0 r.mask ↔
              prefixBits c.mask < prefixBits r.mask := by
            rw [Int32.lt_iff_toInt_lt, hlen, bestSoFar, Option.elim_some, hlen']
            exact Int.ofNat_lt
          by_cases hlt : prefixBits c.mask < prefixBits r.mask
          · rw [if_pos ⟨heq, hiff.mpr hlt⟩]
            simp [hlt, bestSoFar]
          · rw [if_neg fun h => hlt (hiff.mp h.2)]
            simp [hlt]

/-- **`route_lookup` is longest-prefix.** -/
theorem routeLookup_eq {clz0 : CInt} {routes : List Route} {dst : Ip}
    (h : ∀ r ∈ routes, r.has dst = true → r.mask = 0xFFFFFFFF#32 → clz0 = 32) :
    routeLookup clz0 routes dst = longestMatch routes dst := by
  have hfold : routes.foldl (routeStep clz0 dst) (none, -1) =
      bestSoFar clz0 (longestMatch routes dst) := by
    induction routes using List.reverseRecOn with
    | nil => rfl
    | append_singleton routes r ih =>
        rw [List.foldl_append, ih fun c hc => h c (by simp [hc])]
        exact routeStep_best h
  rw [routeLookup, hfold, bestSoFar]

/-! ### Any value of the undefined count -/

/-- An entry that longest-prefix routing may return: it has the destination, every earlier one that
has it has a shorter prefix, and no later one has a longer one. -/
def Longest (routes : List Route) (dst : Ip) (rt : Route) : Prop :=
  Scan.First (·.has dst) (fun r => prefixBits r.mask) routes rt

/-- The mask of a host. -/
def Route.isHost (r : Route) : Bool := r.mask == 0xFFFFFFFF#32

variable {clz0 : CInt} {routes : List Route} {dst : Ip} {rt : Route}

theorem isHost_iff {r : Route} : r.isHost = true ↔ r.mask = 0xFFFFFFFF#32 := beq_iff_eq

theorem prefixLen_host {r : Route} (h : r.isHost = true) : prefixLen clz0 r.mask = clz0 := by
  rw [isHost_iff.mp h, prefixLen, if_neg (by decide), if_pos (by decide)]

theorem prefixLen_net {r : Route} (h : r.isHost = false) :
    (prefixLen clz0 r.mask).toInt = prefixBits r.mask :=
  prefixLen_toInt fun e => by simp [Route.isHost, e] at h

theorem prefixBits_host {r : Route} (h : r.isHost = true) : prefixBits r.mask = 32 :=
  if_pos (isHost_iff.mp h)

theorem prefixBits_net {r : Route} (h : r.isHost = false) : prefixBits r.mask < 32 := by
  have hne : ¬ r.mask = 0xFFFFFFFF#32 := fun e => by simp [Route.isHost, e] at h
  rw [prefixBits, if_neg hne, clz]
  omega

/-- `route_lookup` is a scan. -/
theorem routeLookup_scan (clz0 : CInt) (routes : List Route) (dst : Ip) :
    routeLookup clz0 routes dst =
      (Scan.scan (·.has dst) (fun r => (prefixLen clz0 r.mask).toInt) (-1) routes).1 := by
  have hfold : ∀ (best : Option Route × CInt),
      (routes.foldl (routeStep clz0 dst) best).1 =
        (routes.foldl (Scan.step (·.has dst) fun r => (prefixLen clz0 r.mask).toInt)
          (best.1, best.2.toInt)).1 := by
    induction routes with
    | nil => exact fun _ => rfl
    | cons r routes ih =>
        intro best
        rw [List.foldl_cons, List.foldl_cons, ih]
        congr 2
        simp only [routeStep, Scan.step, Route.has, beq_iff_eq, Int32.lt_iff_toInt_lt]
        split <;> rfl
  exact hfold (none, -1)

/-- **What `route_lookup` chooses**: the first entry with the largest `prefix_len`. -/
theorem routeLookup_eq_some : routeLookup clz0 routes dst = some rt ↔
    -1 < (prefixLen clz0 rt.mask).toInt ∧
      Scan.First (·.has dst) (fun r => (prefixLen clz0 r.mask).toInt) routes rt := by
  rw [routeLookup_scan]
  exact Scan.scan_eq_some

theorem routeLookup_eq_none : routeLookup clz0 routes dst = none ↔
    ∀ r ∈ routes, r.has dst = true → (prefixLen clz0 r.mask).toInt ≤ -1 := by
  rw [routeLookup_scan]
  exact Scan.scan_eq_none

/-- `route_lookup` is longest-prefix on the destination: it succeeds exactly if an entry has it, and
returns the first with the longest prefix. -/
structure LookupLongest (clz0 : CInt) (routes : List Route) (dst : Ip) : Prop where
  found : (routeLookup clz0 routes dst).isSome = true ↔ ∃ r ∈ routes, r.has dst = true
  longest : ∀ rt, routeLookup clz0 routes dst = some rt → Longest routes dst rt

/-- No `/32` entry has the destination. -/
def NoHost (routes : List Route) (dst : Ip) : Prop :=
  ∀ r ∈ routes, r.has dst = true → r.isHost = false

/-- The first `/32` entry that has the destination wins, with the length `__builtin_clz(0)`: the
prefixes before it are shorter, and those behind it at most as long. -/
def HostWins (clz0 : CInt) (routes : List Route) (dst : Ip) : Prop :=
  0 ≤ clz0 ∧ ∃ before rt after, routes = before ++ rt :: after ∧ rt.has dst = true ∧
    rt.isHost = true ∧
    (∀ r ∈ before, r.has dst = true → r.isHost = false ∧ (prefixBits r.mask : ℤ) < clz0.toInt) ∧
    ∀ r ∈ after, r.has dst = true → r.isHost = false → (prefixBits r.mask : ℤ) ≤ clz0.toInt

theorem lookupLongest_noHost (h : NoHost routes dst) : LookupLongest clz0 routes dst := by
  have hlen : ∀ r ∈ routes, r.has dst = true →
      (prefixLen clz0 r.mask).toInt = prefixBits r.mask := fun r hr hd => prefixLen_net (h r hr hd)
  constructor
  · rw [← not_iff_not, Bool.not_eq_true, Option.isSome_eq_false_iff, Option.isNone_iff_eq_none,
      routeLookup_eq_none]
    constructor
    · rintro hall ⟨r, hr, hd⟩
      have := hall r hr hd
      rw [hlen r hr hd] at this
      omega
    · exact fun hno r hr hd => absurd ⟨r, hr, hd⟩ hno
  · intro rt hrt
    refine (routeLookup_eq_some.mp hrt).2.congr fun y hy z hz hdy hdz => ?_
    rw [hlen y hy hdy, hlen z hz hdz]
    exact Int.ofNat_lt

/-- The host route that wins is what `route_lookup` returns. -/
theorem HostWins.lookup (h : HostWins clz0 routes dst) :
    ∃ rt, routeLookup clz0 routes dst = some rt ∧ rt.isHost = true ∧ Longest routes dst rt := by
  obtain ⟨h0, before, rt, after, rfl, hd, hhost, hb, ha⟩ := h
  have hpos : 0 ≤ clz0.toInt := Int32.le_iff_toInt_le.mp h0
  refine ⟨rt, routeLookup_eq_some.mpr ⟨?_, before, after, rfl, hd, fun r hr hdr => ?_,
    fun r hr hdr => ?_⟩, hhost, before, after, rfl, hd, fun r hr hdr => ?_, fun r hr hdr => ?_⟩
  · rw [prefixLen_host hhost]
    omega
  · obtain ⟨hnet, hlt⟩ := hb r hr hdr
    dsimp only
    rw [prefixLen_net hnet, prefixLen_host hhost]
    exact hlt
  · dsimp only
    rw [prefixLen_host hhost]
    cases hr' : r.isHost with
    | true => exact (congrArg Int32.toInt (prefixLen_host hr')).le
    | false => exact (prefixLen_net hr').trans_le (ha r hr hdr hr')
  · dsimp only
    rw [prefixBits_host hhost]
    exact prefixBits_net (hb r hr hdr).1
  · dsimp only
    rw [prefixBits_host hhost]
    cases hr' : r.isHost with
    | true => exact (prefixBits_host hr').le
    | false => exact (prefixBits_net hr').le

/-- A host route that is returned wins. -/
theorem hostWins_of_lookup (h : routeLookup clz0 routes dst = some rt) (hhost : rt.isHost = true) :
    HostWins clz0 routes dst := by
  obtain ⟨hpos, before, after, rfl, hd, hb, ha⟩ := routeLookup_eq_some.mp h
  dsimp only at hb ha
  rw [prefixLen_host hhost] at hpos hb ha
  refine ⟨Int32.le_iff_toInt_le.mpr (Int.add_one_le_of_lt hpos), before, rt, after, rfl, hd, hhost,
    fun r hr hdr => ?_, fun r hr hdr hnet => ?_⟩
  · have hlt := hb r hr hdr
    cases hr' : r.isHost with
    | true =>
        rw [prefixLen_host hr'] at hlt
        exact absurd hlt (Int.lt_irrefl _)
    | false => exact ⟨rfl, (prefixLen_net hr').symm.trans_lt hlt⟩
  · exact (prefixLen_net hnet).symm.trans_le (ha r hr hdr)

theorem lookupLongest_iff : LookupLongest clz0 routes dst ↔
    NoHost routes dst ∨ HostWins clz0 routes dst := by
  constructor
  · intro h
    by_cases hno : NoHost routes dst
    · exact .inl hno
    · refine .inr ?_
      -- the host route makes the longest prefix 32 bits long
      obtain ⟨r, hr, hd, hhost⟩ : ∃ r ∈ routes, r.has dst = true ∧ r.isHost = true := by
        simpa [NoHost] using hno
      obtain ⟨rt, hrt⟩ := Option.isSome_iff_exists.mp (h.found.mpr ⟨r, hr, hd⟩)
      have hle := (h.longest rt hrt).le hr hd
      rw [prefixBits_host hhost] at hle
      cases hrh : rt.isHost with
      | true => exact hostWins_of_lookup hrt hrh
      | false => exact absurd (prefixBits_net hrh) (Nat.not_lt.mpr hle)
  · rintro (h | h)
    · exact lookupLongest_noHost h
    · obtain ⟨rt, hrt, -, hl⟩ := h.lookup
      refine ⟨iff_of_true (by rw [hrt]; rfl) ⟨rt, hl.mem, hl.holds⟩, fun rt' hrt' => ?_⟩
      obtain rfl : rt = rt' := Option.some.inj (hrt.symm.trans hrt')
      exact hl

/-- **When `route_lookup` is longest-prefix**: for a value of `__builtin_clz(0)`, if no `/32` entry
has the destination or the first one wins; for all values, if no `/32` entry has it. -/
theorem longest_prefix_iff (routes : List Route) (dst : Ip) :
    (∀ clz0, LookupLongest clz0 routes dst ↔ NoHost routes dst ∨ HostWins clz0 routes dst) ∧
      ((∀ clz0, LookupLongest clz0 routes dst) ↔ NoHost routes dst) := by
  refine ⟨fun clz0 => lookupLongest_iff, fun h => ?_, fun h clz0 => lookupLongest_noHost h⟩
  rcases lookupLongest_iff.mp (h (-1)) with hno | hwins
  · exact hno
  · exact absurd hwins.1 (by decide)

/-- The table after `addroute 10.0.0.4/31 via 10.1.0.1` and `addroute 10.0.0.5 via 10.2.0.1`. -/
def hostBehindNet : RouteTable :=
  [RouteCall.add 0x0a000004 (maskFromPrefix 31) 0x0a010001 1,
    .add 0x0a000005 (maskFromPrefix 32) 0x0a020001 2].foldl RouteTable.call
      (RouteTable.init { route := fun _ => ⟨0, 0, 0, 0, false⟩, n := 0 })

/-- **A host route that never matches**, where `__builtin_clz(0)` is 31: the destination goes by the
`/31`. -/
theorem host_route_loses :
    (routeLookup 31 hostBehindNet.routes 0x0a000005).map (·.mask) = some 0xFFFFFFFE#32 ∧
      ¬ LookupLongest 31 hostBehindNet.routes 0x0a000005 := by
  have hlookup : (routeLookup 31 hostBehindNet.routes 0x0a000005).map (·.mask) =
      some 0xFFFFFFFE#32 := by decide +kernel
  refine ⟨hlookup, fun h => ?_⟩
  obtain ⟨rt, hrt, hmask⟩ := Option.map_eq_some_iff.mp hlookup
  have hhost : ∃ r ∈ hostBehindNet.routes, r.has 0x0a000005 = true ∧ prefixBits r.mask = 32 := by
    decide +kernel
  obtain ⟨r, hr, hd, hbits⟩ := hhost
  have hle := (h.longest rt hrt).le hr hd
  rw [hbits, hmask] at hle
  exact absurd hle (by decide)

end LinuxRouter
