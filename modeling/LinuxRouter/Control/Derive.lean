import LinuxRouter.Commands.Reads
import LinuxRouter.Control.Tables

/-!
# Control — connected routes under the lock

`route_derive_connected` reads the interfaces one by one under the lock of the routes, which is not
theirs: they may change below it.  Whoever changes one derives the routes again, and has to wait for
the lock.  So the routes are those of the interfaces, unless a thread is still to derive.

* `Shift`: what a command does to what the derivation depends on.
* `tending`: the discipline of the management side.  While a thread derives, the others leave the
  routes to it, and one that changes an interface stays about to derive.
* `deriveSteps_ok`: a derivation ends with the routes of the interfaces, or with a thread that is to
  derive.

What makes it delicate is that the connected routes may be wrong for a while, and nobody is to
blame: an interface changes first, the derivation follows, and another derivation may have read half
of the change.  The discipline therefore says whose turn it is.  A thread that has changed an
interface owes a derivation until it has the lock; a thread that derives reads interfaces, and if
one changes under it, its result may be wrong, but then the thread that changed it still owes one,
since it cannot have had the lock in the meantime.  The last derivation of all finds the interfaces
at rest.
-/

namespace LinuxRouter

open Program (Prog By Discipline Watched Admits)

namespace Control

/-! ### What a command does -/

/-- A state with the threads' ghost values. -/
abbrev Ctl := Watched Control Bool ℕ Unit

/-- Some thread has changed an interface and is still to derive. -/
def Moved (x : Ctl) : Prop := ∃ t, x.ghost t = true

/-- The connected routes are those of the interfaces, as far as there were slots. -/
def Current (s : Control) : Prop :=
  s.connected = (s.manage.ifaces.filterMap Iface.connected).take s.slots

/-- What the others see of a command of the thread `t`, from a state to a state and its ghost
value. -/
inductive Shift (t : ℕ) (x : Ctl) (s' : Control) : Bool → Prop where
  | quiet (deriver : s'.deriver = x.shared.deriver)
      (routes : s'.manage.routes = x.shared.manage.routes)
      (ifaces : s'.manage.ifaces = x.shared.manage.ifaces) (slots : s'.slots = x.shared.slots) :
      Shift t x s' (x.ghost t)
  | statics (free : x.shared.deriver = none) (deriver : s'.deriver = none)
      (connected : s'.connected = x.shared.connected)
      (ifaces : s'.manage.ifaces = x.shared.manage.ifaces) (slots : s'.slots = x.shared.slots) :
      Shift t x s' (x.ghost t)
  | address (deriver : s'.deriver = x.shared.deriver)
      (routes : s'.manage.routes = x.shared.manage.routes) (slots : s'.slots = x.shared.slots) :
      Shift t x s' true
  | lock (free : x.shared.deriver = none) (deriver : s'.deriver = some t) : Shift t x s' false
  | push (held : x.shared.deriver = some t) (deriver : s'.deriver = some t) :
      Shift t x s' (x.ghost t)
  | unlock (held : x.shared.deriver = some t) (deriver : s'.deriver = none)
      (due : Moved x ∨ x.shared.Current) (manage : s'.manage = x.shared.manage)
      (slots : s'.slots = x.shared.slots) : Shift t x s' (x.ghost t)

variable {ids : List (Text.CStr 16 × Mac × CInt)}

/-- What a thread ensures before a command. -/
def Due (ids : List (Text.CStr 16 × Mac × CInt)) : ∀ ⦃β : Type⦄, ℕ → CtlCmd β → Ctl → Prop
  | _, _, .of c, _ => Needs ids False c []
  | _, t, .own (.deriveLock u), _ => u = t
  | _, t, .own (.push r), x =>
      x.shared.deriver = some t ∧ IsIndex ids r.ifindex ∧ x.shared.manage.routes.length < maxRoute
  | _, t, .own .unlock, x => x.shared.deriver = some t ∧ (Moved x ∨ x.shared.Current)
  | _, _, _, _ => True

/-- Static routes come and go without the connected ones. -/
theorem connected_apply (routes : List Route) {c : RouteCall} (hc : ∀ ifs, c ≠ .derive ifs) :
    (c.apply routes).filter (fun r => !r.isStatic) = routes.filter fun r => !r.isStatic := by
  cases c with
  | add dest mask gw i =>
      rcases addRoute_cases routes (dest, mask, gw, i) with ⟨e, -⟩ | ⟨-, -, e⟩
      · exact congrArg _ e
      · refine (congrArg _ e).trans ?_
        rw [List.filter_append, List.filter_singleton]
        exact List.append_nil _
  | del index =>
      simp only [RouteCall.apply, routeDel]
      cases hat : routeAt index routes with
      | none => rfl
      | some r =>
          cases hs : r.isStatic with
          | false => simp only [hs, Bool.false_eq_true, if_false]
          | true =>
              simp only [hs, if_true]
              exact Rows.filter_eraseIdx_neg (routeAt_eq_some hat) (by rw [hs]; rfl)
  | clearStatic =>
      simp only [RouteCall.apply, routeClearStatic, List.filter_filter, Bool.and_self]
  | derive ifs => exact absurd rfl (hc ifs)

variable {β : Type} {c : CtlCmd β} {t : ℕ} {x x' : Ctl} {e : Around}

theorem shift_exec (hc : Due ids t c x) (hf : Control.free t c e x.shared) :
    Shift t x (execCtl c e x.shared).2 (Control.changing c (x.ghost t)) := by
  cases c with
  | of c =>
      cases c with
      | routeAdd dest mask gw i =>
          exact .statics hf hf (connected_apply _ (c := .add dest mask gw i) (by simp)) rfl rfl
      | routeClearStatic =>
          exact .statics hf hf (connected_apply _ (c := .clearStatic) (by simp)) rfl rfl
      | routeDeriveConnected => exact hc.elim
      | fopen =>
          simp only [execCtl, execM]
          split <;> exact .quiet rfl rfl rfl rfl
      | rename =>
          simp only [execCtl, execM]
          split <;> exact .quiet rfl rfl rfl rfl
      | _ => exact .quiet rfl rfl rfl rfl
  | own c =>
      cases c with
      | setIp i ip => exact .address rfl rfl rfl
      | setNetmask i mask => exact .address rfl rfl rfl
      | routeDel index =>
          exact .statics hf hf (connected_apply _ (c := .del index) (by simp)) rfl rfl
      | deriveLock u =>
          obtain rfl := hc
          exact .lock hf rfl
      | push r => exact .push hc.1 hc.1
      | unlock => exact .unlock hc.1 rfl hc.2 rfl rfl
      | _ => exact .quiet rfl rfl rfl rfl

theorem map_ident_modify (ifs : Ifaces) (i : ℕ) {f : Iface → Iface}
    (hf : ∀ it, (f it).ident = it.ident) :
    (ifs.modify i f).map Iface.ident = ifs.map Iface.ident := by
  refine List.ext_getElem? fun j => ?_
  rw [List.getElem?_map, List.getElem?_map, List.getElem?_modify]
  cases ifs[j]? with
  | none => rfl
  | some it =>
      by_cases hij : i = j
      · simp [hij, hf]
      · simp [hij]

theorem tended_exec (h : x.shared.manage.Tended ids) (hc : Due ids t c x) :
    (execCtl c e x.shared).2.manage.Tended ids := by
  have haddr : ∀ i f, (∀ it : Iface, (f it).ident = it.ident) →
      (x.shared.modify i f).manage.Tended ids := fun i f hf =>
    { h with ident := (map_ident_modify _ i hf).trans h.ident }
  cases c with
  | of c => exact h.exec e.toWorld hc
  | own c =>
      cases c with
      | setIp i ip => exact haddr i _ fun _ => rfl
      | setNetmask i mask => exact haddr i _ fun _ => rfl
      | fwDel index =>
          refine h.of_rules ?_ ?_ <;> split
          · exact fun r hr => h.rules r (List.mem_of_mem_eraseIdx hr)
          · exact h.rules
          · exact (List.length_eraseIdx_le _ _).trans h.rules_le
          · exact h.rules_le
      | routeDel index =>
          refine h.of_routes ?_ (length_apply h.routes_le (.del index))
          intro r hr
          simp only [routeDel] at hr
          split at hr
          · exact h.routes r hr
          · split at hr
            · exact h.routes r (List.mem_of_mem_eraseIdx hr)
            · exact h.routes r hr
      | deriveLock u =>
          exact h.of_routes (fun r hr => h.routes r (List.mem_of_mem_filter hr))
            ((List.length_filter_le _ _).trans h.routes_le)
      | push r =>
          refine h.of_routes (fun q hq => ?_) ?_
          · rcases List.mem_append.mp hq with hq | hq
            · exact h.routes q hq
            · obtain rfl := List.mem_singleton.mp hq
              exact hc.2.1
          · rw [List.length_append, List.length_singleton]
            exact hc.2.2
      | _ => exact h

/-! ### The discipline -/

/-- What the thread that derives may rely on: the routes are its own, and whoever changes an interface
stays about to derive. -/
structure Steady (x x' : Ctl) : Prop where
  routes : x'.shared.manage.routes = x.shared.manage.routes
  slots : x'.shared.slots = x.shared.slots
  moved : Moved x → Moved x'
  ifaces : Moved x' ∨ x'.shared.manage.ifaces = x.shared.manage.ifaces

theorem Steady.trans {x'' : Ctl} (h : Steady x x') (h' : Steady x' x'') : Steady x x'' :=
  ⟨h'.routes.trans h.routes, h'.slots.trans h.slots, fun hm => h'.moved (h.moved hm),
    h'.ifaces.elim .inl fun e =>
      h.ifaces.elim (fun hm => .inl (h'.moved hm)) fun e' => .inr (e.trans e')⟩

theorem moved_keep {b : Bool} (hg : x'.ghost = Function.update x.ghost t b) (hb : b = x.ghost t) :
    Moved x' ↔ Moved x := by
  subst hb
  rw [Function.update_eq_self] at hg
  rw [Moved, Moved, hg]

/-- What the shift keeps, for everybody. -/
theorem Shift.current {b : Bool} (h : Shift t x x'.shared b)
    (hg : x'.ghost = Function.update x.ghost t b)
    (hi : x.shared.deriver = none → Moved x ∨ x.shared.Current) :
    x'.shared.deriver = none → Moved x' ∨ x'.shared.Current := by
  intro hn
  cases h with
  | quiet deriver routes ifaces slots =>
      rw [moved_keep hg rfl, Control.Current, Control.connected, routes, ifaces, slots]
      exact hi (deriver ▸ hn)
  | statics free deriver connected ifaces slots =>
      rw [moved_keep hg rfl, Control.Current, connected, ifaces, slots]
      exact hi free
  | address deriver routes slots => exact .inl ⟨t, by rw [hg, Function.update_self]⟩
  | lock free deriver => exact absurd (deriver.symm.trans hn) (Option.some_ne_none t)
  | push held deriver => exact absurd (deriver.symm.trans hn) (Option.some_ne_none t)
  | unlock held deriver due manage slots =>
      rw [moved_keep hg rfl, Control.Current, Control.connected, manage, slots]
      exact due

/-- What it keeps for another thread. -/
theorem Shift.steady {b : Bool} (h : Shift t x x'.shared b)
    (hg : x'.ghost = Function.update x.ghost t b) {u : ℕ} (hu : u ≠ t) :
    (x'.shared.deriver = some u ↔ x.shared.deriver = some u) ∧
      (x.shared.deriver = some u → Steady x x') := by
  cases h with
  | quiet deriver routes ifaces slots =>
      exact ⟨by rw [deriver], fun _ => ⟨routes, slots, (moved_keep hg rfl).mpr, .inr ifaces⟩⟩
  | statics free deriver connected ifaces slots =>
      rw [free, deriver]
      exact ⟨Iff.rfl, fun h => absurd h.symm (Option.some_ne_none u)⟩
  | address deriver routes slots =>
      have hm : Moved x' := ⟨t, by rw [hg, Function.update_self]⟩
      exact ⟨by rw [deriver], fun _ => ⟨routes, slots, fun _ => hm, .inl hm⟩⟩
  | lock free deriver =>
      rw [free, deriver]
      exact ⟨⟨fun h => absurd (Option.some.inj h).symm hu,
          fun h => absurd h.symm (Option.some_ne_none u)⟩,
        fun h => absurd h.symm (Option.some_ne_none u)⟩
  | push held deriver =>
      rw [held, deriver]
      exact ⟨Iff.rfl, fun h => absurd (Option.some.inj h).symm hu⟩
  | unlock held deriver due manage slots =>
      rw [held, deriver]
      exact ⟨⟨fun h => absurd h.symm (Option.some_ne_none u),
        fun h => absurd (Option.some.inj h).symm hu⟩, fun h => absurd (Option.some.inj h).symm hu⟩

/-- The observer of the discipline sees nothing. -/
def unseen ⦃β : Type⦄ (_ : ℕ) (_ : CtlCmd β) (_ : Control) (_ : β) (_ : Unit) : Unit := ()

theorem exec_ghost (t : ℕ) (c : CtlCmd β) (e : Around) (x : Ctl) :
    (Watched.exec control unseen t c e x).2.ghost =
      Function.update x.ghost t (Control.changing c (x.ghost t)) := rfl

/-- **The discipline of the management side.** -/
def tending (ids : List (Text.CStr 16 × Mac × CInt)) :
    Discipline (control.watched unseen) (Admits (G := Bool) Control.free) where
  inv x g := (∀ t, g t = t) ∧ x.shared.manage.Tended ids ∧
    (x.shared.deriver = none → Moved x ∨ x.shared.Current)
  fact _ x := x.shared.manage.Tended ids
  pre _ t c _ x := c.thread = t ∧ Due ids t c.cmd x
  rely t x x' := x'.ghost t = x.ghost t ∧ (x'.shared.deriver = some t ↔ x.shared.deriver = some t) ∧
    (x.shared.deriver = some t → Steady x x')
  rely_refl t x := ⟨rfl, Iff.rfl, fun _ => ⟨rfl, rfl, id, .inr rfl⟩⟩
  rely_trans h h' := ⟨h'.1.trans h.1, h'.2.1.trans h.2.1, fun hd =>
    (h.2.2 hd).trans (h'.2.2 (h.2.1.mpr hd))⟩
  fact_of_inv _ h := h.2.1
  exec_inv := by
    rintro x g t β ⟨u, c⟩ e ⟨hg, ht, hi⟩ ⟨rfl, hc⟩ hf
    refine ⟨fun t => ?_, tended_exec ht hc, (shift_exec hc hf).current (exec_ghost u c e x) hi⟩
    by_cases htu : t = u
    · subst htu
      rw [Function.update_self]
      exact hg _
    · rw [Function.update_of_ne htu]
      exact hg t
  exec_rely := by
    rintro x g t β ⟨u, c⟩ e ⟨hg, -, -⟩ ⟨rfl, hc⟩ hf t' ht'
    rw [hg]
    exact ⟨Function.update_of_ne ht' .., (shift_exec hc hf).steady (exec_ghost u c e x) ht'⟩
  admin_inv _ ha := ha.1.elim
  admin_rely _ _ ha := ha.1.elim

/-! ### A thread's own steps -/

/-- The thread is in no derivation, and has none to make. -/
def AtEase (t : ℕ) (x : Ctl) : Prop := x.ghost t = false ∧ x.shared.deriver ≠ some t

variable {α : Type} {p : CtlAct α} {k : β → CtlAct α} {Q : α → ℕ → Ctl → Prop} {g : ℕ}

theorem rest_rely (h : g = t ∧ AtEase t x) (hr : (tending ids).rely g x x') : g = t ∧ AtEase t x' := by
  obtain ⟨rfl, hg, hd⟩ := h
  exact ⟨rfl, hr.1.trans hg, fun h => hd (hr.2.1.mp h)⟩

/-- A command of a thread, in a state that the others have left. -/
theorem ok_step (h : ∀ x', (tending ids).rely t x x' → x'.shared.manage.Tended ids → Due ids t c x' ∧
      ∀ e, Control.free t c e x'.shared → (tending ids).Ok t Q
        ((k (execCtl c e x'.shared).1).tag t) t (Watched.exec control unseen t c e x').2) :
    (tending ids).Ok t Q ((Prog.perform c >>= k).tag t) t x :=
  fun x' hr hf => ⟨⟨rfl, (h x' hr hf).1⟩, (h x' hr hf).2⟩

/-- A program that a thread at rest runs, and is at rest after. -/
abbrev Keeps (ids : List (Text.CStr 16 × Mac × CInt)) (t : ℕ) (p : CtlAct α) : Prop :=
  ∀ x, AtEase t x → (tending ids).Ok t (fun _ g x => g = t ∧ AtEase t x) (p.tag t) t x

theorem keeps_ret (a : α) : Keeps ids t (.ret a : CtlAct α) := fun _ h _ hr _ => rest_rely ⟨rfl, h⟩ hr

theorem Keeps.bind (hp : Keeps ids t p) {γ : Type} {f : α → CtlAct γ} (hf : ∀ a, Keeps ids t (f a)) :
    Keeps ids t (p >>= f) := by
  intro x hx
  rw [Prog.tag_bind]
  refine Discipline.Ok.bind ((hp x hx).mono ?_)
  rintro a g y ⟨rfl, hy⟩
  exact hf a y hy

/-- A command of a thread at rest that begins no derivation and changes no interface. -/
theorem keeps_step (hdue : ∀ x, x.shared.manage.Tended ids → Due ids t c x)
    (hb : Control.changing c false = false)
    (hd : ∀ e s, s.deriver ≠ some t → (execCtl c e s).2.deriver ≠ some t)
    (hk : ∀ e s, s.manage.Tended ids → Keeps ids t (k (execCtl c e s).1)) :
    Keeps ids t (Prog.perform c >>= k) := by
  intro x hx
  refine ok_step fun x' hr hf => ⟨hdue x' hf, fun e _ => hk e x'.shared hf _ ?_⟩
  obtain ⟨-, hg, hn⟩ := rest_rely (g := t) ⟨rfl, hx⟩ hr
  exact ⟨by rw [exec_ghost, Function.update_self, hg, hb], hd e x'.shared hn⟩

/-! ### The lock held -/

/-- The thread derives: `U` holds of the routes and the slots, and `P` of the interfaces too, unless
some thread is changing one. -/
structure Under (t : ℕ) (U : List Route → ℕ → Prop) (P : List Route → Ifaces → ℕ → Prop) (x : Ctl) :
    Prop where
  held : x.shared.deriver = some t
  still : x.ghost t = false
  own : U x.shared.manage.routes x.shared.slots
  seen : Moved x ∨ P x.shared.manage.routes x.shared.manage.ifaces x.shared.slots

variable {U U' : List Route → ℕ → Prop} {P P' : List Route → Ifaces → ℕ → Prop}

theorem Under.rely (h : Under t U P x) (hr : (tending ids).rely t x x') : Under t U P x' := by
  have hs := hr.2.2 h.held
  refine ⟨hr.2.1.mpr h.held, hr.1.trans h.still, ?_, ?_⟩
  · rw [hs.routes, hs.slots]
    exact h.own
  · rcases hs.ifaces with hm | hi
    · exact .inl hm
    · rw [hs.routes, hi, hs.slots]
      exact h.seen.imp_left hs.moved

theorem Under.mono (h : Under t U P x) (hP : ∀ rs is n, U rs n → P rs is n → P' rs is n) :
    Under t U P' x :=
  ⟨h.held, h.still, h.own, h.seen.imp_right (hP _ _ _ h.own)⟩

/-- A read of the thread that derives. -/
theorem ok_read {f : Control → β} (hc : ∀ e s, execCtl c e s = (f s, s))
    (hb : ∀ b, Control.changing c b = b) (hdue : ∀ x, Due ids t c x) (hx : Under t U P x)
    (hk : ∀ x', Under t U P x' → x'.shared.manage.Tended ids →
      (tending ids).Ok t Q ((k (f x'.shared)).tag t) t x') :
    (tending ids).Ok t Q ((Prog.perform c >>= k).tag t) t x := by
  refine ok_step fun x' hr hf => ⟨hdue x', fun e _ => ?_⟩
  have hsame : (Watched.exec control unseen t c e x').2 = x' := by
    rw [Watched.exec]
    simp only [control, hc, hb, Function.update_eq_self]
  rw [hsame, hc]
  exact hk x' (hx.rely hr) hf

/-- The slots that are left to the connected routes. -/
def Room (rs : List Route) (n : ℕ) : Prop := (rs.filter (·.isStatic)).length + n = maxRoute

/-- The connected routes are those of the first `i` interfaces. -/
def Built (i : ℕ) (rs : List Route) (is : Ifaces) (n : ℕ) : Prop :=
  (rs.filter fun r => !r.isStatic) = ((is.take i).filterMap Iface.connected).take n

/-- They are, and `f` holds of the next interface. -/
def BuiltTo (i : ℕ) (f : Iface → Prop) (rs : List Route) (is : Ifaces) (n : ℕ) : Prop :=
  Built i rs is n ∧ ∀ it, is[i]? = some it → f it

variable {i n : ℕ} {rs : List Route} {is : Ifaces} {f : Iface → Prop}

theorem length_routes_eq (rs : List Route) : rs.length =
    (rs.filter (·.isStatic)).length + (rs.filter fun r => !r.isStatic).length :=
  List.length_eq_length_filter_add _

/-- An interface without a route. -/
theorem BuiltTo.skip (h : BuiltTo i f rs is n) (hf : ∀ it, f it → it.connected = none) :
    Built (i + 1) rs is n := by
  rw [Built, List.take_add_one, List.filterMap_append, h.1]
  cases hi : is[i]? with
  | none => simp
  | some it => simp [hf it (h.2 it hi)]

/-- No slot is left for the others. -/
theorem Built.full (h : Built i rs is n) (hr : Room rs n) (hfull : maxRoute ≤ rs.length) :
    Built is.length rs is n := by
  have hlen := length_routes_eq rs
  rw [h, List.length_take] at hlen
  have hn : n ≤ ((is.take i).filterMap Iface.connected).length := by
    rw [Room] at hr
    omega
  have hall : is.filterMap Iface.connected = (is.take i).filterMap Iface.connected ++
      (is.drop i).filterMap Iface.connected := by
    rw [← List.filterMap_append, List.take_append_drop]
  rw [Built, List.take_length, hall, List.take_append_of_le_length hn]
  exact h

/-- The route of the next interface. -/
theorem BuiltTo.push {r : Route} (h : BuiltTo i f rs is n) (hr : Room rs n)
    (hroom : rs.length < maxRoute)
    (hi : i < is.length) (hf : ∀ it, f it → it.connected = some r) :
    Built (i + 1) (rs ++ [r]) is n := by
  obtain ⟨hb, hnext⟩ := h
  have hget : is[i]? = some is[i] := List.getElem?_eq_getElem hi
  have hc := hf _ (hnext _ hget)
  have hstatic : r.isStatic = false := by
    unfold Iface.connected at hc
    split at hc
    · cases hc
    · cases hc
      rfl
  have hlen := length_routes_eq rs
  rw [hb, List.length_take] at hlen
  have hn : ((is.take i).filterMap Iface.connected).length < n := by
    rw [Room] at hr
    omega
  have hstep : (is.take (i + 1)).filterMap Iface.connected =
      (is.take i).filterMap Iface.connected ++ [r] := by
    rw [List.take_add_one, List.filterMap_append, hget, Option.toList_some,
      List.filterMap_cons_some hc, List.filterMap_nil]
  have hle : ((is.take i).filterMap Iface.connected ++ [r]).length ≤ n := by
    rw [List.length_append, List.length_singleton]
    exact hn
  rw [Built, hstep, List.filter_append, hb, List.take_of_length_le (Nat.le_of_lt hn),
    List.take_of_length_le hle, List.filter_cons_of_pos (by simp [hstatic]), List.filter_nil]

theorem Room.push {r : Route} (h : Room rs n) (hs : r.isStatic = false) : Room (rs ++ [r]) n := by
  rw [Room, List.filter_append, List.filter_cons_of_neg (by simp [hs]), List.filter_nil,
    List.append_nil]
  exact h

/-! ### The derivation -/

theorem Under.weaken (h : Under t U P x) (hU : ∀ rs n, U rs n → U' rs n) : Under t U' P x :=
  ⟨h.held, h.still, hU _ _ h.own, h.seen⟩

/-- A field of the next interface is read. -/
theorem ok_field {φ : Iface → Ip} {c : CtlCmd Ip} {k : Ip → CtlAct α}
    (hc : ∀ e s, execCtl c e s = ((s.manage.ifaces[i]?.map φ).getD 0, s))
    (hb : ∀ b, changing c b = b) (hdue : ∀ x, Due ids t c x) (hx : Under t U (BuiltTo i f) x)
    (hk : ∀ a x', Under t U (BuiltTo i fun it => f it ∧ φ it = a) x' →
      x'.shared.manage.Tended ids → (tending ids).Ok t Q ((k a).tag t) t x') :
    (tending ids).Ok t Q ((Prog.perform c >>= k).tag t) t x := by
  refine ok_read hc hb hdue hx fun x' hx' hf => hk _ x' ⟨hx'.held, hx'.still, hx'.own, ?_⟩ hf
  refine hx'.seen.imp_right fun h => ⟨h.1, fun it hit => ⟨h.2 it hit, ?_⟩⟩
  rw [hit]
  rfl

/-- The interface at a place. -/
theorem ident_at (h : x.shared.manage.Tended ids) {a : Text.CStr 16 × Mac × CInt}
    (ha : ids[i]? = some a) :
    i < x.shared.manage.ifaces.length ∧ ∀ it, x.shared.manage.ifaces[i]? = some it → it.ident = a := by
  have hmap := h.ident
  refine ⟨?_, fun it hit => ?_⟩
  · obtain ⟨hi, -⟩ := List.getElem?_eq_some_iff.mp ha
    rwa [← hmap, List.length_map] at hi
  · rw [← hmap, List.getElem?_map, hit] at ha
    exact Option.some.inj ha

/-- The route of an interface that passed the tests: unless some thread changes it, the fields that are
read again are those tested. -/
theorem ok_route {it : Iface} {ip mask : Ip} {next : CtlAct Unit} {Q : Unit → ℕ → Ctl → Prop}
    (hat : ids[i]? = some it.ident) (hip : ¬(ip = 0 ∨ it.ifindex < 0)) (hmask : mask ≠ 0)
    (hx : Under t (fun rs n => Room rs n ∧ rs.length < maxRoute)
      (BuiltTo i fun jt => (jt.ident = it.ident ∧ jt.ip = ip) ∧ jt.netmask = mask) x)
    (hnext : ∀ y, Under t Room (Built (i + 1)) y → (tending ids).Ok t Q (next.tag t) t y) :
    (tending ids).Ok t Q ((do
      let ip ← own (.ip i)
      let mask ← own (.netmask i)
      let mask' ← own (.netmask i)
      own (.push
        { dest := ip &&& mask, mask := mask', gw := 0, ifindex := it.ifindex, isStatic := false })
      next : CtlAct Unit).tag t) t x := by
  obtain ⟨hip, hneg⟩ := not_or.mp hip
  refine ok_field (φ := Iface.ip) (fun _ _ => rfl) (fun _ => rfl) (fun _ => trivial) hx
    fun ip' y₁ hy₁ _ => ?_
  refine ok_field (φ := Iface.netmask) (fun _ _ => rfl) (fun _ => rfl) (fun _ => trivial) hy₁
    fun mask₁ y₂ hy₂ _ => ?_
  refine ok_field (φ := Iface.netmask) (fun _ _ => rfl) (fun _ => rfl) (fun _ => trivial) hy₂
    fun mask₂ y₃ hy₃ _ => ?_
  refine ok_step fun y hr hf => ?_
  have hy := hy₃.rely hr
  have hmem : it.ident ∈ ids := List.mem_of_getElem? hat
  refine ⟨⟨hy.held, ⟨Int32.not_lt.mp hneg, List.mem_map_of_mem hmem⟩, hy.own.2⟩, fun e _ => hnext _ ?_⟩
  refine ⟨hy.held, ?_, hy.own.1.push rfl, ?_⟩
  · rw [exec_ghost, Function.update_self]
    exact hy.still
  · rw [moved_keep (exec_ghost t _ e y) rfl]
    refine hy.seen.imp_right fun h => h.push hy.own.1 hy.own.2 (ident_at hf hat).1 ?_
    rintro jt ⟨⟨⟨⟨⟨hid, ha⟩, hb⟩, ha'⟩, hb'⟩, hb''⟩
    have hindex : jt.ifindex = it.ifindex := congrArg (fun a => a.2.2) hid
    have hno : ¬(jt.ip = 0 ∨ jt.ifindex < 0 ∨ jt.netmask = 0) := by
      rw [ha, hindex, hb]
      tauto
    rw [Iface.connected, if_neg hno, hindex, ← ha', ← hb', ← hb'']

/-- **The loop of `route_derive_connected`.** -/
theorem deriveLoop_ok (ifs : Ifaces) (hifs : ids.drop i = ifs.map Iface.ident)
    (hx : Under t Room (Built i) x) :
    (tending ids).Ok t (fun _ g x => g = t ∧ Under t Room (fun rs is n => Built is.length rs is n) x)
      ((deriveLoop i ifs).tag t) t x := by
  induction ifs generalizing i x with
  | nil =>
      intro y hr hf
      have hy := hx.rely hr
      have hlen : y.shared.manage.ifaces.length ≤ i := by
        have := congrArg List.length hf.ident
        rw [List.length_map] at this
        rw [this]
        exact List.drop_eq_nil_iff.mp hifs
      refine ⟨rfl, hy.held, hy.still, hy.own, hy.seen.imp_right fun h => ?_⟩
      rw [Built, List.take_of_length_le hlen] at h
      rwa [Built, List.take_length]
  | cons it ifs ih =>
      have hat : ids[i]? = some it.ident := by
        rw [← List.head?_drop, hifs]
        rfl
      have hnext : ids.drop (i + 1) = ifs.map Iface.ident := by
        rw [← List.tail_drop, hifs]
        rfl
      rw [deriveLoop]
      refine ok_read (f := fun s => maxRoute ≤ s.manage.routes.length) (fun _ _ => rfl) (fun _ => rfl)
        (fun _ => trivial) hx fun y hy hf => ?_
      by_cases hfull : maxRoute ≤ y.shared.manage.routes.length
      · simp only [hfull, decide_true, if_true]
        intro z hr _
        have hy' : Under t Room (fun rs is n => Built is.length rs is n) y :=
          ⟨hy.held, hy.still, hy.own, hy.seen.imp_right fun h => h.full hy.own hfull⟩
        exact ⟨rfl, hy'.rely hr⟩
      · simp only [hfull, decide_false, Bool.false_eq_true, if_false]
        have hy' : Under t (fun rs n => Room rs n ∧ rs.length < maxRoute)
            (BuiltTo i fun jt => jt.ident = it.ident) y :=
          ⟨hy.held, hy.still, ⟨hy.own, Nat.lt_of_not_le hfull⟩,
            hy.seen.imp_right fun h => ⟨h, (ident_at hf hat).2⟩⟩
        have hskip : ∀ {f : Iface → Prop} {z : Ctl}, (∀ jt, f jt → jt.connected = none) →
            Under t (fun rs n => Room rs n ∧ rs.length < maxRoute) (BuiltTo i f) z →
            (tending ids).Ok t
              (fun _ g x => g = t ∧ Under t Room (fun rs is n => Built is.length rs is n) x)
              ((deriveLoop (i + 1) ifs).tag t) t z := fun hnone hz =>
          ih hnext ((hz.mono fun _ _ _ _ h => h.skip hnone).weaken fun _ _ h => h.1)
        have hindex : ∀ {jt : Iface}, jt.ident = it.ident → jt.ifindex = it.ifindex :=
          fun h => congrArg (fun a => a.2.2) h
        refine ok_field (φ := Iface.ip) (fun _ _ => rfl) (fun _ => rfl) (fun _ => trivial) hy'
          fun ip y₁ hy₁ hf₁ => ?_
        split
        · rename_i hno
          refine hskip (fun jt h => if_pos ?_) hy₁
          rw [h.2, hindex h.1]
          tauto
        · rename_i hyes
          refine ok_field (φ := Iface.netmask) (fun _ _ => rfl) (fun _ => rfl) (fun _ => trivial) hy₁
            fun mask y₂ hy₂ hf₂ => ?_
          split
          · rename_i hmask
            refine hskip (fun jt h => if_pos ?_) hy₂
            rw [h.2]
            exact .inr (.inr hmask)
          · rename_i hmask
            exact ok_route hat hyes hmask hy₂ fun z hz => ih hnext hz

/-- **A derivation** ends with the routes of the interfaces, unless some thread is to derive. -/
theorem deriveSteps_ok (ids : List (Text.CStr 16 × Mac × CInt)) (t : ℕ) (x : Ctl) :
    (tending ids).Ok t (fun _ g x => g = t ∧ AtEase t x) ((deriveSteps t).tag t) t x := by
  refine ok_step fun y hr hf => ⟨rfl, fun e hfree => ?_⟩
  -- the lock is free, and now the thread's
  set z := (Watched.exec control unseen t (.own (.deriveLock t)) e y).2 with hz
  have hroom : Room z.shared.manage.routes z.shared.slots := by
    have hle : y.shared.statics.length ≤ maxRoute := (List.length_filter_le _ _).trans hf.routes_le
    have hkeep : (y.shared.statics.filter (·.isStatic)) = y.shared.statics := by
      rw [statics, List.filter_filter]
      simp only [Bool.and_self]
    change (y.shared.statics.filter (·.isStatic)).length + (maxRoute - y.shared.statics.length) = _
    rw [hkeep]
    omega
  have hbuilt : Built 0 z.shared.manage.routes z.shared.manage.ifaces z.shared.slots := by
    change y.shared.statics.filter (fun r => !r.isStatic) = _
    rw [List.take_zero, List.filterMap_nil, List.take_nil, List.filter_eq_nil_iff]
    intro r hr
    simpa using (List.mem_filter.mp hr).2
  have hunder : Under t Room (Built 0) z := ⟨rfl, Function.update_self .., hroom, .inr hbuilt⟩
  refine ok_read (c := .of .ifaces) (f := fun s => s.manage.ifaces) (fun _ _ => rfl) (fun _ => rfl)
    (fun _ => trivial) hunder fun y₁ hy₁ hf₁ => ?_
  rw [Prog.tag_bind]
  refine Discipline.Ok.bind ((deriveLoop_ok y₁.shared.manage.ifaces ?_ hy₁).mono ?_)
  · rw [List.drop_zero]
    exact hf₁.ident.symm
  · rintro - g y₂ ⟨rfl, hy₂⟩ y₃ hr₃ hf₃
    have hy₃ := hy₂.rely hr₃
    have hcur : Moved y₃ ∨ y₃.shared.Current := hy₃.seen.imp_right fun h => by
      rwa [Built, List.take_length] at h
    refine ⟨⟨rfl, hy₃.held, hcur⟩, fun e _ y₄ hr₄ _ => ?_⟩
    refine rest_rely ⟨rfl, ?_, ?_⟩ hr₄
    · exact (Function.update_self ..).trans hy₃.still
    · exact (Option.some_ne_none _).symm

/-! ### The commands -/

/-- A command of `Manage` but for a derivation at once, of a thread at rest. -/
theorem of_ok {c : MCmd β} {l : List Note} (hc : Needs ids False c l) (hx : AtEase t x) :
    (tending ids).Ok t (fun a g x => Vouched ids c a ∧ g = t ∧ AtEase t x) ((of c).tag t) t x := by
  intro y hr hf
  refine ⟨⟨rfl, needs_any hc []⟩, fun e _ z hr' _ => ⟨hf.vouched c e.toWorld, rest_rely ⟨rfl, ?_⟩ hr'⟩⟩
  obtain ⟨-, hg, hd⟩ := rest_rely (g := t) ⟨rfl, hx⟩ hr
  refine ⟨(Function.update_self ..).trans ?_, hd⟩
  exact (by rfl : changing (.of c) (y.ghost t) = y.ghost t).trans hg

theorem keeps_derive : Keeps ids t (deriveSteps t) := fun x _ => deriveSteps_ok ids t x

/-- The program of a command with one step. -/
theorem keeps_last {c : CtlCmd β} (hdue : ∀ x, x.shared.manage.Tended ids → Due ids t c x)
    (hb : changing c false = false)
    (hd : ∀ e s, s.deriver ≠ some t → (execCtl c e s).2.deriver ≠ some t) :
    Keeps ids t (Prog.perform c) :=
  keeps_step hdue hb hd fun _ _ _ => keeps_ret _

/-- **An address and the derivation after it.** -/
theorem keeps_address (name : List Byte) (ip mask : Ip) :
    Keeps ids t
      (ifaceAddAddrSteps name ip mask >>= fun ok => if ok then deriveSteps t else .ret ()) := by
  have hset : ∀ i, Keeps ids t (own (.setIp i ip) >>= fun _ =>
      own (.setNetmask i mask) >>= fun _ => deriveSteps t) := fun i x _ =>
    ok_step fun _ _ _ => ⟨trivial, fun _ _ => ok_step fun _ _ _ =>
      ⟨trivial, fun _ _ => deriveSteps_ok ids t _⟩⟩
  rw [ifaceAddAddrSteps, Prog.bind_assoc]
  refine keeps_step (fun _ _ => trivial) rfl (fun _ _ h => h) fun e s _ => ?_
  cases (execCtl (.of .ifaces) e s).1.findIdx? fun it => it.name.1 == name with
  | none => exact keeps_ret ()
  | some i =>
      refine keeps_step (c := .own .ioctl) (fun _ _ => trivial) rfl (fun _ _ h => h) fun e s _ => ?_
      cases (execCtl (.own .ioctl) e s).1 with
      | false => exact keeps_ret ()
      | true => exact hset i

theorem keeps_setip (args : List (List Byte)) : Keeps ids t (setipSteps t args) := by
  unfold setipSteps
  split
  · split
    · exact keeps_ret ()
    · exact keeps_address _ _ _
  · exact keeps_ret ()

theorem keeps_delip (args : List (List Byte)) : Keeps ids t (delipSteps t args) := by
  unfold delipSteps
  split
  · exact keeps_address _ 0 0
  · exact keeps_ret ()

theorem keeps_addfw (args : List (List Byte)) : Keeps ids t (addfwSteps args) := by
  unfold addfwSteps
  split
  · exact keeps_ret ()
  · refine keeps_step (fun _ _ => trivial) rfl (fun _ _ h => h) fun e s _ => ?_
    split
    · exact keeps_ret ()
    · rename_i r hr
      rw [scan_lookRule] at hr
      exact keeps_step (fun _ _ => sound_fwParseRule hr) rfl (fun _ _ h => h) fun _ _ _ => keeps_ret ()

/-- The options of `addroute` are those of a line of a file. -/
theorem isIndex_of_opts {ifs : Ifaces} (hifs : ifs.map Iface.ident = ids) {args : List (List Byte)}
    {o : Ip × CInt} (h : Console.routeOpts ifs args (0, -1) = .ok o) (hi : ¬ o.2 < 0) :
    IsIndex ids o.2 := by
  have ho := Console.routeOpts_toOption ifs args (0, -1)
  rw [h] at ho
  exact isIndex_of_options hifs ho.symm hi

theorem keeps_addroute (args : List (List Byte)) : Keeps ids t (addrouteSteps args) := by
  unfold addrouteSteps
  split
  · split
    · exact keeps_ret ()
    · refine keeps_step (fun _ _ => trivial) rfl (fun _ _ h => h) fun e s hs => ?_
      split
      · exact keeps_ret ()
      · rename_i gw ifindex ho
        split
        · exact keeps_ret ()
        · rename_i hi
          exact keeps_step (fun _ _ => isIndex_of_opts hs.ident ho hi) rfl (fun _ _ h => h)
            fun _ _ _ => keeps_ret ()
  · exact keeps_ret ()

/-- A program of `Manage` that provides for its commands, with the programs of its commands. -/
theorem keeps_handle {d : Prop} {p : MAct α} {f : ∀ ⦃β : Type⦄, MCmd β → CtlAct β}
    (hp : Provides ids d p)
    (hf : ∀ ⦃β : Type⦄ (c : MCmd β) l x, Needs ids d c l → AtEase t x →
      (tending ids).Ok t (fun a g x => Vouched ids c a ∧ g = t ∧ AtEase t x) ((f c).tag t) t x) :
    Keeps ids t (p.handle f) := by
  intro x hx
  rw [Prog.tag_handle]
  refine (Discipline.Ok.handle (R := fun g x => g = t ∧ AtEase t x)
    (fun _ _ _ hs hr _ => rest_rely hs hr) ?_ (hp []) ⟨rfl, hx⟩).mono fun _ _ _ h => h.2
  rintro β c l g y hc ⟨rfl, hy⟩
  exact hf c l y hc hy

theorem keeps_reload : Keeps ids t (reloadSteps t) :=
  (keeps_handle provides_configLoadSteps fun _ _ _ _ => of_ok).bind fun _ => keeps_derive

theorem keeps_call (args : List (List Byte)) (fn : CmdFn) : Keeps ids t (callSteps t args fn) := by
  cases fn with
  | setip => exact keeps_setip args
  | delip => exact keeps_delip args
  | addfw => exact keeps_addfw args
  | delfw =>
      change Keeps ids t (delfwSteps args)
      unfold delfwSteps
      split
      · exact keeps_last (fun _ _ => trivial) rfl fun _ _ h => h
      · exact keeps_ret ()
  | addroute => exact keeps_addroute args
  | delroute =>
      change Keeps ids t (delrouteSteps args)
      unfold delrouteSteps
      split
      · exact keeps_last (fun _ _ => trivial) rfl fun _ _ h => h
      · exact keeps_ret ()
  | save => exact keeps_last (fun _ _ => trivial) rfl fun _ _ h => h
  | reload => exact keeps_reload
  | _ => exact keeps_ret ()

theorem keeps_dispatch (line : List Byte) : Keeps ids t (dispatchSteps t line) := by
  unfold dispatchSteps
  split
  · exact keeps_ret ()
  · split
    · exact keeps_call _ _
    · exact keeps_ret ()

theorem inSteps_ok {c : MCmd β} {l : List Note} (hc : Needs ids True c l) (hx : AtEase t x) :
    (tending ids).Ok t (fun a g x => Vouched ids c a ∧ g = t ∧ AtEase t x) ((inSteps t c).tag t) t
      x := by
  cases c with
  | dispatch line =>
      change (tending ids).Ok t _ ((dispatchSteps t line >>= fun _ => of (.dispatch line)).tag t) t x
      rw [Prog.tag_bind]
      refine Discipline.Ok.bind ((keeps_dispatch line x hx).mono ?_)
      rintro - g y ⟨rfl, hy⟩
      exact of_ok (l := []) trivial hy
  | routeDeriveConnected => exact (deriveSteps_ok ids t x).mono fun _ _ _ h => ⟨trivial, h⟩
  | fwAdd r => exact of_ok (l := l) hc hx
  | routeAdd dest mask gw i => exact of_ok (l := l) hc hx
  | _ => exact of_ok (l := []) trivial hx

theorem keeps_terminal : Keeps ids t (terminalRound t) := by
  refine keeps_step (c := .of .stop) (fun _ _ => trivial) rfl (fun _ _ h => h) fun e s _ => ?_
  split
  · exact keeps_ret none
  · refine keeps_step (c := .own .fgets) (fun _ _ => trivial) rfl (fun _ _ h => h) fun e s _ => ?_
    split
    · refine keeps_step (c := .own .tty) (fun _ _ => trivial) rfl (fun _ _ h => h) fun e s _ => ?_
      split <;> exact keeps_ret _
    · dsimp only
      split
      · exact keeps_ret _
      · refine Keeps.bind (fun x hx => ?_) fun r => ?_
        · have hc : ∀ line, Needs ids True (.dispatch line) [] := fun _ => trivial
          exact (inSteps_ok (hc _) hx).mono fun _ _ _ h => h.2
        · split <;> exact keeps_ret _

/-- **A round of a thread.** -/
theorem keeps_body (l : CtlTask) : Keeps ids t (ctlBody t l) := by
  cases l with
  | terminal => exact keeps_terminal
  | task l =>
      change Keeps ids t (Option.map CtlTask.task <$> (taskBody l).handle (inSteps t))
      rw [Prog.map_eq]
      exact (keeps_handle (provides_taskBody l) fun _ _ _ _ => inSteps_ok).bind fun _ => keeps_ret _

end Control

end LinuxRouter
