/-
# Lookups once the beans are resolved

Once all beans are resolved, only creations change a status, and a bean that is
created or wired has been resolved. So to the scan and to the indices the registry
looks the same from there on (`Registry.Steady`), with any injector if no condition
goes on after a failed lookup, and with the standard injector in any case: it
creates no bean that is not resolved (`refresh_steadfast`). What a lookup finds while
the container is refreshed, and what the indices answer, is therefore the same at
each later moment, and both have the same members (`scan_matches_indices`).
-/
import Inversion.Proofs.Lookup.Index
import Inversion.Proofs.Lookup.Run

namespace Inversion

/-! ### Registries that look the same -/

/-- The status as lookups see it. -/
def Status.shown : Status → Status
  | creating | wired => resolved
  | s => s

theorem Status.isSettled_shown (s : Status) : s.shown.isSettled = s.isSettled := by
  cases s <;> rfl

theorem Status.shown_of_isSettled {s : Status} (h : s.isSettled) : s.shown = .resolved := by
  cases s <;> first | rfl | cases h

theorem Status.shown_eq_iff {s : Status} (t : Status) (ht : t.isSettled = false) :
    s.shown = t ↔ s = t := by
  cases s <;> cases t <;> simp_all [shown, isSettled]

namespace Registry

/-- Creations apart, the registry is the same. -/
structure Steady (r r' : Registry) : Prop where
  length : r'.marks.length = r.marks.length
  shown : ∀ b, (r'.status b).shown = (r.status b).shown
  exports : ∀ b, r'.exports b = r.exports b
  byType : r'.byType = r.byType
  byName : r'.byName = r.byName

variable {r r' r'' : Registry} {b : Nat}

theorem Steady.refl (r : Registry) : Steady r r :=
  ⟨rfl, fun _ => rfl, fun _ => rfl, rfl, rfl⟩

theorem Steady.trans (h : Steady r r') (h' : Steady r' r'') : Steady r r'' where
  length := h'.length.trans h.length
  shown b := (h'.shown b).trans (h.shown b)
  exports b := (h'.exports b).trans (h.exports b)
  byType := h'.byType.trans h.byType
  byName := h'.byName.trans h.byName

theorem Steady.symm (h : Steady r r') : Steady r' r where
  length := h.length.symm
  shown b := (h.shown b).symm
  exports b := (h.exports b).symm
  byType := h.byType.symm
  byName := h.byName.symm

theorem Steady.setStatus {s : Status} (hb : (r.status b).isSettled) (hs : s.isSettled) :
    Steady r (r.setStatus b s) := by
  refine ⟨length_setStatus r b s, fun c => ?_, fun c => exports_setStatus r b c s, rfl, rfl⟩
  rw [status_setStatus]
  split
  · rename_i h
    rw [h.1, Status.shown_of_isSettled hs, Status.shown_of_isSettled hb]
  · rfl

theorem Steady.setHeld (r : Registry) (b : Nat) (i : Instance) : Steady r (r.setHeld b i) :=
  ⟨length_setHeld r b i, fun c => by rw [status_setHeld], fun c => exports_setHeld r b c i, rfl, rfl⟩

theorem Steady.isSettled (h : Steady r r') (b : Nat) :
    (r'.status b).isSettled = (r.status b).isSettled := by
  rw [← Status.isSettled_shown, h.shown, Status.isSettled_shown]

theorem Steady.status_eq_iff (h : Steady r r') {s : Status} (hs : s.isSettled = false) (b : Nat) :
    r'.status b = s ↔ r.status b = s := by
  rw [← Status.shown_eq_iff s hs, h.shown, Status.shown_eq_iff s hs]

theorem Steady.calm (h : Steady r r') (hr : r.Calm) : r'.Calm :=
  fun b hb => hr b ((h.status_eq_iff rfl b).mp hb)

theorem Steady.decided (h : Steady r r') (hr : r.Decided) : r'.Decided := by
  intro b
  rw [h.isSettled, h.status_eq_iff rfl]
  exact hr b

theorem active_congr (hlen : r'.marks.length = r.marks.length)
    (h : ∀ b, r'.status b = .deleted ↔ r.status b = .deleted) : r'.active = r.active := by
  unfold Registry.active
  rw [hlen]
  refine List.filter_congr fun b _ => ?_
  rw [decide_eq_decide]
  exact not_congr (h b)

theorem Steady.active (h : Steady r r') : r'.active = r.active :=
  active_congr h.length (h.status_eq_iff rfl)

variable {plan : Plan}

theorem Steady.selects (h : Steady r r') (sel : Selector) :
    plan.selects r' sel = plan.selects r sel := by
  funext b
  unfold Plan.selects
  rw [h.exports]

theorem Steady.lookup (h : Steady r r') (sel : Selector) :
    plan.lookup r' sel = plan.lookup r sel := by
  unfold Plan.lookup named typed
  rw [h.byType, h.byName, h.active, h.selects]

theorem Steady.present (h : Steady r r') (sel : Selector) :
    plan.present r' sel = plan.present r sel := by
  unfold Plan.present Plan.candidates
  rw [h.active, h.selects]
  refine List.filter_congr fun b _ => ?_
  rw [decide_eq_decide, ne_eq, ne_eq, h.status_eq_iff rfl, h.status_eq_iff rfl]

end Registry

namespace Plan

variable (plan : Plan) {plan' : Plan} {r : Registry} {sel : Selector}

/-- Of the plan only the beans matter to lookups. -/
theorem lookup_congr (h : plan'.beans = plan.beans) :
    plan'.lookup r sel = plan.lookup r sel := by
  unfold lookup selects
  rw [h]

theorem present_congr (h : plan'.beans = plan.beans) :
    plan'.present r sel = plan.present r sel := by
  unfold present candidates mayMatch selects
  rw [h]

end Plan

/-! ### From the end of the resolution on -/

/-- A registry that a resolution of all beans leaves. -/
structure Plan.Resolved (plan : Plan) (r : Registry) : Prop extends plan.Indexed r where
  calm : r.Calm
  decided : (∀ bean ∈ plan.beans, Condition.AllPropagate bean.conditions) → r.Decided

theorem Plan.Indexed.steady {plan : Plan} {r r' : Registry} (h : plan.Indexed r)
    (hs : r.Steady r') : plan.Indexed r' :=
  h.of_same hs.length hs.isSettled hs.exports hs.byType hs.byName

theorem Plan.Resolved.steady {plan : Plan} {r r' : Registry} (h : plan.Resolved r)
    (hs : r.Steady r') : plan.Resolved r' where
  toIndexed := h.toIndexed.steady hs
  calm := hs.calm h.calm
  decided hprop := hs.decided (h.decided hprop)

/-- The indices fit the marks, and since the beans were resolved the registry has
looked the same. -/
structure Steadfast (plan : Plan) (p : Progress) : Prop where
  indexed : plan.Indexed p.registry
  resolved : ∀ m ∈ p.history, m.event = .beansResolved → plan.Resolved m.registry
  current : ∀ m ∈ p.history, m.event = .beansResolved → m.registry.Steady p.registry
  chained : p.history.Pairwise fun m m' => m'.event = .beansResolved → m'.registry.Steady m.registry

namespace Steadfast

variable {plan : Plan} {p q : Progress} {r : Registry}

theorem of_unresolved (hi : plan.Indexed p.registry) (h : .beansResolved ∉ p.events) :
    Steadfast plan p := by
  have hnone : ∀ m ∈ p.history, m.event ≠ .beansResolved := by
    intro m hm he
    exact h (List.mem_map.mpr ⟨m, hm, he⟩)
  refine ⟨hi, fun m hm he => absurd he (hnone m hm), fun m hm he => absurd he (hnone m hm), ?_⟩
  exact List.pairwise_of_forall_mem_list fun _ _ m' hm' he => absurd he (hnone m' hm')

theorem note (h : Steadfast plan p) {e : Event} (he : e = .beansResolved → plan.Resolved p.registry) :
    Steadfast plan (p.note e) where
  indexed := h.indexed
  resolved := List.forall_mem_cons.mpr ⟨he, h.resolved⟩
  current := List.forall_mem_cons.mpr ⟨fun _ => .refl _, h.current⟩
  chained := List.pairwise_cons.mpr ⟨h.current, h.chained⟩

theorem update (h : Steadfast plan p) (hr : p.registry.Steady r) :
    Steadfast plan { p with registry := r } where
  indexed := h.indexed.steady hr
  resolved := h.resolved
  current m hm he := (h.current m hm he).trans hr
  chained := h.chained

theorem remarked (h : Steadfast plan p) (hq : p.Remarked q) : Steadfast plan q := by
  induction hq with
  | refl => exact h
  | note _ he ih => exact ih.note fun h => by rw [h] at he; exact he.elim

/-- The registry of every moment since then. -/
theorem steady (h : Steadfast plan p) {later earlier : List Moment} {m : Moment}
    (hp : p.history = later ++ m :: earlier) (hm : m.event = .beansResolved)
    (hr : r = p.registry ∨ r = m.registry ∨ ∃ m' ∈ later, r = m'.registry) :
    m.registry.Steady r := by
  have hin : m ∈ p.history := by simp [hp]
  rcases hr with rfl | rfl | ⟨m', hm', rfl⟩
  · exact h.current m hin hm
  · exact .refl _
  · have hchained := h.chained
    rw [hp, List.pairwise_append] at hchained
    exact hchained.2.2 m' hm' m List.mem_cons_self hm

end Steadfast

/-- Of the plan only the beans and the compositions matter. -/
theorem Plan.Indexed.congr {plan plan' : Plan} {r : Registry} (h : plan.Indexed r)
    (hb : plan'.beans = plan.beans) (hc : plan'.compositions = plan.compositions) :
    plan'.Indexed r := by
  obtain ⟨beans, properties, compositions, injector, cancelled⟩ := plan
  obtain ⟨beans', properties', compositions', injector', cancelled'⟩ := plan'
  cases hb
  cases hc
  exact ⟨⟨h.length, h.exports⟩, h.byType, h.byName⟩

/-- Of the plan only the beans and the compositions matter. -/
theorem Steadfast.congr {plan plan' : Plan} {p : Progress} (h : Steadfast plan p)
    (hb : plan'.beans = plan.beans) (hc : plan'.compositions = plan.compositions) :
    Steadfast plan' p :=
  ⟨h.indexed.congr hb hc, fun m hm he => ⟨(h.resolved m hm he).toIndexed.congr hb hc,
    (h.resolved m hm he).calm, fun hprop => (h.resolved m hm he).decided (hb ▸ hprop)⟩,
    h.current, h.chained⟩

theorem Container.Frozen.indexed {plan : Plan} {p : Progress} (h : Container.Frozen plan p) :
    plan.Indexed p.registry := by
  rw [h.registry]
  exact .of_new plan

/-! ### Wirings -/

namespace Plan

variable {plan : Plan} {r : Registry}

theorem persists_unresolved : plan.Persists fun p => .beansResolved ∉ p.events :=
  persists_events (P := fun es => .beansResolved ∉ es) fun e es he hes hin => by
    rcases List.mem_cons.mp hin with rfl | hin
    · exact he
    · exact hes hin

/-- Lookups do not end a resolution, and resolve nothing behind its end. -/
theorem find_steadfast (sel : Selector) {p : Progress} (h : Steadfast plan p) :
    After (plan.find sel) p fun _ q => Steadfast plan q := by
  by_cases hin : .beansResolved ∈ p.events
  · obtain ⟨m, hm, he⟩ := List.mem_map.mp hin
    have hcalm : p.registry.Calm := (h.current m hm he).calm (h.resolved m hm he).calm
    exact (find_of_calm hcalm sel).mono fun _ q hq => h.remarked hq.1
  · have hkept := find_keeps ((persists_indexed plan).and persists_unresolved) sel
    exact (hkept.after ⟨h.indexed, hin⟩).mono fun _ q hq => .of_unresolved hq.1 hq.2

/-- Once the beans are resolved, a lookup adds remarks, and finds settled beans. -/
theorem find_of_steady {p : Progress} (hcalm : r.Calm) (h : r.Steady p.registry) (sel : Selector) :
    After (plan.find sel) p fun x q => p.Remarked q ∧
      ∀ found, x = .ok found → ∀ b ∈ found, (r.status b).isSettled := by
  refine (find_of_calm (h.calm hcalm) sel).mono fun x q ⟨hq, hx⟩ => ⟨hq, fun found hfound b hb => ?_⟩
  rw [hx] at hfound
  cases hfound
  obtain ⟨hresolving, hdeleted, -⟩ := of_decide_eq_true (List.mem_filter.mp hb).2
  rw [← h.isSettled]
  exact (isSettled_of_decided (h.calm hcalm b) hresolving).resolve_right hdeleted

/-- So does a lookup from inside a wiring. -/
theorem gathered_of_steady (hr : plan.Resolved r) {P : Progress → Prop} {a : Assembly}
    (h : r.Steady a.registry) (hP : ∀ q, a.progress.Remarked q → P q) (sel : Selector) :
    After (Wiring.ofResolving (plan.find sel)) a fun x t => (P t.progress ∧ r.Steady t.registry) ∧
      ∀ found, x = .ok found → ∀ b ∈ found, (r.status b).isSettled := by
  rw [after_ofResolving]
  refine (find_of_steady hr.calm h sel).mono fun x q hfound => ?_
  obtain ⟨hq, hsettled⟩ := hfound
  refine ⟨⟨hP q hq, ?_⟩, fun found hx => ?_⟩
  · rw [Assembly.registry, hq.registry]
    exact h
  · cases x with
    | error cause => cases hx
    | ok bs =>
      cases hx
      exact hsettled _ rfl

/-- Wirings of settled beans with any injector. -/
theorem endures_steadfast (hr : plan.Resolved r) :
    plan.Endures (fun a => Steadfast plan a.progress ∧ r.Steady a.registry)
      fun b => (r.status b).isSettled where
  progress a a' h ha := by rwa [Assembly.registry, h]
  note a e _ ha := ⟨ha.1.note fun _ => hr.steady ha.2, ha.2⟩
  handed a b _ ha := ⟨ha.1.note (by simp), ha.2⟩
  received a asker b _ ha := ⟨ha.1.note (by simp), ha.2⟩
  count a n ha := ⟨⟨ha.1.indexed, ha.1.resolved, ha.1.current, ha.1.chained⟩, ha.2⟩
  begin a b hb ha := by
    have hs : a.registry.Steady (a.registry.setStatus b .creating) :=
      .setStatus (by rwa [ha.2.isSettled]) rfl
    exact ⟨(ha.1.update hs).note (by simp), ha.2.trans hs⟩
  hold a b i hb ha := by
    have hheld : a.registry.Steady (a.registry.setHeld b i) := .setHeld _ b i
    have hs : a.registry.Steady ((a.registry.setHeld b i).setStatus b .wired) :=
      hheld.trans (.setStatus (by rwa [hheld.isSettled, ha.2.isSettled]) rfl)
    exact ⟨(ha.1.update hs).note (by simp), ha.2.trans hs⟩
  find sel _ ha := gathered_of_steady hr ha.2 (fun _ hq => ha.1.remarked hq) sel
  reach _ _ hb ha := by rwa [← ha.2.isSettled]

/-- The standard injector refuses a bean that is not settled. -/
theorem wireActive_of_unsettled (hstd : plan.injector = .standard) {P : Assembly → Prop}
    (hnote : ∀ a e, e.IsReport → P a → P (a.note e)) {b : Nat}
    (hhanded : ∀ a, P a → P (a.note (.handed b)))
    (hb : ∀ a, P a → (a.registry.status b).isSettled = false) : Keeps P (plan.wireActive b) := by
  intro a ha
  have hunsettled := hb a ha
  have hhanded : P (a.note (.handed b)) := hhanded a ha
  rw [after_wireActive, wireBean_standard hstd, wire]
  cases hbean : plan.beans[b]? with
  | none =>
    unfold hand
    rw [hbean]
    exact ha
  | some bean =>
    rw [after_hand_standard hstd hbean]
    cases hs : a.registry.status b with
    | fresh => exact hnote _ _ trivial (hnote _ _ trivial hhanded)
    | resolving => exact hnote _ _ trivial (hnote _ _ trivial hhanded)
    | deleted => exact hnote _ _ trivial (hnote _ _ trivial hhanded)
    | _ =>
      rw [hs] at hunsettled
      cases hunsettled

/-! ### Refreshes -/

/-- What a resolution of all beans leaves. -/
theorem resolveAll_resolved {p : Progress} (hp : Container.Frozen plan p) :
    After plan.resolveAll p fun x q => Steadfast plan q ∧ (x = .ok () → plan.Resolved q.registry) := by
  have hindexed := hp.indexed
  have hnone : .beansResolved ∉ p.events := fun hin => hp.aside _ hin
  have hcalm : After plan.resolveAll p _ := resolveAll_calm hindexed.length
  have hkept := (resolveAll_keeps ((persists_indexed plan).and persists_unresolved)).after
    ⟨hindexed, hnone⟩
  have hdecided : After plan.resolveAll p fun x q =>
      (∀ bean ∈ plan.beans, Condition.AllPropagate bean.conditions) → x = .ok () →
        q.registry.Decided := fun hprop =>
    (resolveAll_faithful hprop hp.faithful (hp.status_ne (by decide) (by decide))).2
  refine ((hkept.and hcalm).and hdecided).mono fun x q ⟨⟨hq, hcalm⟩, hdecided⟩ => ?_
  exact ⟨.of_unresolved hq.1 hq.2, fun hx => ⟨hq.1, hcalm hx, fun hprop => hdecided hprop hx⟩⟩

theorem refresh_steadfast {p : Progress} (hp : Container.Frozen plan p)
    (h : (∀ bean ∈ plan.beans, Condition.AllPropagate bean.conditions) ∨ plan.injector = .standard)
    (configurations : List Configuration) :
    After (plan.refresh configurations) (.start p) fun _ t => Steadfast plan t.progress := by
  refine refresh_keeps configurations ((resolveAll_resolved hp).mono fun x q ⟨hq, hok⟩ => ?_)
  cases x with
  | error cause => exact hq
  | ok _ =>
    have hr := hok rfl
    have hnote : ∀ (a : Assembly) (e : Event), e.IsReport →
        Steadfast plan a.progress ∧ q.registry.Steady a.registry →
          Steadfast plan (a.note e).progress ∧ q.registry.Steady (a.note e).registry :=
      fun a e _ ha => ⟨ha.1.note fun _ => hr.steady ha.2, ha.2⟩
    refine ⟨_, (endures_steadfast hr).outlasts hnote fun a ha b hb => ?_,
      ⟨hq.note fun _ => hr, .refl _⟩, fun a ha => ha.1⟩
    cases hs : (q.registry.status b).isSettled with
    | true => exact .inl rfl
    | false =>
      rcases h with hprop | hstd
      · have hdeleted := (hr.decided hprop b).resolve_left (by rw [hs]; decide)
        exact absurd ((ha.2.status_eq_iff rfl b).mpr hdeleted) (Registry.mem_active.mp hb)
      · exact .inr (wireActive_of_unsettled hstd hnote
          (fun t ht => ⟨ht.1.note (by simp), ht.2⟩) fun t ht => by rw [ht.2.isSettled, hs])

end Plan

/-! ### Containers -/

namespace Container

theorem lasts_steadfast : Lasts fun plan p =>
    (∀ bean ∈ plan.beans, Condition.AllPropagate bean.conditions) ∨ plan.injector = .standard →
      Steadfast plan p where
  congr _ _ hb hc hi _ h hcase := (h (by rwa [hb, hi] at hcase)).congr hb hc
  note he h hcase := (h hcase).note fun hr => by rw [hr] at he; exact he.elim
  start h _ := .of_unresolved h.indexed fun hin => h.aside _ hin
  refresh h configurations hcase := Plan.refresh_steadfast h hcase configurations
  find sel h hcase := Plan.find_steadfast sel (h hcase)

/-- With any injector, if no condition goes on after a failed lookup: from the moment
when the beans are resolved, whatever happens then, a lookup finds the same beans at
every moment while the container is refreshed, and they are those that the indices
answer at every moment. -/
theorem scan_matches_indices (injector : Injector) (compositions : Compositions)
    (ops : List Operation) :
    let c := ((empty injector compositions).performAll ops).2
    (∀ bean ∈ c.beans, Condition.AllPropagate bean.conditions) →
      ∀ later earlier r₀, c.progress.history = later ++ ⟨.beansResolved, r₀⟩ :: earlier →
        ∀ sel : Selector, ∃ found,
          (∀ b, b ∈ found ↔ b ∈ c.plan.lookup r₀ sel) ∧
          (∀ r, (r = c.registry ∨ r = r₀ ∨ ∃ m ∈ later, r = m.registry) →
            ∀ plan : Plan, plan.beans = c.beans →
              plan.lookup r sel = c.plan.lookup r₀ sel ∧
              ∀ p : Progress, p.registry = r →
                ∃ q, outcome (plan.find sel) p = (.ok found, q) ∧ q.registry = r) ∧
          ∃ now, (c.find sel).1 = .ok (.ok now) ∧ ∀ b, b ∈ now ↔ b ∈ c.plan.lookup r₀ sel := by
  intro c hprop later earlier r₀ hhistory sel
  have h : Has _ c := performAll_lasts lasts_steadfast injector compositions ops
  have hin : (⟨.beansResolved, r₀⟩ : Moment) ∈ c.progress.history := by simp [hhistory]
  have hn : c.phase ≠ .unrefreshed := fun hn =>
    h.new hn .beansResolved (List.mem_map.mpr ⟨_, hin, rfl⟩)
  have hsteadfast : Steadfast c.plan c.progress := h.since hn (.inl hprop)
  have hresolved : c.plan.Resolved r₀ := hsteadfast.resolved _ hin rfl
  have hdecided : r₀.Decided := hresolved.decided hprop
  have hsame : ∀ b, b ∈ c.plan.present r₀ sel ↔ b ∈ c.plan.lookup r₀ sel := fun b =>
    (Plan.mem_present hresolved.toSound hdecided sel).trans
      (Plan.mem_lookup hresolved.toIndexed hdecided sel).symm
  have hfind : ∀ r, r₀.Steady r → ∀ plan : Plan, plan.beans = c.beans → ∀ p : Progress,
      p.registry = r →
        ∃ q, outcome (plan.find sel) p = (.ok (c.plan.present r₀ sel), q) ∧ q.registry = r := by
    intro r hr plan hbeans p hp
    have hcalm : p.registry.Calm := by
      rw [hp]
      exact hr.calm hresolved.calm
    obtain ⟨hremarked, hfound⟩ := @Plan.find_of_calm plan p hcalm sel
    refine ⟨_, Prod.ext ?_ rfl, hremarked.registry.trans hp⟩
    rw [hfound, hp, hr.present, Plan.present_congr c.plan hbeans]
  have hlookup : ∀ r, r₀.Steady r → ∀ plan : Plan, plan.beans = c.beans →
      plan.lookup r sel = c.plan.lookup r₀ sel := by
    intro r hr plan hbeans
    rw [hr.lookup, Plan.lookup_congr c.plan hbeans]
  refine ⟨c.plan.present r₀ sel, hsame, fun r hr plan hbeans => ?_, ?_⟩
  · have hr : r₀.Steady r := hsteadfast.steady hhistory rfl hr
    exact ⟨hlookup r hr plan hbeans, hfind r hr plan hbeans⟩
  · have hnow : r₀.Steady c.registry := hsteadfast.current _ hin rfl
    cases hp : c.phase with
    | unrefreshed => exact absurd hp hn
    | refreshing =>
      obtain ⟨q, hq, -⟩ := hfind c.registry hnow c.plan rfl c.progress rfl
      refine ⟨c.plan.present r₀ sel, ?_, hsame⟩
      unfold find
      rw [hp]
      exact congrArg (fun x => Except.ok x.1) hq
    | refreshed =>
      refine ⟨c.plan.lookup c.registry sel, ?_, fun b => by rw [hlookup _ hnow c.plan rfl]⟩
      unfold find
      rw [hp]

/-- The injector wires the handler ahead of the pool, the wiring of the pool fails, and the pool is
found as before. -/
theorem scan_matches_indices_of_unbuildable :
    let injector := Injector.leading (.of "app::Handler")
    let c := ((empty injector ⟨[]⟩).performAll (unbuildable.map .register ++ [.refresh])).2
    c.phase = .refreshing ∧ c.registry.status 1 = .wired ∧
      ∃ later earlier r₀, c.progress.history = later ++ ⟨.beansResolved, r₀⟩ :: earlier ∧
        ∀ m ∈ later, c.plan.lookup m.registry (.type (.of "app::Pool")) =
          c.plan.lookup r₀ (.type (.of "app::Pool")) := by
  intro injector
  have hplain : ((empty injector ⟨[]⟩).performAll
      (unbuildable.map .register ++ [.refresh])).2.beans.all
        fun bean => Condition.arePlain bean.conditions := by decide +kernel
  have hany : ((empty injector ⟨[]⟩).performAll
      (unbuildable.map .register ++ [.refresh])).2.progress.history.any
        fun m => m.event matches .beansResolved := by decide +kernel
  have hstatus : ((empty injector ⟨[]⟩).performAll
      (unbuildable.map .register ++ [.refresh])).2.phase = .refreshing ∧
        ((empty injector ⟨[]⟩).performAll
          (unbuildable.map .register ++ [.refresh])).2.registry.status 1 = .wired := by
    decide +kernel
  have hsame := scan_matches_indices injector ⟨[]⟩ (unbuildable.map .register ++ [.refresh])
  -- the run is done, and what is left does not look into it
  generalize ((empty injector ⟨[]⟩).performAll (unbuildable.map .register ++ [.refresh])).2 = c
    at hplain hany hstatus hsame ⊢
  refine ⟨hstatus.1, hstatus.2, ?_⟩
  obtain ⟨⟨e, r₀⟩, hin, he⟩ := List.any_eq_true.mp hany
  cases e with
  | beansResolved =>
    obtain ⟨later, earlier, hhistory⟩ := List.append_of_mem hin
    obtain ⟨found, -, hscan, -⟩ := hsame
      (fun bean hbean => Condition.allPropagate_of_arePlain _ (List.all_eq_true.mp hplain bean hbean))
      later earlier r₀ hhistory (.type (.of "app::Pool"))
    exact ⟨later, earlier, r₀, hhistory, fun m hm =>
      (hscan m.registry (.inr (.inr ⟨m, hm, rfl⟩)) _ rfl).1⟩
  | _ => cases he

end Container
end Inversion
