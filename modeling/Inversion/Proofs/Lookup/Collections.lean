/-
# Collections

A scan lists the beans that provide a type in the order of registration, and so does an
argument that asks for all of them. The indices list them in the order in which the beans
were resolved (`Filed`), and a condition that looks a bean up has it resolved early. So what
is fetched from a refreshed container has the same beans, but in the order of their
resolution, and a bean that exports its own type twice. The two lists are the same exactly
if there is no such bean and those that provide the type were resolved in the order of their
registration (`collections_ordered`).
-/
import Inversion.Proofs.Lookup.Lasting
import Inversion.Proofs.Lookup.Once

namespace Inversion

/-! ### The order of resolution -/

/-- The beans that have been resolved, the first first. -/
def resolutionOrder (es : List Event) : List Nat :=
  (es.filterMap Event.resolved?).reverse

namespace Event

variable {e : Event}

theorem IsRemark.not_resolved (h : e.IsRemark) : e.resolved? = none := by
  cases e <;> first | rfl | exact h.elim

theorem IsIndexing.not_resolved (h : e.IsIndexing) : e.resolved? = none := by
  cases e <;> first | rfl | exact h.elim

theorem IsReport.not_resolved (h : e.IsReport) : e.resolved? = none := by
  cases e <;> first | rfl | exact h.elim

theorem FollowsResolution.not_resolved (h : e.FollowsResolution) : e.resolved? = none := by
  cases e with
  | status b s => rcases h with rfl | rfl <;> rfl
  | _ => rfl

end Event

theorem resolutionOrder_cons {e : Event} (he : e.resolved? = none) (es : List Event) :
    resolutionOrder (e :: es) = resolutionOrder es := by
  unfold resolutionOrder
  rw [List.filterMap_cons_none he]

theorem resolutionOrder_eq_nil {es : List Event} (h : ∀ e ∈ es, e.resolved? = none) :
    resolutionOrder es = [] := by
  unfold resolutionOrder
  rw [List.filterMap_eq_nil_iff.mpr h, List.reverse_nil]

namespace Plan

variable {plan : Plan} {p : Progress} {r r' : Registry} {b : Nat} {order : List Nat}

/-- The entries of a bean under its type and its exports. -/
def entries (plan : Plan) (r : Registry) (b : Nat) : List (TypeName × Nat) :=
  (plan.beans[b]?).elim [] fun bean => (insertRepeated bean.type (r.exports b)).map (·, b)

/-- The index of types has the entries of the settled beans, one bean behind the other. -/
structure Filed (plan : Plan) (r : Registry) (order : List Nat) : Prop where
  settled : ∀ b, b ∈ order ↔ (r.status b).isSettled
  nodup : order.Nodup
  byType : r.byType = order.flatMap (plan.entries r)

theorem Filed.of_same (h : plan.Filed r order)
    (hs : ∀ b, (r'.status b).isSettled = (r.status b).isSettled)
    (he : ∀ b, r'.exports b = r.exports b) (ht : r'.byType = r.byType) : plan.Filed r' order where
  settled b := by
    rw [hs]
    exact h.settled b
  nodup := h.nodup
  byType := by
    have hentries : plan.entries r' = plan.entries r := by
      funext b
      unfold entries
      rw [he]
    rw [ht, hentries]
    exact h.byType

/-- A bean that is settled is filed behind the others. -/
theorem Filed.settle {bean : Bean} {exports : List TypeName} (h : plan.Filed p.registry order)
    (hbean : plan.beans[b]? = some bean) (hb : p.registry.status b = .resolving) :
    plan.Filed (Plan.settle b bean exports p).registry (order ++ [b]) := by
  have hlt : b < p.registry.marks.length := Registry.lt_length_of_status_eq hb (by decide)
  have hnew : b ∉ order := fun hin => by
    have hs := (h.settled b).mp hin
    rw [hb] at hs
    cases hs
  have hne : ∀ c ∈ order, c ≠ b := fun c hc hcb => hnew (hcb ▸ hc)
  refine ⟨fun c => ?_, ?_, ?_⟩
  · rw [List.mem_append, List.mem_singleton, h.settled]
    by_cases hc : c = b
    · rw [hc, status_settle_self b bean exports p hlt]
      exact iff_of_true (.inr rfl) rfl
    · rw [status_settle_of_ne b c bean exports p hc]
      exact or_iff_left hc
  · exact List.nodup_append.mpr ⟨h.nodup, List.nodup_singleton b, fun c hc d hd =>
      List.mem_singleton.mp hd ▸ hne c hc⟩
  · have hold : order.flatMap (plan.entries (Plan.settle b bean exports p).registry) =
        order.flatMap (plan.entries p.registry) := by
      refine List.flatMap_congr fun c hc => ?_
      unfold entries
      rw [exports_settle_of_ne b c bean exports p (hne c hc)]
    have hentries : plan.entries (Plan.settle b bean exports p).registry b =
        (insertRepeated bean.type exports).map (·, b) := by
      unfold entries
      rw [hbean, exports_settle_self p exports hlt]
      rfl
    rw [byType_settle, h.byType, List.flatMap_append, hold, List.flatMap_singleton, hentries]

theorem persists_filed (plan : Plan) :
    plan.Persists fun p => plan.Filed p.registry (resolutionOrder p.events) where
  note _ _ he hp := (resolutionOrder_cons he.not_resolved _).symm ▸ hp
  begin p b hb hp := by
    rw [show resolutionOrder (p.setStatus b .resolving).events = resolutionOrder p.events from
      resolutionOrder_cons rfl _]
    exact hp.of_same (isSettled_begin hb) (fun c => Registry.exports_setStatus _ b c _) rfl
  settle p b bean exports hbean hb _ hp := by
    have horder : resolutionOrder (Plan.settle b bean exports p).events =
        resolutionOrder p.events ++ [b] := by
      have hindex : (index b bean exports p).events.filterMap Event.resolved? =
          p.events.filterMap Event.resolved? := filterMap_index fun _ he => he.not_resolved
      exact (congrArg (fun bs => (b :: bs).reverse) hindex).trans List.reverse_cons
    rw [horder]
    exact hp.settle hbean hb
  discard p b hb hp := by
    have horder : resolutionOrder (plan.discard b p).events = resolutionOrder p.events :=
      congrArg List.reverse (filterMap_discard rfl rfl)
    rw [horder]
    exact hp.of_same (isSettled_discard hb) (fun c => exports_discard b c p plan) rfl

/-! ### Whole runs -/

/-- Where all beans were resolved, the index of types was in the order of resolution that is
known now. -/
def Fixed (plan : Plan) (ms : List Moment) : Prop :=
  ∀ m ∈ ms, m.event = .beansResolved →
    plan.Filed m.registry (resolutionOrder (ms.map Moment.event))

theorem Fixed.cons {m : Moment} {ms : List Moment} (h : plan.Fixed ms)
    (hm : m.event.resolved? = none) (he : m.event ≠ .beansResolved) : plan.Fixed (m :: ms) := by
  unfold Fixed
  rw [List.map_cons, resolutionOrder_cons hm]
  exact List.forall_mem_cons.mpr ⟨fun hr => absurd hr he, h⟩

/-- The index of types is in the order of resolution, and once all beans are resolved this
order is fixed. -/
structure Dated (plan : Plan) (p : Progress) : Prop where
  before : .beansResolved ∉ p.events → plan.Filed p.registry (resolutionOrder p.events)
  since : .beansResolved ∈ p.events → p.registry.Calm
  fixed : plan.Fixed p.history

namespace Dated

theorem of_unresolved (h : plan.Filed p.registry (resolutionOrder p.events))
    (hn : .beansResolved ∉ p.events) : plan.Dated p :=
  ⟨fun _ => h, fun hin => absurd hin hn, fun m hm he => absurd (List.mem_map.mpr ⟨m, hm, he⟩) hn⟩

theorem of_resolved (hc : p.registry.Calm) (hin : .beansResolved ∈ p.events)
    (h : plan.Fixed p.history) : plan.Dated p :=
  ⟨fun hn => absurd hin hn, fun _ => hc, h⟩

theorem of_frozen (h : Container.Frozen plan p) : plan.Dated p := by
  have hnone : ∀ e ∈ p.events, e.resolved? = none := fun e he =>
    (h.aside e he).isAfterword.isReport.not_resolved
  refine of_unresolved ?_ fun hin => h.aside _ hin
  rw [resolutionOrder_eq_nil hnone, h.registry]
  refine ⟨fun b => iff_of_false List.not_mem_nil ?_, List.nodup_nil, rfl⟩
  rw [Registry.status_ofBeans]
  split <;> exact nofun

theorem note (h : plan.Dated p) {e : Event} (he : e.IsReport) : plan.Dated (p.note e) := by
  have hne : e ≠ .beansResolved := by
    rintro rfl
    exact he
  have horder : resolutionOrder (p.note e).events = resolutionOrder p.events :=
    resolutionOrder_cons he.not_resolved _
  refine ⟨fun hn => ?_, fun hin => ?_, h.fixed.cons he.not_resolved hne⟩
  · rw [horder]
    exact h.before fun hin => hn (List.mem_cons_of_mem e hin)
  · exact h.since ((List.mem_cons.mp hin).resolve_left hne.symm)

/-- Of the plan only the beans matter. -/
theorem congr {plan' : Plan} (h : plan.Dated p) (hb : plan'.beans = plan.beans) :
    plan'.Dated p := by
  have hfiled : ∀ {r : Registry} {order : List Nat}, plan.Filed r order → plan'.Filed r order := by
    intro r order hr
    have hentries : plan'.entries r = plan.entries r := by
      funext b
      unfold entries
      rw [hb]
    exact ⟨hr.settled, hr.nodup, hentries ▸ hr.byType⟩
  exact ⟨fun hn => hfiled (h.before hn), h.since, fun m hm he => hfiled (h.fixed m hm he)⟩

end Dated

/-- What lookups and wirings keep behind the end of the resolution. -/
theorem endures_fixed : plan.Endures (fun a => a.registry.Calm ∧
    .beansResolved ∈ a.progress.history.map Moment.event ∧ plan.Fixed a.progress.history)
    fun _ => True := by
  refine endures_history (P := fun ms => .beansResolved ∈ ms.map Moment.event ∧ plan.Fixed ms)
    fun m ms hm ⟨hin, hfixed⟩ => ?_
  refine ⟨List.mem_cons_of_mem _ hin, hfixed.cons hm.not_resolved fun hr => ?_⟩
  rw [hr] at hm
  exact hm

theorem find_keeps_dated (sel : Selector) : Keeps plan.Dated (plan.find sel) := by
  refine .of_after fun p hp => ?_
  by_cases hin : .beansResolved ∈ p.events
  · have hfound := endures_fixed.find sel (.start p) ⟨hp.since hin, hin, hp.fixed⟩
    rw [after_ofResolving] at hfound
    exact hfound.mono fun _ _ hq => .of_resolved hq.1.1 hq.1.2.1 hq.1.2.2
  · have hkept := find_keeps ((persists_filed plan).and persists_unresolved) sel
    exact (hkept.after ⟨hp.before hin, hin⟩).mono fun _ _ hq => .of_unresolved hq.1 hq.2

theorem refresh_dated (h : Container.Frozen plan p) (configurations : List Configuration) :
    After (plan.refresh configurations) (.start p) fun _ t => plan.Dated t.progress := by
  have hdated : plan.Dated p := .of_frozen h
  have hnone : .beansResolved ∉ p.events := fun hin => h.aside _ hin
  have hkept := (resolveAll_keeps ((persists_filed plan).and persists_unresolved)).after
    ⟨hdated.before hnone, hnone⟩
  have hcalm : After plan.resolveAll p _ := resolveAll_calm h.indexed.length
  refine refresh_keeps configurations ((hkept.and hcalm).mono fun x q ⟨⟨hfiled, hn⟩, hcalm⟩ => ?_)
  cases x with
  | error cause => exact .of_unresolved hfiled hn
  | ok _ =>
    have hstart : plan.Fixed (q.note .beansResolved).history :=
      List.forall_mem_cons.mpr ⟨fun _ => hfiled, fun m hm he =>
        absurd (List.mem_map.mpr ⟨m, hm, he⟩) hn⟩
    refine ⟨_, endures_fixed.outlasts (fun a e he ha => ⟨ha.1, List.mem_cons_of_mem _ ha.2.1,
      ha.2.2.cons he.not_resolved fun hr => ?_⟩) fun _ _ _ _ => .inl trivial,
      ⟨hcalm rfl, List.mem_cons_self, hstart⟩, fun a ha => .of_resolved ha.1 ha.2.1 ha.2.2⟩
    have he : e.IsReport := he
    rw [show e = .beansResolved from hr] at he
    exact he

/-! ### Lists of providers -/

/-- The active beans that provide a type, in the order of registration. -/
def providers (plan : Plan) (r : Registry) (t : TypeName) : List Nat :=
  r.active.filter (plan.selects r (.type t))

/-- The beans in an order, each as often as it stands under the type. -/
def listing (plan : Plan) (r : Registry) (t : TypeName) (order : List Nat) : List Nat :=
  order.flatMap fun b => List.replicate ((plan.typeKeys r b).count t) b

theorem typed_map_pair (ts : List TypeName) (t : TypeName) (b : Nat) :
    ((ts.map (·, b)).filter (·.1 == t)).map (·.2) = List.replicate (ts.count t) b := by
  rw [List.filter_map, List.map_map, List.count, List.countP_eq_length_filter]
  exact List.map_const' ..

theorem flatMap_replicate {f : Nat → Nat} {p : Nat → Bool} : ∀ {bs : List Nat},
    (∀ b ∈ bs, f b = if p b then 1 else 0) →
      bs.flatMap (fun b => List.replicate (f b) b) = bs.filter p
  | [], _ => rfl
  | b :: bs, h => by
    obtain ⟨hb, hbs⟩ := List.forall_mem_cons.mp h
    rw [List.flatMap_cons, flatMap_replicate hbs, hb, List.filter_cons]
    cases p b <;> rfl

theorem Filed.typed (h : plan.Filed r order) (t : TypeName) :
    r.typed t = plan.listing r t order := by
  unfold Registry.typed listing
  rw [h.byType, List.filter_flatMap, List.map_flatMap]
  refine List.flatMap_congr fun b hb => ?_
  unfold entries typeKeys
  rw [if_pos ((h.settled b).mp hb)]
  cases plan.beans[b]? with
  | none => rfl
  | some bean =>
    exact (typed_map_pair _ t b).trans (by rw [(insertRepeated_perm bean.type _).count_eq]; rfl)

theorem Filed.perm_active (h : plan.Filed r order) (hd : r.Decided) : order.Perm r.active := by
  refine (List.perm_ext_iff_of_nodup h.nodup Registry.nodup_active).mpr fun b => ?_
  rw [h.settled, Registry.mem_active]
  exact ⟨Status.ne_deleted_of_isSettled, (hd b).resolve_right⟩

theorem Filed.mem_listing (h : plan.Filed r order) (hi : plan.Indexed r) (hd : r.Decided)
    (t : TypeName) (b : Nat) : b ∈ plan.listing r t order ↔ b ∈ plan.providers r t := by
  unfold providers
  rw [← h.typed, List.mem_filter, Registry.mem_active]
  exact mem_lookup hi hd (.type t)

/-- Unless a bean exports its own type, each provider is listed once. -/
theorem Filed.listing_eq_filter (h : plan.Filed r order) (hi : plan.Indexed r) {t : TypeName}
    (hn : ¬ plan.SelfExports r t) :
    plan.listing r t order = order.filter (plan.selects r (.type t)) := by
  refine flatMap_replicate fun b hb => ?_
  have hs : (r.status b).isSettled := (h.settled b).mp hb
  by_cases hselects : plan.selects r (.type t) b
  · have hpos : 0 < (plan.typeKeys r b).count t :=
      List.count_pos_iff.mpr ((mem_typeKeys t).mpr ⟨hs, hselects⟩)
    obtain ⟨bean, hbean, -⟩ := (Option.any_eq_true ..).mp hselects
    have hle : (plan.typeKeys r b).count t ≤ 1 := (count_typeKeys hi hbean hs t).mpr fun ht hin =>
      hn ⟨b, bean, hbean, Status.ne_deleted_of_isSettled hs, ht, hin⟩
    rw [if_pos hselects]
    omega
  · rw [if_neg hselects, List.count_eq_zero, mem_typeKeys]
    exact fun hin => hselects hin.2

/-- The indices list the providers in the order of registration if they were resolved in
this order and none of them stands there twice, and only then. -/
theorem Filed.listing_eq_iff (h : plan.Filed r order) (hi : plan.Indexed r) (hd : r.Decided)
    (t : TypeName) :
    plan.listing r t order = plan.providers r t ↔
      ¬ plan.SelfExports r t ∧
        (plan.providers r t).Pairwise fun b c => [b, c].Sublist order := by
  constructor
  · intro heq
    have hn : ¬ plan.SelfExports r t := by
      rw [← nodup_typed hi hd, h.typed, heq]
      exact Registry.nodup_active.filter _
    refine ⟨hn, List.pairwise_iff_forall_sublist.mpr fun {b c} hbc => ?_⟩
    rw [← heq, h.listing_eq_filter hi hn] at hbc
    exact hbc.trans List.filter_sublist
  · rintro ⟨hn, hordered⟩
    rw [h.listing_eq_filter hi hn]
    have hperm : (order.filter (plan.selects r (.type t))).Perm (plan.providers r t) :=
      (h.perm_active hd).filter _
    have hfiltered : (order.filter (plan.selects r (.type t))).Pairwise
        fun b c => [b, c].Sublist order :=
      List.pairwise_iff_forall_sublist.mpr fun hbc => hbc.trans List.filter_sublist
    refine List.Perm.eq_of_pairwise (fun b c _ _ hbc hcb => ?_) hfiltered hordered hperm
    have hbb : [b, b].Sublist order := sublist_pair_trans h.nodup hbc hcb
    exact absurd (h.nodup.sublist hbb) (by simp)

/-! ### Receiving all -/

theorem allInstances_cons (t : TypeName) (bs : List Nat) :
    plan.allInstances r t (b :: bs) = (do
      let i ← plan.instanceOf r t b
      let is ← plan.allInstances r t bs
      pure (i :: is)) :=
  List.mapM_cons

theorem allInstances_eq_ok {t : TypeName} : ∀ {bs : List Nat} {is : List Instance},
    List.Forall₂ (fun b i => plan.instanceOf r t b = .ok i) bs is →
      plan.allInstances r t bs = .ok is
  | [], [], .nil => rfl
  | b :: bs, i :: is, .cons hb hbs => by
    rw [allInstances_cons, hb, allInstances_eq_ok hbs]
    rfl

theorem exists_allInstances {t : TypeName} : ∀ {bs : List Nat},
    (∀ b ∈ bs, ∃ i, plan.instanceOf r t b = .ok i) → ∃ is, plan.allInstances r t bs = .ok is
  | [], _ => ⟨[], rfl⟩
  | b :: bs, h => by
    obtain ⟨⟨i, hi⟩, hbs⟩ := List.forall_mem_cons.mp h
    obtain ⟨is, his⟩ := exists_allInstances hbs
    refine ⟨i :: is, ?_⟩
    rw [allInstances_cons, hi, his]
    rfl

/-- The bean has been received, as one of the type, with the instance. -/
def Received (plan : Plan) (asker : Asker) (t : TypeName) (ms : List Moment) (b : Nat)
    (i : Instance) : Prop :=
  ∃ m ∈ ms, m.event = .received asker b ∧ plan.instanceOf m.registry t b = .ok i

section
variable {n : Nat} {asker : Asker} {t : TypeName}

/-- A receipt keeps of the history what its notes keep. -/
theorem receive_keeps_history {P : List Moment → Prop}
    (h : ∀ m ms, m.event.FollowsResolution → P ms → P (m :: ms)) (b : Nat) :
    Keeps (fun a => a.registry.Calm ∧ P a.progress.history)
      (plan.receive (plan.wire n) asker t b) :=
  have hendures : plan.Endures (fun a => a.registry.Calm ∧ P a.progress.history) fun _ => True :=
    endures_history h
  ((hendures.gathers (fun b hb => (hendures.wire_keeps n b hb).agrees) asker).receive t b trivial).keeps

/-- Of beans that are received in turn, each is received. -/
theorem receiveEach_received : ∀ (bs : List Nat) (a : Assembly), a.registry.Calm →
    After (bs.mapM (plan.receive (plan.wire n) asker t)) a fun x a' => ∀ is, x = .ok is →
      List.Forall₂ (plan.Received asker t a'.progress.history) bs is
  | [], _, _ => by
    rintro _ ⟨⟩
    exact .nil
  | b :: bs, a, ha => by
    have hcalm : Keeps (fun a => a.registry.Calm ∧ True) (plan.receive (plan.wire n) asker t b) :=
      receive_keeps_history (P := fun _ => True) (fun _ _ _ _ => trivial) b
    rw [List.mapM_cons, after_bind]
    refine ((receive_received (plan.wire n) asker t b a).and (hcalm.after ⟨ha, trivial⟩)).mono
      fun x u ⟨hx, hu, _⟩ => ?_
    cases x with
    | error cause => exact nofun
    | ok i =>
      obtain ⟨rest, hhistory, hi⟩ := hx i rfl
      obtain ⟨m, hm, he, hi⟩ : plan.Received asker t u.progress.history b i :=
        ⟨_, hhistory ▸ List.mem_cons_self, rfl, hi⟩
      have hstays : Keeps (fun a => a.registry.Calm ∧ m ∈ a.progress.history)
          (bs.mapM (plan.receive (plan.wire n) asker t)) := (Agrees.mapM fun c _ =>
        (receive_keeps_history (P := fun ms => m ∈ ms)
          (fun _ _ _ hm => List.mem_cons_of_mem _ hm) c).agrees).keeps
      rw [continues_ok, after_bind]
      refine ((receiveEach_received bs u hu).and (hstays.after ⟨hu, hm⟩)).mono
        fun y v ⟨hy, hv⟩ => ?_
      cases y with
      | error cause => exact nofun
      | ok is =>
        rw [continues_ok, after_pure]
        rintro _ ⟨⟩
        exact .cons ⟨m, hv.2, he, hi⟩ (hy is rfl)

/-- An argument that asks for all beans of a type receives those that a scan finds. -/
theorem receiveAll_received {a a' : Assembly} {is : List Instance} (ha : a.registry.Calm)
    (h : outcome (plan.receiveAll (plan.wire n) asker t) a = (.ok is, a')) :
    List.Forall₂ (plan.Received asker t a'.progress.history)
      (plan.present a.registry (.type t)) is := by
  have hafter : After (plan.receiveAll (plan.wire n) asker t) a fun x a' => ∀ is, x = .ok is →
      List.Forall₂ (plan.Received asker t a'.progress.history)
        (plan.present a.registry (.type t)) is := by
    unfold receiveAll orDenied
    rw [after_noting, after_bind, after_ofResolving]
    refine (find_of_calm ha (.type t)).mono fun x q hfind => ?_
    obtain ⟨hq, hx⟩ := hfind
    rw [hx, Except.mapError, continues_ok]
    have hcalm : ({ a with progress := q } : Assembly).registry.Calm := by
      rw [Assembly.registry, hq.registry]
      exact ha
    refine (receiveEach_received _ _ hcalm).mono fun x u hu => ?_
    cases x with
    | error cause => exact fun _ he => by cases he
    | ok is => exact hu
  exact hafter.of_outcome h is rfl

end
end Plan

/-! ### Containers -/

/-- The registry of a moment since all beans were resolved. -/
def Progress.SinceResolved (p : Progress) (r : Registry) : Prop :=
  ∃ later earlier r₀, p.history = later ++ ⟨.beansResolved, r₀⟩ :: earlier ∧
    (r = p.registry ∨ r = r₀ ∨ ∃ m ∈ later, r = m.registry)

theorem Steadfast.sinceResolved {plan : Plan} {p : Progress} {r : Registry} (h : Steadfast plan p)
    (hr : p.SinceResolved r) : r.Calm ∧ r.Steady p.registry := by
  obtain ⟨later, earlier, r₀, hhistory, hr⟩ := hr
  have hin : (⟨.beansResolved, r₀⟩ : Moment) ∈ p.history := by simp [hhistory]
  have hsteady : r₀.Steady r := h.steady hhistory rfl hr
  exact ⟨hsteady.calm (h.resolved _ hin rfl).calm, hsteady.symm.trans (h.current _ hin rfl)⟩

namespace Container

variable {c : Container}

theorem lasts_dated : Lasts Plan.Dated where
  congr _ _ hb _ _ _ h := h.congr hb
  note he h := h.note he.isReport
  start h := .of_frozen h
  refresh h configurations := Plan.refresh_dated h configurations
  find sel h := (Plan.find_keeps_dated sel).after h

theorem Settled.filed (h : Settled c) (hd : c.plan.Dated c.progress) :
    c.plan.Filed c.registry (resolutionOrder c.events) := by
  by_cases hin : .beansResolved ∈ c.events
  · obtain ⟨m, hm, he⟩ := List.mem_map.mp hin
    have hsteady : m.registry.Steady c.registry := h.steadfast.current m hm he
    exact (hd.fixed m hm he).of_same hsteady.isSettled hsteady.exports hsteady.byType
  · exact hd.before hin

/-- What a scan finds at any moment since the beans were resolved. -/
theorem Settled.present_eq_providers (h : Settled c) {r : Registry} (hr : r.Steady c.registry)
    {plan : Plan} (hbeans : plan.beans = c.beans) (t : TypeName) :
    plan.present r (.type t) = c.plan.providers c.registry t := by
  rw [Plan.present_congr c.plan hbeans, ← hr.present]
  exact Plan.present_of_decided h.steadfast.indexed.toSound h.decided (.type t)

/-- What has been received is what the bean holds in the end. -/
theorem instanceOf_of_received (h : Traced c.progress) {plan : Plan} (hbeans : plan.beans = c.beans)
    {asker : Asker} {t : TypeName} {ms : List Moment} (hms : ms <:+ c.progress.history) {b : Nat}
    {i : Instance} (hi : plan.Received asker t ms b i) :
    c.plan.instanceOf c.registry t b = .ok i := by
  obtain ⟨m, hm, -, hi⟩ := hi
  have hin : m ∈ c.progress.history := hms.subset hm
  obtain ⟨later, earlier, hhistory⟩ := List.append_of_mem hin
  rw [Plan.instanceOf_congr (show plan.beans = c.plan.beans from hbeans)] at hi
  exact Plan.instanceOf_of_becomes (h.becomes hhistory (.inl rfl)) (h.fits (.inr ⟨m, hin, rfl⟩)) hi

/-- In a container that has been refreshed with the standard injector, all instances of a type
are fetched in the order in which their beans were resolved, a bean as often as it stands in
the index, and the same ones are told through a window. An argument that asked for all of
them during the refresh has received those of the same beans, each once and in the order of
registration. The two orders are the same exactly if no bean of the type exports it and its
providers were resolved in the order of registration. -/
theorem collections_ordered (compositions : Compositions) (ops : List Operation) :
    let c := ((empty .standard compositions).performAll ops).2
    let order := resolutionOrder c.events
    c.phase = .refreshed →
      order.Perm c.registry.active ∧
      ∀ t,
        (∃ is, c.plan.allInstances c.registry t (c.plan.listing c.registry t order) = .ok is ∧
          c.getAll t = .ok (.ok is) ∧
          ∀ properties, c.plan.answer c.registry properties (.every t) = .list (is.map .whole)) ∧
        (∀ (plan : Plan) (n : Nat) (asker : Asker) (a a' : Assembly) (is : List Instance),
          plan.beans = c.beans → c.progress.SinceResolved a.registry →
            outcome (plan.receiveAll (plan.wire n) asker t) a = (.ok is, a') →
              a'.progress.history <:+ c.progress.history →
                c.plan.allInstances c.registry t (c.plan.providers c.registry t) = .ok is) ∧
        (∀ b, b ∈ c.plan.listing c.registry t order ↔ b ∈ c.plan.providers c.registry t) ∧
        (c.plan.listing c.registry t order = c.plan.providers c.registry t ↔
          ¬ c.plan.SelfExports c.registry t ∧
            (c.plan.providers c.registry t).Pairwise fun b d => [b, d].Sublist order) := by
  intro c order hr
  have h : Settled c := performAll_settled compositions ops hr
  have htraced : Traced c.progress := performAll_traced compositions ops
  have hlasts : Has _ c := performAll_lasts lasts_dated .standard compositions ops
  have hfiled : c.plan.Filed c.registry order := h.filed (hlasts.since (by rw [hr]; decide))
  have hindexed : c.plan.Indexed c.registry := h.steadfast.indexed
  refine ⟨hfiled.perm_active h.decided, fun t => ⟨?_, ?_, hfiled.mem_listing hindexed h.decided t,
    hfiled.listing_eq_iff hindexed h.decided t⟩⟩
  · have hlookup : c.plan.lookup c.registry (.type t) = c.plan.listing c.registry t order :=
      hfiled.typed t
    have hheld : ∀ b ∈ c.plan.listing c.registry t order,
        ∃ i, c.plan.instanceOf c.registry t b = .ok i := by
      intro b hb
      rw [← hlookup, h.mem_lookup] at hb
      obtain ⟨hw, hheld⟩ := h.wired b hb.1
      exact Plan.exists_instanceOf hindexed.toSound hw hheld (hb.offers (.inl rfl))
    obtain ⟨is, his⟩ := Plan.exists_allInstances hheld
    refine ⟨is, his, whenRefreshed_eq_ok.mpr ⟨hr, ?_⟩, fun properties => ?_⟩
    · rw [hlookup, his]
    · rw [Plan.answer, hlookup, his]
      rfl
  · intro plan n asker a a' is hbeans ha hreceived hhistory
    obtain ⟨hcalm, hsteady⟩ := h.steadfast.sinceResolved ha
    have hall := Plan.receiveAll_received hcalm hreceived
    rw [h.present_eq_providers hsteady hbeans] at hall
    exact Plan.allInstances_eq_ok
      (hall.imp fun _ _ hi => instanceOf_of_received htraced hbeans hhistory hi)

/-- Two beans of a type, the second of which is looked up by a condition before the first is
resolved, and a bean and a configuration that ask for both. -/
def overtaken : List Operation :=
  let object (type : TypeName) (site serial : Nat) (label : String) : Bean :=
    .plain type (.main site) (.object (.part serial label none))
  [.register { object (.of "app::A") 0 1 "" with
      conditions := [.beans .some (.typedName (.of "app::B") "late")] },
    .register (object (.of "app::B") 1 2 "first"),
    .register { object (.of "app::B") 2 3 "second" with name := some "late" },
    .register (.plain (.of "app::C") (.main 4) (.constructor ⟨[.every (.of "app::B")], .part, "host", none⟩)),
    .configure ⟨.main 3, none, [.every (.of "app::B")], [], [], [], "c", none⟩, .refresh]

theorem collections_ordered_of_overtaken :
    let c := ((empty .standard ⟨[]⟩).performAll overtaken).2
    c.phase = .refreshed ∧ ∃ is, c.plan.allInstances c.registry (.of "app::B") [2, 1] = .ok is ∧
      c.getAll (.of "app::B") = .ok (.ok is) := by
  have hphase : ((empty .standard ⟨[]⟩).performAll overtaken).2.phase = .refreshed := by
    decide +kernel
  have hlisting : ((empty .standard ⟨[]⟩).performAll overtaken).2.plan.listing
      ((empty .standard ⟨[]⟩).performAll overtaken).2.registry (.of "app::B")
        (resolutionOrder ((empty .standard ⟨[]⟩).performAll overtaken).2.events) = [2, 1] := by
    decide +kernel
  obtain ⟨is, his, hall, -⟩ := ((collections_ordered ⟨[]⟩ overtaken hphase).2 (.of "app::B")).1
  exact ⟨hphase, is, hlisting ▸ his, hall⟩

/-- The bean and the configuration have received the two in the order of registration, and
they are fetched the other way round. -/
theorem getAll_of_overtaken :
    let c := ((empty .standard ⟨[]⟩).performAll overtaken).2
    c.phase = .refreshed ∧ c.plan.providers c.registry (.of "app::B") = [1, 2] ∧
      (c.registry.held 3 matches some (.part _ "host" (some [.list [.count 2, .count 3]]))) ∧
      (c.events.any fun e => e matches .noted (.configured "c" [.list [.count 2, .count 3]])) ∧
      c.plan.lookup c.registry (.type (.of "app::B")) = [2, 1] ∧
      (c.getAll (.of "app::B") matches
        .ok (.ok [.part 3 "second" none, .part 2 "first" none])) := by
  decide +kernel

end Container
end Inversion
