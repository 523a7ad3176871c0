/-
# What the indices stand for

A registry says of each bean how far it has come and what it exports, and its three
indices say the same again, the way that lookups ask for it: a bean stands under its type,
its exports and its name exactly if it is settled, and under its identity exactly if it is
not deleted (`Plan.Represents`).

The indices and the marks are written one after the other, and for that long they differ. But
only the notes of the indices themselves fall between, so whoever looks, inside of
a nested resolution or after one that has failed, finds that they agree
(`Plan.Observed`). A bean whose resolution fails is never written into an index by
name or type, and it stays as it is: no lookup finds it any more.
-/
import Inversion.Proofs.Fatal
import Inversion.Proofs.Lookup.Steady

namespace Inversion

/-! ### Identities -/

/-- The identities of the beans of a container differ. -/
theorem Container.nodup_ids (injector : Injector) (compositions : Compositions)
    (ops : List Operation) :
    (((empty injector compositions).performAll ops).2.beans.map Bean.id).Nodup := by
  refine performAll_keeps (P := fun c => (c.beans.map Bean.id).Nodup) (fun c c' hu h => ?_) ops _
    List.nodup_nil
  cases hu with
  | nothing alike => rwa [alike.beans]
  | noted alike => rwa [alike.beans]
  | refused => exact c.nodup_freeze
  | refreshed =>
    rw [beans_complete]
    exact c.nodup_freeze
  | found => exact h
  | closed => rwa [beans_close]

namespace Plan

variable {plan plan' : Plan} {r r' : Registry} {p q : Progress} {b c : Nat} {bean : Bean}

/-- The identity tells a bean from all others. -/
theorem idOf_inj (h : plan.Sound r) (hids : (plan.beans.map Bean.id).Nodup)
    (hb : r.status b ≠ .deleted) (hc : r.status c ≠ .deleted) (he : plan.idOf b = plan.idOf c) :
    b = c := by
  obtain ⟨x, hx⟩ := h.exists_bean hb
  obtain ⟨y, hy⟩ := h.exists_bean hc
  refine place_of_id hids hx hy ?_
  rwa [idOf, idOf, hx, hy] at he

/-! ### Marks and indices -/

/-- The indices say what the marks say. -/
structure Represents (plan : Plan) (r : Registry) : Prop where
  typed : ∀ t b, b ∈ r.typed t ↔ (r.status b).isSettled ∧
    ∃ bean, plan.beans[b]? = some bean ∧ (t = bean.type ∨ t ∈ r.exports b)
  named : ∀ n b, b ∈ r.named n ↔ (r.status b).isSettled ∧
    ∃ bean, plan.beans[b]? = some bean ∧ bean.name = some n
  identified : ∀ id b, (id, b) ∈ r.byId ↔ r.status b ≠ .deleted ∧
    ∃ bean, plan.beans[b]? = some bean ∧ bean.id = id
  distinct : (r.byId.map Prod.fst).Nodup
  unexported : ∀ b, (r.status b).isSettled = false → r.exports b = []

/-- A registry whose indices have been built by resolutions. -/
structure Catalogued (plan : Plan) (r : Registry) : Prop extends plan.Indexed r where
  unexported : ∀ b, (r.status b).isSettled = false → r.exports b = []
  byId : r.byId = r.active.map fun b => (plan.idOf b, b)

theorem Catalogued.represents (h : plan.Catalogued r) (hids : (plan.beans.map Bean.id).Nodup) :
    plan.Represents r where
  typed t b := by
    rw [h.toIndexed.mem_typed, selects, Option.any_eq_true]
    simp [Selector.matchesBean, eq_comm (a := t)]
  named n b := by
    rw [h.toIndexed.mem_named, selects, Option.any_eq_true]
    simp [Selector.matchesBean]
  identified id b := by
    rw [h.byId, List.mem_map]
    constructor
    · rintro ⟨c, hc, he⟩
      obtain ⟨rfl, rfl⟩ := Prod.mk.inj he
      have hactive := Registry.mem_active.mp hc
      obtain ⟨bean, hbean⟩ := h.toSound.exists_bean hactive
      exact ⟨hactive, bean, hbean, by simp [idOf, hbean]⟩
    · rintro ⟨hactive, bean, hbean, rfl⟩
      exact ⟨b, Registry.mem_active.mpr hactive, by simp [idOf, hbean]⟩
  distinct := by
    rw [h.byId, List.map_map]
    refine List.Nodup.map_on (fun b hb c hc he => ?_) (List.nodup_range.filter _)
    exact idOf_inj h.toSound hids (Registry.mem_active.mp hb) (Registry.mem_active.mp hc) he
  unexported := h.unexported

/-- Without any bean there is nothing to say. -/
theorem represents_nothing (plan : Plan) : plan.Represents (.ofBeans []) := by
  have hdeleted : ∀ b, (Registry.ofBeans []).status b = .deleted := fun b =>
    (Registry.status_ofBeans [] b).trans (if_neg (Nat.not_lt_zero b))
  refine ⟨fun t b => ?_, fun n b => ?_, fun id b => ?_, List.nodup_nil, fun b _ => rfl⟩
  · rw [hdeleted]
    exact iff_of_false List.not_mem_nil fun h => by cases h.1
  · rw [hdeleted]
    exact iff_of_false List.not_mem_nil fun h => by cases h.1
  · rw [hdeleted]
    exact iff_of_false List.not_mem_nil fun h => h.1 rfl

/-- Beans that have been enrolled are in the index by identity, and in no other. -/
theorem Catalogued.of_new (plan : Plan) : plan.Catalogued (.ofBeans plan.beans) := by
  refine ⟨.of_new plan, fun b _ => ?_, ?_⟩
  · unfold Registry.exports Registry.ofBeans
    rw [List.getElem?_map]
    cases plan.beans[b]? <;> rfl
  · have hactive : (Registry.ofBeans plan.beans).active = List.range plan.beans.length := by
      unfold Registry.active
      rw [show (Registry.ofBeans plan.beans).marks.length = plan.beans.length from List.length_map ..]
      refine List.filter_eq_self.mpr fun b hb => ?_
      rw [Registry.status_ofBeans, if_pos (List.mem_range.mp hb)]
      rfl
    rw [hactive]
    refine List.ext_getElem? fun b => ?_
    simp only [Registry.ofBeans, List.getElem?_map, List.getElem?_zipIdx]
    by_cases hb : b < plan.beans.length
    · simp [idOf, hb]
    · simp [hb]

/-- Changes that settle and delete no bean, and index none. -/
theorem Catalogued.of_same (h : plan.Catalogued r) (hlen : r'.marks.length = r.marks.length)
    (hs : ∀ b, (r'.status b).isSettled = (r.status b).isSettled)
    (hd : ∀ b, r'.status b = .deleted ↔ r.status b = .deleted)
    (he : ∀ b, r'.exports b = r.exports b) (ht : r'.byType = r.byType) (hn : r'.byName = r.byName)
    (hi : r'.byId = r.byId) : plan.Catalogued r' where
  toIndexed := h.toIndexed.of_same hlen hs he ht hn
  unexported b hb := by
    rw [he]
    exact h.unexported b (hs b ▸ hb)
  byId := by rw [hi, h.byId, Registry.active_congr hlen hd]

theorem Catalogued.steady (h : plan.Catalogued r) (hr : r.Steady r') (hi : r'.byId = r.byId) :
    plan.Catalogued r' :=
  h.of_same hr.length hr.isSettled (hr.status_eq_iff rfl) hr.exports hr.byType hr.byName hi

/-- Of the plan only the beans and the compositions matter. -/
theorem Catalogued.congr (h : plan.Catalogued r) (hb : plan'.beans = plan.beans)
    (hc : plan'.compositions = plan.compositions) : plan'.Catalogued r where
  toIndexed := h.toIndexed.congr hb hc
  unexported := h.unexported
  byId := by
    unfold idOf
    rw [hb]
    exact h.byId

theorem Represents.congr (h : plan.Represents r) (hb : plan'.beans = plan.beans) :
    plan'.Represents r where
  typed := hb ▸ h.typed
  named := hb ▸ h.named
  identified := hb ▸ h.identified
  distinct := h.distinct
  unexported := h.unexported

/-! ### Resolutions -/

theorem Catalogued.begin (h : plan.Catalogued p.registry) (hb : p.registry.status b = .fresh) :
    plan.Catalogued (p.setStatus b .resolving).registry := by
  refine h.of_same (Registry.length_setStatus _ b _) (isSettled_begin hb) (fun c => ?_)
    (fun c => Registry.exports_setStatus _ b c _) rfl rfl rfl
  rw [Progress.registry_setStatus, Registry.status_setStatus]
  split
  · rename_i hc
    rw [hc.1, hb]
    exact iff_of_false nofun nofun
  · rfl

theorem Catalogued.settle (h : plan.Catalogued p.registry) {exports : List TypeName}
    (hbean : plan.beans[b]? = some bean) (hb : p.registry.status b = .resolving)
    (he : plan.exportsOf bean = .ok exports) :
    plan.Catalogued (Plan.settle b bean exports p).registry := by
  have hlt : b < p.registry.marks.length := Registry.lt_length_of_status_eq hb (by decide)
  have hself := status_settle_self b bean exports p hlt
  have hbyId : (Plan.settle b bean exports p).registry.byId = p.registry.byId :=
    (congrArg Registry.byId (registry_index b bean exports p) :)
  refine ⟨h.toIndexed.settle hbean hb he, fun c hc => ?_, ?_⟩
  · have hcb : c ≠ b := by
      rintro rfl
      rw [hself] at hc
      cases hc
    rw [status_settle_of_ne b c bean exports p hcb] at hc
    rw [exports_settle_of_ne b c bean exports p hcb]
    exact h.unexported c hc
  · rw [hbyId, h.byId, Registry.active_congr (length_settle b bean exports p) fun c => ?_]
    by_cases hcb : c = b
    · rw [hcb, hself, hb]
      exact iff_of_false nofun nofun
    · rw [status_settle_of_ne b c bean exports p hcb]

/-- A bean that is deleted loses its entry, and no other bean has its identity. -/
theorem Catalogued.discard (h : plan.Catalogued p.registry)
    (hids : (plan.beans.map Bean.id).Nodup) (hb : p.registry.status b = .resolving) :
    plan.Catalogued (plan.discard b p).registry := by
  have hlt : b < p.registry.marks.length := Registry.lt_length_of_status_eq hb (by decide)
  have hactive : (plan.discard b p).registry.active = p.registry.active.filter (· ≠ b) := by
    unfold Registry.active
    rw [length_discard, List.filter_filter]
    refine List.filter_congr fun c _ => ?_
    by_cases hcb : c = b
    · simp [hcb, status_discard_self b p plan hlt]
    · simp [hcb, status_discard_of_ne b c p plan hcb]
  refine ⟨h.toIndexed.of_same (length_discard b p plan) (isSettled_discard hb)
    (fun c => exports_discard b c p plan) rfl rfl, fun c hc => ?_, ?_⟩
  · rw [isSettled_discard hb] at hc
    rw [exports_discard]
    exact h.unexported c hc
  · calc (plan.discard b p).registry.byId
      _ = p.registry.byId.filter (·.1 != plan.idOf b) := rfl
      _ = (p.registry.active.filter fun c => plan.idOf c != plan.idOf b).map
            fun c => (plan.idOf c, c) := by
        rw [h.byId, List.filter_map]
        rfl
      _ = (plan.discard b p).registry.active.map fun c => (plan.idOf c, c) := by
        rw [hactive]
        refine congrArg _ (List.filter_congr fun c hc => ?_)
        have hactive := Registry.mem_active.mp hc
        rw [Bool.eq_iff_iff, bne_iff_ne, decide_eq_true_eq]
        refine not_congr ⟨fun he => ?_, fun he => congrArg plan.idOf he⟩
        exact idOf_inj h.toSound hids hactive (by rw [hb]; decide) he

/-- At every moment but those of indexing, the indices say what the marks say. -/
structure Observed (plan : Plan) (p : Progress) : Prop where
  current : plan.Catalogued p.registry
  before : ∀ m ∈ p.history, ¬m.event.IsIndexing → plan.Represents m.registry

theorem Observed.update (h : plan.Observed p) (hr : plan.Catalogued r) :
    plan.Observed { p with registry := r } :=
  ⟨hr, h.before⟩

theorem Observed.congr (h : plan.Observed p) (hb : plan'.beans = plan.beans)
    (hc : plan'.compositions = plan.compositions) : plan'.Observed p :=
  ⟨h.current.congr hb hc, fun m hm he => (h.before m hm he).congr hb⟩

section
variable (hids : (plan.beans.map Bean.id).Nodup)
include hids

theorem Observed.note (h : plan.Observed p) (e : Event) : plan.Observed (p.note e) :=
  ⟨h.current, List.forall_mem_cons.mpr ⟨fun _ => h.current.represents hids, h.before⟩⟩

theorem Observed.remarked (h : plan.Observed p) (hq : p.Remarked q) : plan.Observed q := by
  induction hq with
  | refl => exact h
  | note _ _ ih => exact ih.note hids _

theorem persists_observed : plan.Persists plan.Observed where
  note _ e _ hp := hp.note hids e
  begin _ b hb hp := (hp.update (hp.current.begin hb)).note hids (.status b .resolving)
  settle p b bean exports hbean hb he hp := by
    have hsettled : plan.Catalogued (settle b bean exports p).registry :=
      hp.current.settle hbean hb he
    obtain ⟨-, ms, hhistory, hms⟩ := index_spec b bean exports p
    refine ⟨hsettled, List.forall_mem_cons.mpr ⟨fun _ => hsettled.represents hids, ?_⟩⟩
    show ∀ m ∈ (index b bean exports p).history, _
    rw [hhistory]
    -- the entries are made one by one, and nothing but their own notes falls between them
    exact List.forall_mem_append.mpr ⟨fun m hm hno => absurd (hms m hm).1 hno, hp.before⟩
  discard p b hb hp := ((hp.update (hp.current.discard hids hb)).note hids (.status b .deleted)).note
    hids (.deleted (plan.idOf b))

/-! ### Wirings -/

/-- Wirings of settled beans with any injector. -/
theorem endures_observed (hr : plan.Resolved r) :
    plan.Endures (fun a => plan.Observed a.progress ∧ r.Steady a.registry)
      fun b => (r.status b).isSettled where
  progress a a' h ha := by rwa [Assembly.registry, h]
  note a e _ ha := ⟨ha.1.note hids e, ha.2⟩
  handed a b _ ha := ⟨ha.1.note hids (.handed b), ha.2⟩
  received a asker b _ ha := ⟨ha.1.note hids (.received asker b), ha.2⟩
  count a n ha := ⟨⟨ha.1.current, ha.1.before⟩, ha.2⟩
  begin a b hb ha := by
    have hs : a.registry.Steady (a.registry.setStatus b .creating) :=
      .setStatus (by rwa [ha.2.isSettled]) rfl
    exact ⟨(ha.1.update (ha.1.current.steady hs rfl)).note hids (.status b .creating),
      ha.2.trans hs⟩
  hold a b i hb ha := by
    have hheld : a.registry.Steady (a.registry.setHeld b i) := .setHeld _ b i
    have hs : a.registry.Steady ((a.registry.setHeld b i).setStatus b .wired) :=
      hheld.trans (.setStatus (by rwa [hheld.isSettled, ha.2.isSettled]) rfl)
    exact ⟨(ha.1.update (ha.1.current.steady hs rfl)).note hids (.status b .wired),
      ha.2.trans hs⟩
  find sel _ ha := gathered_of_steady hr ha.2 (fun _ hq => ha.1.remarked hids hq) sel
  reach _ _ hb ha := by rwa [← ha.2.isSettled]

/-! ### Refreshes -/

/-- A refresh from the start, and how its registry is left if it succeeds. -/
theorem refresh_observed (hprop : ∀ bean ∈ plan.beans, Condition.AllPropagate bean.conditions)
    (hp : Container.Frozen plan p) (configurations : List Configuration) :
    After (plan.refresh configurations) (.start p) fun x t => plan.Observed t.progress ∧
      ∀ ds, x = .ok ds → t.registry.Decided := by
  have hstart : plan.Observed p :=
    ⟨hp.registry ▸ .of_new plan, fun m hm _ => hp.blank m hm ▸ represents_nothing plan⟩
  have hresolved : After plan.resolveAll p fun x q => plan.Observed q ∧
      (x = .ok () → plan.Resolved q.registry) :=
    (((resolveAll_keeps (persists_observed hids)).after hstart).and (resolveAll_resolved hp)).mono
      fun x q ⟨hq, hok⟩ => ⟨hq, hok.2⟩
  have hrefresh : After (plan.refresh configurations) (.start p) fun _ t =>
      plan.Observed t.progress ∧
        ((outcome plan.resolveAll p).1 = .ok () → t.registry.Decided) := by
    have hsame : After plan.resolveAll p fun x _ => x = (outcome plan.resolveAll p).1 := rfl
    refine refresh_keeps configurations ((hresolved.and hsame).mono fun x q ⟨⟨hq, hok⟩, hx⟩ => ?_)
    cases x with
    | error cause => exact ⟨hq, fun h => absurd (hx.trans h) nofun⟩
    | ok _ =>
      have hr := hok rfl
      have hd := hr.decided hprop
      refine ⟨_, (endures_observed hids hr).outlasts (fun a e _ ha => ⟨ha.1.note hids e, ha.2⟩)
        fun a ha b hb => .inl ?_, ⟨hq.note hids .beansResolved, .refl _⟩,
        fun a ha => ⟨ha.1, fun _ => ha.2.decided hd⟩⟩
      exact (hd b).resolve_right fun hdel =>
        Registry.mem_active.mp hb ((ha.2.status_eq_iff rfl b).mpr hdel)
  refine (hrefresh.and (show After (plan.refresh configurations) (.start p) fun x _ =>
    x = (outcome (plan.refresh configurations) (.start p)).1 from rfl)).mono
      fun x t ⟨ht, hx⟩ => ⟨ht.1, fun ds hds => ht.2 ?_⟩
  cases h : (outcome plan.resolveAll p).1 with
  | ok _ => rfl
  | error cause =>
    rw [hx, refresh_of_resolveAll h] at hds
    cases hds

end

/-! ### Beans whose resolution has failed -/

/-- A scan passes over a bean that is being resolved. -/
theorem scan_passes (n : Nat) (sel : Selector) : ∀ (bs : List Nat) (p : Progress),
    p.registry.status b = .resolving → After (plan.scan (plan.resolve n) sel bs) p fun x q =>
      q.registry.status b = .resolving ∧ ∀ found, x = .ok found → b ∉ found
  | [], p, hp => by
    refine ⟨hp, fun found hfound => ?_⟩
    cases hfound
    exact List.not_mem_nil
  | c :: bs, p, hp => by
    rw [scan, after_bind, after_get, continues_ok]
    split
    · rw [after_bind, after_modify, continues_ok]
      exact scan_passes n sel bs (p.note _) hp
    · rename_i hc
      have hbc : b ≠ c := by
        rintro rfl
        exact hc hp
      rw [after_bind]
      have hkept : Keeps (fun q : Progress => q.registry.status b = .resolving) (plan.resolve n c) :=
        resolve_keeps_status (by decide) (by decide) n c
      refine (hkept.after hp).mono fun x q hq => ?_
      cases x with
      | error cause => exact ⟨hq, fun found hfound => by cases hfound⟩
      | ok _ =>
        rw [continues_ok, after_bind, after_get, continues_ok, after_bind]
        refine (scan_passes n sel bs q hq).mono fun x t hscan => ?_
        obtain ⟨ht, hrest⟩ := hscan
        cases x with
        | error cause => exact ⟨ht, fun found hfound => by cases hfound⟩
        | ok rest =>
          rw [continues_ok, after_pure]
          refine ⟨ht, fun found hfound => ?_⟩
          cases hfound
          split
          · exact fun hin => (List.mem_cons.mp hin).elim hbc (hrest rest rfl)
          · exact hrest rest rfl

/-- No lookup, at any depth of resolutions, finds a bean that is being resolved. -/
theorem findWith_passes (n : Nat) (sel : Selector) (hp : p.registry.status b = .resolving) :
    After (plan.findWith (plan.resolve n) sel) p fun x q =>
      q.registry.status b = .resolving ∧ ∀ found, x = .ok found → b ∉ found := by
  unfold findWith
  rw [after_bind, after_get, continues_ok, after_bind]
  refine (scan_passes n sel _ p hp).mono fun x q ⟨hq, hfound⟩ => ?_
  cases x with
  | error cause => exact ⟨hq, nofun⟩
  | ok found =>
    rw [continues_ok, after_bind, after_modify, continues_ok]
    exact ⟨hq, hfound⟩

end Plan

/-! ### Containers -/

namespace Container

theorem lasts_observed : Lasts fun plan p =>
    (∀ bean ∈ plan.beans, Condition.AllPropagate bean.conditions) →
      (plan.beans.map Bean.id).Nodup → plan.Observed p where
  congr _ _ hb hc _ _ h hprop hids := (h (hb ▸ hprop) (hb ▸ hids)).congr hb hc
  note _ h hprop hids := (h hprop hids).note hids _
  start h _ _ :=
    ⟨h.registry ▸ .of_new _, fun m hm _ => h.blank m hm ▸ Plan.represents_nothing _⟩
  refresh h configurations hprop hids :=
    (Plan.refresh_observed hids hprop h configurations).mono fun _ _ ht => ht.1
  find sel h hprop hids := (Plan.find_keeps (Plan.persists_observed hids) sel).after (h hprop hids)

theorem performAll_represents (injector : Injector) (compositions : Compositions)
    (ops : List Operation) {r : Registry} :
    let c := ((empty injector compositions).performAll ops).2
    (∀ bean ∈ c.beans, Condition.AllPropagate bean.conditions) →
      (r = c.registry ∨ ∃ m ∈ c.progress.history, ¬m.event.IsIndexing ∧ r = m.registry) →
        c.plan.Represents r := by
  intro c hprop hr
  have h : Has _ c := performAll_lasts lasts_observed injector compositions ops
  have hids : (c.plan.beans.map Bean.id).Nodup := nodup_ids injector compositions ops
  by_cases hn : c.phase = .unrefreshed
  · have hnothing : r = .ofBeans [] := by
      rcases hr with rfl | ⟨m, hm, -, rfl⟩
      · exact (h.blank hn).1
      · exact (h.blank hn).2 m hm
    exact hnothing ▸ Plan.represents_nothing c.plan
  · have hobserved : c.plan.Observed c.progress := h.since hn hprop hids
    rcases hr with rfl | ⟨m, hm, hno, rfl⟩
    · exact hobserved.current.represents hids
    · exact hobserved.before m hm hno

/-- A refresh that succeeds leaves every bean settled or deleted. -/
theorem performAll_decided (injector : Injector) (compositions : Compositions)
    (ops : List Operation) :
    let c := ((empty injector compositions).performAll ops).2
    (∀ bean ∈ c.beans, Condition.AllPropagate bean.conditions) → c.phase = .refreshed →
      c.registry.Decided := by
  intro c hprop hr
  have hids : (c.beans.map Bean.id).Nodup := nodup_ids injector compositions ops
  suffices h : Has (fun _ _ => True) c ∧ (c.phase = .refreshed →
      (∀ bean ∈ c.beans, Condition.AllPropagate bean.conditions) → (c.beans.map Bean.id).Nodup →
        c.registry.Decided) from h.2 hr hprop hids
  refine performAll_keeps (P := fun c => Has (fun _ _ => True) c ∧ (c.phase = .refreshed →
    (∀ bean ∈ c.beans, Condition.AllPropagate bean.conditions) → (c.beans.map Bean.id).Nodup →
      c.registry.Decided)) (fun c c' hu ⟨hc, hd⟩ => ⟨hc.undergoes lasts_trivial hu, ?_⟩) ops _
    ⟨performAll_lasts lasts_trivial injector compositions [], nofun⟩
  cases hu with
  | nothing alike progress =>
    rw [alike.phase, alike.beans, registry, progress]
    exact hd
  | noted alike e aside progress =>
    rw [alike.phase, alike.beans, registry, progress]
    exact hd
  | refused new =>
    rw [freeze_spec]
    intro hphase
    cases hphase
  | refreshed new =>
    intro hphase hprop hids
    rcases complete_spec c.freeze.2 with ⟨ds, hok, hdone⟩ | ⟨e, p, -, -, hdone⟩
    · rw [hdone] at hprop hids ⊢
      exact (Plan.refresh_observed hids hprop (hc.frozen new) _).2 ds hok
    · rw [hdone, freeze_spec] at hphase
      cases hphase
  | found refreshing =>
    intro hphase
    cases refreshing.symm.trans hphase
  | closed refreshed =>
    rw [beans_close, registry_close]
    exact fun _ => hd refreshed

/-- With any injector, if no condition goes on after a failed lookup: in every registry that a
condition, a constructor, a hook or a caller can look at, in the middle of resolutions and
after a refresh however it ended, the indices say what the marks say. A bean is left being
resolved if its resolution fails, at any depth and in no other case, and from then on no lookup
finds it. So whatever operations follow, it has no exports, stands in no index by type
or name, and neither has been found nor is found. -/
theorem indices_represent (injector : Injector) (compositions : Compositions)
    (ops : List Operation) :
    let c := ((empty injector compositions).performAll ops).2
    (∀ bean ∈ c.beans, Condition.AllPropagate bean.conditions) →
      (∀ r, (r = c.registry ∨ ∃ m ∈ c.progress.history, ¬m.event.IsIndexing ∧ r = m.registry) →
        c.plan.Represents r) ∧
      (∀ (p : Progress) (n b : Nat), b < c.beans.length → p.registry.status b = .fresh →
        After (c.plan.resolve (n + 1) b) p fun x q =>
          q.registry.status b = .resolving ↔ ∃ e, x = .error e) ∧
      (∀ (p : Progress) (n b : Nat) (sel : Selector), p.registry.status b = .resolving →
        After (c.plan.findWith (c.plan.resolve n) sel) p fun x q =>
          q.registry.status b = .resolving ∧ ∀ found, x = .ok found → b ∉ found) ∧
      ∀ b, c.registry.status b = .resolving → ∀ more : List Operation,
        let d := (c.performAll more).2
        d.registry.status b = .resolving ∧ d.registry.exports b = [] ∧
        (∀ t, b ∉ d.registry.typed t) ∧ (∀ n, b ∉ d.registry.named n) ∧
        (∀ m ∈ d.progress.history, ∀ sel away found, m.event = .lookedUp sel away found →
          b ∉ found) ∧
        ∀ sel found, (d.find sel).1 = .ok (.ok found) → b ∉ found := by
  intro c hprop
  refine ⟨fun r hr => performAll_represents injector compositions ops hprop hr, fun p n b hlt hfresh =>
    Plan.resolve_leaves_resolving (List.getElem?_eq_getElem (show b < c.plan.beans.length from hlt))
      hfresh n, fun p n b sel hp => Plan.findWith_passes n sel hp, fun b hb more => ?_⟩
  intro d
  have hn : c.phase ≠ .unrefreshed := by
    intro hn
    have hblank := ((performAll_lasts lasts_trivial injector compositions ops).blank hn).1
    have hdeleted := Registry.status_ofBeans [] b
    rw [← hblank] at hdeleted
    cases hb.symm.trans hdeleted
  have hsplit : d = ((empty injector compositions).performAll (ops ++ more)).2 :=
    (performAll_append ops more _).symm
  obtain ⟨hphase, hbeans, hstuck⟩ := performAll_keeps_registry
    (R := fun _ r => r.status b = .resolving)
    (fun plan sel => Keeps.of_after fun p hp =>
      (Plan.findWith_passes plan.beans.length sel hp).mono fun _ _ hq => hq.1) hn hb more
  have hunsettled : ¬(d.registry.status b).isSettled := by
    rw [hstuck]
    exact nofun
  have hpropd : ∀ bean ∈ d.beans, Condition.AllPropagate bean.conditions := hbeans ▸ hprop
  have hd : d.plan.Represents d.registry := by
    rw [hsplit] at hpropd ⊢
    exact performAll_represents injector compositions (ops ++ more) hpropd (.inl rfl)
  have hfaithful : Faithful d.plan d.progress := by
    have h : Answers d := hsplit ▸ performAll_answers injector compositions (ops ++ more)
    exact h.faithful hphase hpropd
  refine ⟨hstuck, hd.unexported b (Bool.eq_false_iff.mpr hunsettled),
    fun t hin => hunsettled ((hd.typed t b).mp hin).1,
    fun n hin => hunsettled ((hd.named n b).mp hin).1, fun m hm sel away found he hin => ?_,
    fun sel found hfound hin => ?_⟩
  · obtain ⟨later, earlier, hhistory⟩ := List.append_of_mem hm
    exact hunsettled (hfaithful.stays hhistory he hin (.inl rfl)).1
  · cases hp : d.phase with
    | unrefreshed => exact hphase hp
    | refreshing =>
      unfold find at hfound
      rw [hp] at hfound
      have hpasses : After (d.plan.find sel) d.progress _ :=
        Plan.findWith_passes d.plan.beans.length sel hstuck
      exact hpasses.2 found (Except.ok.inj hfound) hin
    | refreshed =>
      have hdecided : d.registry.Decided := by
        rw [hsplit] at hpropd hp ⊢
        exact performAll_decided injector compositions (ops ++ more) hpropd hp
      exact (hdecided b).elim hunsettled fun hdeleted => by cases hstuck.symm.trans hdeleted

/-- A handler for the case that there is a pool, a pool that does not implement the store that it
is declared to export, and a clock. -/
def unexportable : List Bean :=
  [{ Bean.plain (.of "app::Handler") (.main 1) (.constructor ⟨[], .part, "handler", none⟩) with
      conditions := [.beans .some (.type (.of "app::Pool"))] },
    { Bean.plain (.of "app::Pool") (.main 2) (.constructor ⟨[], .part, "pool", none⟩) with
      exports := [.of "app::Store"] },
    Bean.plain (.of "app::Clock") (.main 3) (.constructor ⟨[], .part, "clock", none⟩)]

/-- The refresh panics inside the lookup of the handler. The clock is resolved by a lookup from
outside, and the pool is not found. -/
theorem indices_represent_of_unexportable :
    let c := ((empty .standard ⟨[]⟩).performAll (unexportable.map .register ++ [.refresh])).2
    let d := (c.performAll [.find (.type (.of "app::Clock"))]).2
    c.plan.Represents c.registry ∧ c.registry.status 1 = .resolving ∧
      (∀ t, 1 ∉ d.registry.typed t) ∧ d.registry.typed (.of "app::Clock") = [2] ∧
      ∃ found, (d.find (.type (.of "app::Store"))).1 = .ok (.ok found) ∧ 1 ∉ found := by
  have hplain : ((empty .standard ⟨[]⟩).performAll
      (unexportable.map .register ++ [.refresh])).2.beans.all
        fun bean => Condition.arePlain bean.conditions := by decide +kernel
  have hstuck : ((empty .standard ⟨[]⟩).performAll
      (unexportable.map .register ++ [.refresh])).2.registry.status 1 = .resolving := by
    decide +kernel
  obtain ⟨hrepresents, -, -, hlater⟩ := indices_represent .standard ⟨[]⟩
    (unexportable.map .register ++ [.refresh])
    fun bean hbean => Condition.allPropagate_of_arePlain _ (List.all_eq_true.mp hplain bean hbean)
  obtain ⟨-, -, htyped, -, -, hfound⟩ := hlater 1 hstuck [.find (.type (.of "app::Clock"))]
  exact ⟨hrepresents _ (.inl rfl), hstuck, htyped, by decide +kernel, [], by decide +kernel,
    hfound (.type (.of "app::Store")) [] (by decide +kernel)⟩

end Container
end Inversion
