/-
# What the conditions of a bean have found

Lookups of the conditions of several beans stand inside one another. Each is for the bean
that was begun last among those that were being resolved when it began (`asker`), since the
beans that are begun in the meantime are decided again by the end of the lookup. So the
history shows what the conditions of each bean have found (`Asked`), and that it was decided as
these answers yield (`resolveAll_evaluated`).
-/
import Inversion.Proofs.Lookup.Evaluation
import Inversion.Proofs.Lookup.Once
import Inversion.Proofs.Lookup.Telling

namespace Inversion

/-- The bean whose conditions a lookup is for: of those that were being resolved, the one that
was begun last. -/
def asker (away : List Nat) (earlier : List Moment) : Option Nat :=
  ((earlier.map Moment.event).filterMap Event.begun?).find? (· ∈ away)

theorem mem_of_asker {b : Nat} {away : List Nat} {earlier : List Moment}
    (h : asker away earlier = some b) : b ∈ away :=
  of_decide_eq_true (List.find?_some (p := (· ∈ away)) h)

/-- What the conditions of a bean have found. -/
def Asked (b : Nat) (ms : List Moment) : Findings := fun sel found =>
  ∃ later m earlier away, ms = later ++ m :: earlier ∧ m.event = .lookedUp sel away found ∧
    asker away earlier = some b

theorem asked_mono (b : Nat) {ms ms' : List Moment} (h : ms <:+ ms') : Asked b ms ≤ Asked b ms' := by
  rintro sel found ⟨later, m, earlier, away, rfl, hm, ha⟩
  obtain ⟨more, rfl⟩ := h
  exact ⟨more ++ later, m, earlier, away, (List.append_assoc ..).symm, hm, ha⟩

/-- A bean is resolved if what its conditions have found yields `true` for them, and deleted
if it yields `false`. -/
def Plan.Evaluated (plan : Plan) (m : Moment) (earlier : List Moment) : Prop :=
  ∀ b bean, plan.beans[b]? = some bean →
    (m.event = .status b .resolved →
      AllYield plan.backdrop (Asked b earlier) bean.conditions true) ∧
    (m.event = .status b .deleted →
      AllYield plan.backdrop (Asked b earlier) bean.conditions false)

theorem Event.IsAside.not_isDecision {e : Event} (h : e.IsAside) : ¬ e.IsDecision := by
  cases e <;> first | exact id | exact h.elim

namespace Plan

variable {plan : Plan} {n b : Nat} {away : List Nat} {p q : Progress} {sel : Selector}

theorem evaluated_of_not_isDecision {m : Moment} (h : ¬ m.event.IsDecision) (ms : List Moment) :
    plan.Evaluated m ms :=
  fun b bean _ => ⟨fun hm => absurd (by rw [hm]; trivial) h, fun hm => absurd (by rw [hm]; trivial) h⟩

/-! ### Who asks -/

theorem asker_congr {away' : List Nat} (h : ∀ c, c ∈ away ↔ c ∈ away') (ms : List Moment) :
    asker away ms = asker away' ms := by
  unfold asker
  congr 1
  funext c
  exact decide_eq_decide.mpr (h c)

theorem asker_note {e : Event} (he : e.begun? = none) :
    asker away (p.note e).history = asker away p.history := by
  unfold asker
  rw [show (p.note e).history.map Moment.event = e :: p.history.map Moment.event from rfl,
    List.filterMap_cons_none he]

/-- Beans that are begun in the meantime do not count among those of `away`. -/
theorem persists_asker (away : List Nat) (x : Option Nat) : plan.Persists fun p =>
    (∀ a ∈ away, p.registry.status a ≠ .fresh) ∧ asker away p.history = x := by
  have hbegun : plan.Persists fun p => ∀ a ∈ away, p.registry.status a ≠ .fresh :=
    (Persists.all fun a : { a // a ∈ away } => persists_begun a.1).congr fun p =>
      ⟨fun h a ha => h ⟨a, ha⟩, fun h a => h a.1 a.2⟩
  refine ⟨fun p e he hp => ⟨hp.1, (asker_note he.not_begun).trans hp.2⟩, fun p b hb hp => ?_,
    fun p b bean exports hbean hb he hp => ?_, fun p b hb hp => ?_⟩
  · -- the bean that begins is none of `away`, so the search passes it
    refine ⟨hbegun.begin p b hb hp.1, ?_⟩
    have haway : b ∉ away := fun hin => hp.1 b hin hb
    have hcons : asker away (p.setStatus b .resolving).history =
        (b :: (p.history.map Moment.event).filterMap Event.begun?).find? (· ∈ away) := rfl
    rw [hcons, List.find?_cons_of_neg (by simpa using haway)]
    exact hp.2
  · refine ⟨hbegun.settle p b bean exports hbean hb he hp.1, ?_⟩
    have htold : (settle b bean exports p).events.filterMap Event.begun? =
        p.events.filterMap Event.begun? := filterMap_settle (fun _ he => he.not_begun) rfl
    unfold Progress.events at htold
    unfold asker at hp ⊢
    rw [htold]
    exact hp.2
  · refine ⟨hbegun.discard p b hb hp.1, ?_⟩
    exact (asker_note (e := .deleted (plan.idOf b)) rfl).trans
      ((asker_note (p := { p with registry := _ }) (e := .status b .deleted) rfl).trans hp.2)

theorem persists_suffix (ms : List Moment) : plan.Persists fun p => ms <:+ p.history :=
  persists_history fun m _ _ h => h.trans (List.suffix_cons m _)

/-! ### What is learned -/

/-- The beans of `away` are being resolved, and the decided beans as their answers yield. -/
def Nests (plan : Plan) (away : List Nat) (n : Nat) (p : Progress) : Prop :=
  plan.During away n p ∧ Throughout plan.Evaluated p.history

/-- And the bean `b` asks. -/
def Inquires (plan : Plan) (b : Nat) (away : List Nat) (n : Nat) (p : Progress) : Prop :=
  plan.Nests away n p ∧ asker away p.history = some b

theorem Nests.note (h : plan.Nests away n p) {e : Event} (hl : ¬ e.IsLookup) (hd : ¬ e.IsDecision) :
    plan.Nests away n (p.note e) :=
  ⟨h.1.note hl, evaluated_of_not_isDecision hd _, h.2⟩

theorem findWith_evaluated
    (ih : ∀ away b, Carries (plan.Nests away n) (fun _ => True) (plan.resolve n b))
    (hp : plan.Nests away n p) :
    After (plan.findWith (plan.resolve n) sel) p fun r q => ∀ found, r = .ok found →
      Throughout plan.Evaluated q.history := by
  unfold findWith
  rw [after_bind, after_get, continues_ok, after_bind]
  refine (scan_carries (fun q _ hq => hq.note id id) (ih away) _ p hp).mono fun r q hq => ?_
  cases r with
  | error e => exact fun found hf => by cases hf
  | ok found => exact fun _ _ => ⟨evaluated_of_not_isDecision id _, hq.2⟩

section
variable (hprop : ∀ bean ∈ plan.beans, Condition.AllPropagate bean.conditions)
  (ih : ∀ away b, Carries (plan.Nests away n) (fun _ => True) (plan.resolve n b))
include hprop ih

/-- What a lookup finds is known for the bean that asks. -/
theorem findWith_learns (hp : plan.Inquires b away n p) :
    After (plan.findWith (plan.resolve n) sel) p fun r q => ∀ found, r = .ok found →
      plan.Inquires b away n q ∧ Asked b p.history ≤ Asked b q.history ∧
        Asked b q.history sel found := by
  obtain ⟨⟨hd, he⟩, ha⟩ := hp
  have hsame : ∀ c, c ∈ p.registry.resolving ↔ c ∈ away := fun c =>
    Registry.mem_resolving.trans (hd.2 c)
  have hbegun : ∀ a ∈ away, p.registry.status a ≠ .fresh := by
    intro a hin
    rw [(hd.2 a).mpr hin]
    decide
  have hkept : After (plan.findWith (plan.resolve n) sel) p _ :=
    (findWith_keeps (persists_asker away (some b)) n sel).after ⟨hbegun, ha⟩
  have hgrown : After (plan.findWith (plan.resolve n) sel) p _ :=
    (findWith_keeps (persists_suffix p.history) n sel).after (List.suffix_refl _)
  have hexact : After (plan.findWith (plan.resolve n) sel) p _ :=
    findWith_exact (resolve_faithful hprop n) hd.1
  refine ((hkept.and hgrown).and (hexact.and (findWith_evaluated ih ⟨hd, he⟩))).mono
    fun r q ⟨⟨⟨_, haq⟩, hgq⟩, ⟨_, _, hok⟩, hev⟩ found hf => ?_
  obtain ⟨hdq, ⟨earlier, hhistory⟩, -, -⟩ := hok found hf
  have hnoted : asker away q.history = asker away earlier := by
    unfold asker
    rw [hhistory]
    rfl
  refine ⟨⟨⟨⟨hdq.1, fun c => (hdq.2 c).trans (hsame c)⟩, hev found hf⟩, haq⟩, asked_mono b hgq,
    [], _, earlier, p.registry.resolving, hhistory, rfl, ?_⟩
  rw [asker_congr hsame, ← hnoted, haq]

theorem learns_seek (b : Nat) (away : List Nat) :
    Learns (plan.seek n) (plan.Inquires b away n) fun p => Asked b p.history where
  note p e he hp := ⟨⟨hp.1.note he.not_isLookup he.isRemark.not_isDecision,
    (asker_note he.isRemark.not_begun).trans hp.2⟩, asked_mono b (List.suffix_cons _ _)⟩
  find sel p hp := by
    unfold seek
    rw [after_adapt]
    refine (findWith_learns hprop ih hp).mono fun r q hq found hf => ?_
    cases r with
    | error e => cases hf
    | ok found' =>
      cases hf
      exact hq found rfl

theorem check_evaluated {bean : Bean} (hc : Condition.AllPropagate bean.conditions)
    (hp : plan.Inquires b away n p) : After (plan.check n bean) p fun r q => ∀ v, r = .ok v →
      plan.Inquires b away n q ∧ AllYield plan.backdrop (Asked b q.history) bean.conditions v := by
  unfold check
  rw [after_adapt]
  refine (allHold_yields (learns_seek hprop ih b away) bean.conditions hc p hp).mono
    fun r q hq v hv => ?_
  cases r with
  | error e => cases hv
  | ok v' =>
    cases hv
    obtain ⟨hJ, -, hy⟩ := hq v rfl
    exact ⟨hJ, hy⟩

end

/-! ### Resolutions -/

/-- What is settled is evaluated, where it was so before. -/
theorem evaluated_settle {bean : Bean} (exports : List TypeName) (hbean : plan.beans[b]? = some bean)
    (h : Throughout plan.Evaluated p.history)
    (hy : AllYield plan.backdrop (Asked b p.history) bean.conditions true) :
    Throughout plan.Evaluated (settle b bean exports p).history := by
  obtain ⟨-, ms, hhistory, hms⟩ := index_spec b bean exports p
  have hindexed : Throughout plan.Evaluated (index b bean exports p).history := by
    rw [hhistory]
    exact h.append fun m hm => evaluated_of_not_isDecision (hms m hm).1.not_isDecision
  have hsuffix : p.history <:+ (index b bean exports p).history := ⟨ms, hhistory.symm⟩
  refine ⟨fun c bean' hbean' => ⟨fun hc => ?_, nofun⟩, hindexed⟩
  cases hc
  cases Option.some.inj (hbean.symm.trans hbean')
  exact allYield_mono (asked_mono b hsuffix) _ true hy

theorem evaluated_discard {bean : Bean} (hbean : plan.beans[b]? = some bean)
    (h : Throughout plan.Evaluated p.history)
    (hy : AllYield plan.backdrop (Asked b p.history) bean.conditions false) :
    Throughout plan.Evaluated (plan.discard b p).history := by
  refine ⟨evaluated_of_not_isDecision id _, fun c bean' hbean' => ⟨nofun, fun hc => ?_⟩, h⟩
  cases hc
  cases Option.some.inj (hbean.symm.trans hbean')
  exact hy

/-- Resolutions that succeed decide their beans as the answers yield that the conditions had. -/
theorem resolve_evaluated (hprop : ∀ bean ∈ plan.beans, Condition.AllPropagate bean.conditions) :
    ∀ n away b, Carries (plan.Nests away n) (fun _ => True) (plan.resolve n b)
  | 0, _, _ => carries_pure ()
  | n + 1, away, b => by
    intro p hp
    suffices h : After (plan.resolve (n + 1) b) p fun r q =>
        r = .ok () → Throughout plan.Evaluated q.history by
      refine ((resolve_faithful hprop (n + 1) away b p hp.1).and h).mono fun r q ⟨⟨_, _, hd⟩, he⟩ => ?_
      cases r with
      | error e => trivial
      | ok _ => exact ⟨(hd rfl).1, he rfl⟩
    by_cases hb : p.registry.status b = .fresh
    · obtain ⟨bean, hbean⟩ := hp.1.1.1.sound.exists_bean (by rw [hb]; decide)
      have hlt : b < p.registry.marks.length := Registry.lt_length_of_status_eq hb (by decide)
      have haway : b ∈ (p.setStatus b .resolving).registry.resolving :=
        Registry.mem_resolving.mpr (Registry.status_setStatus_self _ b _ hlt)
      -- the bean begins now, so from here on all lookups of its conditions are its own
      have hasks : asker (p.setStatus b .resolving).registry.resolving
          (p.setStatus b .resolving).history = some b :=
        List.find?_cons_of_pos (decide_eq_true haway)
      have hbegun : plan.Inquires b (p.setStatus b .resolving).registry.resolving n
          (p.setStatus b .resolving) :=
        ⟨⟨(hp.1.1.begin hb).during, evaluated_of_not_isDecision id _, hp.2⟩, hasks⟩
      have hcheck : After (plan.check n bean) (p.setStatus b .resolving) _ :=
        check_evaluated hprop (resolve_evaluated hprop n) (hprop bean (List.mem_of_getElem? hbean))
          hbegun
      refine resolve_of_fresh hbean hb hcheck (fun q hq v hv => ?_) (fun e q _ h => (by cases h))
        (fun e q _ _ h => (by cases h)) (fun q hq _ => ?_) fun exports q hq _ _ => ?_
      · obtain ⟨hJ, hy⟩ := hq v hv
        exact ⟨⟨hJ.1.note id id, (asker_note rfl).trans hJ.2⟩,
          allYield_mono (asked_mono b (List.suffix_cons _ _)) _ v hy⟩
      · obtain ⟨hJ, hy⟩ := hq false rfl
        exact evaluated_discard hbean hJ.1.2 hy
      · obtain ⟨hJ, hy⟩ := hq true rfl
        exact evaluated_settle exports hbean hJ.1.2 hy
    · rw [resolve_of_begun hb]
      exact fun _ => hp.2

theorem resolveAll_evaluated (hprop : ∀ bean ∈ plan.beans, Condition.AllPropagate bean.conditions)
    (h : Container.Frozen plan p) :
    After plan.resolveAll p fun r q => r = .ok () → Throughout plan.Evaluated q.history := by
  have hstart : plan.Nests [] plan.beans.length p :=
    ⟨⟨within_of_faithful h.faithful, fun b => iff_of_false (h.status_ne (by decide) (by decide) b)
      List.not_mem_nil⟩, .of_forall fun m hm =>
        evaluated_of_not_isDecision (h.aside m.event (List.mem_map_of_mem hm)).not_isDecision⟩
  have hall : Carries (plan.Nests [] plan.beans.length) (fun _ => True) plan.resolveAll :=
    Carries.forM fun b _ => resolve_evaluated hprop _ [] b
  refine (hall p hstart).mono fun r q hq => ?_
  cases r with
  | error e => exact fun h => by cases h
  | ok _ => exact fun _ => hq.2

theorem told_of_frozen (h : Container.Frozen plan p) : p.Told plan.beans.length where
  current := by
    rw [h.registry]
    exact .of_none (fun e he => (h.aside e he).not_isDecision) plan.beans
  lookups := .of_forall fun m hm _ hl =>
    absurd hl (h.aside m.event (List.mem_map_of_mem hm)).isAfterword.not_isLookup

/-- A history that accounts for what became of the beans: it tells what the conditions of each
bean have found, and each was decided as these answers yield. -/
structure Accounted (plan : Plan) (p : Progress) : Prop where
  faithful : Faithful plan p
  told : p.Told plan.beans.length
  evaluated : Throughout plan.Evaluated p.history
  ended : ∀ b < plan.beans.length, p.registry.status b = .resolved ∨ p.registry.status b = .deleted

theorem resolveAll_accounted (hprop : ∀ bean ∈ plan.beans, Condition.AllPropagate bean.conditions)
    (h : Container.Frozen plan p) (hq : outcome plan.resolveAll p = (.ok (), q)) :
    plan.Accounted q := by
  have hfaithful : After plan.resolveAll p _ :=
    resolveAll_faithful hprop h.faithful (h.status_ne (by decide) (by decide))
  have htold : After plan.resolveAll p _ :=
    (resolveAll_keeps (persists_told_lookups plan)).after (told_of_frozen h)
  exact ⟨(hfaithful.of_outcome hq).1, htold.of_outcome hq,
    (resolveAll_evaluated hprop h).of_outcome hq rfl, (resolveAll_ends h).of_outcome hq rfl hprop⟩

namespace Accounted

variable {later earlier : List Moment} {found : List Nat}

theorem status_of_unregistered (h : plan.Accounted q) (hb : ¬ b < plan.beans.length) :
    q.registry.status b = .deleted :=
  Decidable.byContradiction fun hne =>
    hb (h.faithful.sound.length ▸ Registry.lt_length_of_status hne)

theorem resolved_or_deleted (h : plan.Accounted q) (b : Nat) :
    q.registry.status b = .resolved ∨ q.registry.status b = .deleted := by
  by_cases hb : b < plan.beans.length
  · exact h.ended b hb
  · exact .inr (h.status_of_unregistered hb)

theorem settled_or_deleted (h : plan.Accounted q) : q.registry.Decided := fun b =>
  (h.resolved_or_deleted b).imp_left fun hb => by rw [hb]; rfl

/-- The answer of a lookup is exact, and what was decided before it has been told. -/
theorem exists_answer (h : plan.Accounted q) (hq : q.history = later ++ earlier)
    (hfound : Asked b earlier sel found) : ∃ since m before away, earlier = since ++ m :: before ∧
      m.event = .lookedUp sel away found ∧ asker away before = some b ∧ m.Exact plan ∧
      m.registry.Told plan.beans.length (before.map Moment.event) ∧
      ∀ e ∈ before.map Moment.event, e ∈ earlier.map Moment.event := by
  obtain ⟨since, m, before, away, rfl, hm, hasker⟩ := hfound
  have hsplit : q.history = (later ++ since) ++ m :: before := by rw [hq, List.append_assoc]
  have hlookups := h.told.lookups
  rw [hsplit] at hlookups
  refine ⟨since, m, before, away, rfl, hm, hasker, h.faithful.exact m (by rw [hsplit]; simp),
    hlookups.moment (by rw [hm]; trivial), fun e he => ?_⟩
  rw [List.map_append, List.map_cons]
  exact List.mem_append_right _ (List.mem_cons_of_mem _ he)

/-- What a lookup has found matches, and has been resolved before. -/
theorem found_resolved (h : plan.Accounted q) (hq : q.history = later ++ earlier)
    (hfound : Asked b earlier sel found) {c : Nat} (hc : c ∈ found) :
    .status c .resolved ∈ earlier.map Moment.event ∧ plan.answersTo sel c := by
  obtain ⟨since, m, before, away, -, hm, -, hexact, htold, hbefore⟩ := h.exists_answer hq hfound
  obtain ⟨hfilter, hsettled⟩ := hexact sel away found hm
  have hresolved := hbefore _ ((htold.settled c).mpr (hsettled c hc))
  rw [hfilter, List.mem_filter, decide_eq_true_eq] at hc
  exact ⟨hresolved, hc.2.2.2⟩

theorem exists_bean (h : plan.Accounted q) (hq : q.history = later ++ earlier)
    (hb : .status b .resolved ∈ earlier.map Moment.event) : ∃ bean, plan.beans[b]? = some bean := by
  have hin : .status b .resolved ∈ q.events := by
    rw [Progress.events, hq, List.map_append]
    exact List.mem_append_right _ hb
  exact h.faithful.sound.exists_bean
    (Status.ne_deleted_of_isSettled ((h.told.current.settled b).mp hin))

end Accounted

end Plan
end Inversion
