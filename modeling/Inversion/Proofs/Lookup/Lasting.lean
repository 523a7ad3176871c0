/-
# Instances last

Since the marks of a bean form a trail, a bean that holds an instance is wired and keeps
it, at every later moment and in every later state of the container
(`Registry.Becomes`). And since lookups find the same beans from the end of the resolution
on, before which no bean is wired, whoever has seen an instance can be sure of it: with the
standard injector every later lookup of either kind that gives one instance gives that one
(`Plan.Lasting`). An argument, which is served by a scan, sees what the indices hold, and
the other way round.
-/
import Inversion.Proofs.Lookup.Single
import Inversion.Proofs.Wiring.Marks

namespace Inversion

open Relation

/-! ### From one registry to a later one -/

namespace Registry

/-- Every mark becomes that of the later registry. -/
def Becomes (r r' : Registry) : Prop :=
  ∀ (b : Nat) (m : Mark), r.marks[b]? = some m →
    ∃ m' : Mark, r'.marks[b]? = some m' ∧ m.Becomes m'

/-- All marks are such as a bean can have. -/
def Fits (r : Registry) : Prop :=
  ∀ (b : Nat) (m : Mark), r.marks[b]? = some m → m.Fits

variable {r r' r'' : Registry} {b : Nat} {i : Instance}

theorem Becomes.refl (r : Registry) : r.Becomes r :=
  fun _ m hm => ⟨m, hm, .refl⟩

theorem Becomes.leads (h : r.Becomes r') (h' : r'.Leads r'') : r.Becomes r'' := by
  intro b m hm
  obtain ⟨m', hm', hbecomes⟩ := h b m hm
  have hlt : b < r''.marks.length := by
    rw [h'.length]
    exact (List.getElem?_eq_some_iff.mp hm').1
  obtain ⟨k, hk, hstep⟩ := h'.marks b _ (List.getElem?_eq_getElem hlt)
  cases Option.some.inj (hk.symm.trans hm')
  refine ⟨_, List.getElem?_eq_getElem hlt, ?_⟩
  rcases hstep with hstep | hstep
  · rwa [hstep]
  · exact hbecomes.tail hstep

theorem Fits.held_iff (h : r.Fits) (b : Nat) : (r.held b).isSome ↔ r.status b = .wired := by
  cases hm : r.marks[b]? with
  | none => simp [held, status, hm]
  | some m => simpa [held, status, hm] using (h b m hm).held

theorem Fits.exports_eq (h : r.Fits) (hb : (r.status b).isSettled = false) : r.exports b = [] := by
  cases hm : r.marks[b]? with
  | none => simp [exports, hm]
  | some m =>
    have hexports := (h b m hm).exports
    rw [status, hm] at hb
    rw [exports, hm]
    exact hexports hb

/-- An instance that is held is held for good. -/
theorem Becomes.held (h : r.Becomes r') (hr : r.Fits) (hi : r.held b = some i) :
    r'.held b = some i ∧ r'.status b = .wired := by
  have hw : r.status b = .wired := (hr.held_iff b).mp (by rw [hi]; rfl)
  obtain ⟨es, held, hm⟩ := exists_mark hw (by decide)
  obtain ⟨m', hm', hbecomes⟩ := h b _ hm
  have hsame : m' = ⟨.wired, es, held⟩ := hbecomes.of_wired rfl
  subst hsame
  rw [Registry.held, hm] at hi
  exact ⟨by rw [Registry.held, hm']; exact hi, by rw [status, hm']; rfl⟩

theorem Becomes.exports_eq (h : r.Becomes r') (hb : (r.status b).isSettled) :
    r'.exports b = r.exports b := by
  cases hm : r.marks[b]? with
  | none =>
    rw [status, hm] at hb
    cases hb
  | some m =>
    obtain ⟨m', hm', hbecomes⟩ := h b m hm
    rw [status, hm] at hb
    rw [exports, exports, hm, hm']
    exact (hbecomes.exports hb).2

end Registry

namespace Progress

/-- The statuses of a bean, the latest first. -/
def statuses (b : Nat) (p : Progress) : List Status :=
  (p.registry :: p.history.map Moment.registry).filterMap fun r => (r.marks[b]?).map Mark.status

end Progress

namespace Traced

variable {plan : Plan} {p : Progress} {r : Registry} {b : Nat}

theorem exists_current (h : Traced p) {m : Moment} (hm : m ∈ p.history)
    (hb : b < m.registry.marks.length) : b < p.registry.marks.length :=
  hb.trans_le ((List.pairwise_cons.mp h.grows).1 _ (List.mem_map_of_mem hm))

theorem fits (h : Traced p) (hr : r = p.registry ∨ ∃ m ∈ p.history, r = m.registry) : r.Fits := by
  intro b k hk
  rcases hr with rfl | ⟨m, hm, rfl⟩
  · exact (h.trails b k hk).fits k List.mem_cons_self
  · have hlt := h.exists_current hm (List.getElem?_eq_some_iff.mp hk).1
    have htrail := h.trails b _ (List.getElem?_eq_getElem hlt)
    exact htrail.fits k (List.mem_cons_of_mem _ (List.mem_filterMap.mpr ⟨m, hm, hk⟩))

theorem becomes (h : Traced p) {later earlier : List Moment} {m : Moment}
    (hp : p.history = later ++ m :: earlier)
    (hr : r = p.registry ∨ ∃ m' ∈ later, r = m'.registry) : m.registry.Becomes r := by
  intro b k hk
  have hlt : b < m.registry.marks.length := (List.getElem?_eq_some_iff.mp hk).1
  have hin : m ∈ p.history := by simp [hp]
  have htrail := h.trails b _ (List.getElem?_eq_getElem (h.exists_current hin hlt))
  have hbecomes := htrail.becomes
  rw [hp, List.filterMap_append, List.filterMap_cons, hk] at hbecomes
  obtain ⟨hcurrent, hnoted⟩ := List.pairwise_cons.mp hbecomes
  rcases hr with rfl | ⟨m', hm', rfl⟩
  · exact ⟨_, List.getElem?_eq_getElem _, hcurrent k (by simp)⟩
  · have hgrows := h.grows
    rw [hp, List.map_append, List.map_cons] at hgrows
    have hle := (List.pairwise_append.mp (List.pairwise_cons.mp hgrows).2).2.2 _
      (List.mem_map_of_mem hm') _ List.mem_cons_self
    have hk' := List.getElem?_eq_getElem (hlt.trans_le hle)
    refine ⟨_, hk', ?_⟩
    exact (List.pairwise_append.mp hnoted).2.2 _ (List.mem_filterMap.mpr ⟨m', hm', hk'⟩) k
      List.mem_cons_self

/-- The statuses of a bean go one of two ways, and no further back. -/
theorem journey (h : Traced p) (b : Nat) :
    Status.journey (.fresh :: (p.statuses b).reverse) <+: [.fresh, .resolving, .deleted] ∨
      Status.journey (.fresh :: (p.statuses b).reverse) <+:
        [.fresh, .resolving, .resolved, .creating, .wired] := by
  by_cases hb : p.registry.marks.length ≤ b
  · have hnone : p.statuses b = [] := by
      refine List.filterMap_eq_nil_iff.mpr (List.forall_mem_cons.mpr ⟨?_, fun r hr => ?_⟩)
      · simp [hb]
      · simp [((List.pairwise_cons.mp h.grows).1 r hr).trans hb]
    rw [hnone]
    exact .inl (by decide)
  have hm := List.getElem?_eq_getElem (Nat.lt_of_not_le hb)
  obtain ⟨hhead, hchain⟩ := (h.trails b _ hm).statuses
  have hstatuses : p.statuses b = p.registry.marks[b].status ::
      (p.history.filterMap (·.registry.marks[b]?)).map Mark.status := by
    unfold Progress.statuses
    rw [List.filterMap_cons, hm, List.filterMap_map, List.map_filterMap]
    rfl
  have hlist : Status.fresh :: (p.statuses b).reverse = (p.statuses b ++ [Status.fresh]).reverse := by
    simp
  have hwhole : (.fresh :: (p.statuses b).reverse).IsChain
      fun s s' : Status => s' = s ∨ s' ∈ s.next := by
    rw [hlist, List.isChain_reverse, hstatuses]
    refine List.isChain_cons.mpr ⟨fun s hs => .inl ?_, hchain⟩
    exact Option.some.inj (hhead.symm.trans hs)
  obtain ⟨hjourney, hfirst⟩ := Status.journey_isChain _ _ hwhole
  exact Status.prefix_of_isChain _ hfirst hjourney

end Traced

/-! ### Lookups by type -/

/-- The selector asks for a type, with a name or without. -/
def Selector.AsksFor (t : TypeName) (sel : Selector) : Prop :=
  sel = .type t ∨ ∃ n, sel = .typedName t n

namespace Plan

variable {plan plan' : Plan} {r r' : Registry} {t : TypeName} {sel : Selector} {b : Nat}
  {bs : List Nat} {i : Instance}

/-- By type, the indices and a scan list the same beans. -/
theorem mem_lookup_iff_present (h : plan.Indexed r) (hcalm : r.Calm) (hsel : sel.AsksFor t) :
    b ∈ plan.lookup r sel ↔ b ∈ plan.present r sel := by
  have hlookup : b ∈ plan.lookup r sel ↔ (r.status b).isSettled ∧ plan.selects r sel b := by
    rcases hsel with rfl | ⟨n, rfl⟩
    · exact h.mem_typed t
    · show b ∈ (r.named n).filter _ ↔ _
      rw [List.mem_filter, h.mem_named]
      exact ⟨fun hb => ⟨hb.1.1, hb.2⟩, fun hb => ⟨⟨hb.1, selects_name rfl hb.2⟩, hb.2⟩⟩
  rw [hlookup]
  unfold present candidates
  rw [List.mem_filter, List.mem_filter, Registry.mem_active, decide_eq_true_eq]
  constructor
  · rintro ⟨hs, hb⟩
    have hdeleted := Status.ne_deleted_of_isSettled hs
    have hmay : plan.mayMatch sel b := mayMatch_of_answersTo (h.answersTo hs sel ▸ hb)
    refine ⟨⟨hdeleted, hmay⟩, fun hr => ?_, hdeleted, hb⟩
    rw [hr] at hs
    cases hs
  · rintro ⟨-, hresolving, hdeleted, hb⟩
    exact ⟨(isSettled_of_decided (hcalm b) hresolving).resolve_right hdeleted, hb⟩

theorem singleInstance_eq_ok :
    plan.singleInstance r t bs = .ok i ↔ ∃ b, bs = [b] ∧ plan.instanceOf r t b = .ok i := by
  match bs with
  | [] => exact iff_of_false (fun h => by cases h) (by rintro ⟨b, h, -⟩; cases h)
  | [b] =>
    refine ⟨fun h => ⟨b, rfl, h⟩, ?_⟩
    rintro ⟨c, hc, h⟩
    cases hc
    exact h
  | _ :: _ :: _ => exact iff_of_false (fun h => by cases h) (by rintro ⟨b, h, -⟩; cases h)

theorem wired_of_instanceOf (h : plan.instanceOf r t b = .ok i) : r.status b = .wired := by
  unfold instanceOf at h
  by_cases hw : r.status b = .wired
  · exact hw
  · rw [if_pos hw] at h
    cases h

/-- An instance that a bean has once it has for good. -/
theorem instance?_of_becomes (h : r.Becomes r') (hr : r.Fits) (hi : plan.instance? r b t = some i) :
    plan.instance? r' b t = some i := by
  unfold instance? at hi ⊢
  cases hheld : r.held b with
  | none =>
    rw [hheld] at hi
    cases hi
  | some j =>
    rw [hheld] at hi
    rwa [(h.held hr hheld).1]

theorem instanceOf_of_becomes (h : r.Becomes r') (hr : r.Fits)
    (hi : plan.instanceOf r t b = .ok i) : plan.instanceOf r' t b = .ok i := by
  have hinstance := instance?_of_becomes h hr (instance?_of_instanceOf hi)
  have hheld : (r.held b).isSome := (hr.held_iff b).mpr (wired_of_instanceOf hi)
  obtain ⟨j, hj⟩ := Option.isSome_iff_exists.mp hheld
  unfold instanceOf
  rw [(h.held hr hj).2, hinstance]
  rfl

theorem allInstances_of_becomes (h : r.Becomes r') (hr : r.Fits) :
    ∀ {bs : List Nat} {is : List Instance}, plan.allInstances r t bs = .ok is →
      plan.allInstances r' t bs = .ok is
  | [], _, hi => hi
  | b :: bs, is, hi => by
    unfold allInstances at hi ⊢
    rw [List.mapM_cons] at hi ⊢
    cases hb : plan.instanceOf r t b with
    | error cause =>
      rw [hb] at hi
      cases hi
    | ok j =>
      rw [hb] at hi
      rw [instanceOf_of_becomes h hr hb]
      cases hbs : bs.mapM (plan.instanceOf r t) with
      | error cause =>
        rw [hbs] at hi
        cases hi
      | ok js =>
        rw [hbs] at hi
        rw [show bs.mapM (plan.instanceOf r' t) = .ok js from allInstances_of_becomes h hr hbs]
        exact hi

theorem exists_wired_of_allInstances {is : List Instance} (h : plan.allInstances r t bs = .ok is)
    (hne : is ≠ []) : ∃ b, r.status b = .wired := by
  unfold allInstances at h
  cases bs with
  | nil =>
    cases h
    exact absurd rfl hne
  | cons b bs =>
    rw [List.mapM_cons] at h
    cases hb : plan.instanceOf r t b with
    | error cause =>
      rw [hb] at h
      cases h
    | ok j => exact ⟨b, wired_of_instanceOf hb⟩

/-- Of the plan only the beans matter to the instances. -/
theorem instanceOf_congr (hbeans : plan'.beans = plan.beans) :
    plan'.instanceOf r t = plan.instanceOf r t := by
  funext b
  unfold instanceOf instance? idOf
  rw [hbeans]

/-- Whatever instance is seen in `r`, by the indices or by a scan, every lookup in `r'` that
gives one instance gives that one. -/
structure Lasting (plan : Plan) (r r' : Registry) : Prop where
  held : ∀ b t i, plan.instance? r b t = some i → plan.instance? r' b t = some i
  indexed : ∀ t sel i, sel.AsksFor t → plan.singleInstance r t (plan.lookup r sel) = .ok i →
    plan.singleInstance r' t (plan.lookup r' sel) = .ok i ∧
      plan.singleInstance r' t (plan.present r' sel) = .ok i
  scanned : ∀ t sel i, sel.AsksFor t → plan.singleInstance r t (plan.present r sel) = .ok i →
    plan.singleInstance r' t (plan.present r' sel) = .ok i ∧
      ∀ j, plan.singleInstance r' t (plan.lookup r' sel) = .ok j → j = i
  indexedAll : ∀ t is, is ≠ [] → plan.allInstances r t (plan.lookup r (.type t)) = .ok is →
    plan.allInstances r' t (plan.lookup r' (.type t)) = .ok is
  scannedAll : ∀ t is, is ≠ [] → plan.allInstances r t (plan.present r (.type t)) = .ok is →
    plan.allInstances r' t (plan.present r' (.type t)) = .ok is

/-- It is enough that lookups find the same as soon as a bean is wired. -/
theorem Lasting.of_steady (h : r.Becomes r') (hr : r.Fits)
    (hsteady : ∀ b, r.status b = .wired → plan.Indexed r ∧ r.Calm ∧ r.Steady r') :
    plan.Lasting r r' where
  held _ _ _ hi := instance?_of_becomes h hr hi
  indexed t sel i hsel hi := by
    obtain ⟨b, hb, hi⟩ := singleInstance_eq_ok.mp hi
    obtain ⟨hindexed, hcalm, hs⟩ := hsteady b (wired_of_instanceOf hi)
    have hpresent : plan.present r sel = [b] := by
      refine (eq_singleton_iff nodup_present).mpr fun c => ?_
      rw [← mem_lookup_iff_present hindexed hcalm hsel, hb, List.mem_singleton]
    have hi := instanceOf_of_becomes h hr hi
    rw [hs.lookup, hs.present, hb, hpresent]
    exact ⟨hi, hi⟩
  scanned t sel i hsel hi := by
    obtain ⟨b, hb, hi⟩ := singleInstance_eq_ok.mp hi
    obtain ⟨hindexed, hcalm, hs⟩ := hsteady b (wired_of_instanceOf hi)
    have hi := instanceOf_of_becomes h hr hi
    rw [hs.lookup, hs.present, hb]
    refine ⟨hi, fun j hj => ?_⟩
    obtain ⟨c, hc, hj⟩ := singleInstance_eq_ok.mp hj
    have hin : c ∈ plan.present r sel :=
      (mem_lookup_iff_present hindexed hcalm hsel).mp (by rw [hc]; exact List.mem_cons_self)
    rw [hb, List.mem_singleton] at hin
    rw [hin, hi] at hj
    exact (Except.ok.inj hj).symm
  indexedAll t is hne hi := by
    obtain ⟨b, hw⟩ := exists_wired_of_allInstances hi hne
    rw [(hsteady b hw).2.2.lookup]
    exact allInstances_of_becomes h hr hi
  scannedAll t is hne hi := by
    obtain ⟨b, hw⟩ := exists_wired_of_allInstances hi hne
    rw [(hsteady b hw).2.2.present]
    exact allInstances_of_becomes h hr hi

/-- What is received is the instance of the bean as it is at the moment of the receipt. -/
theorem receive_received (wire : Nat → Wiring Unit) (asker : Asker) (t : TypeName) (b : Nat)
    (a : Assembly) :
    After (plan.receive wire asker t b) a fun x a' => ∀ i, x = .ok i →
      ∃ rest, a'.progress.history = ⟨.received asker b, a'.registry⟩ :: rest ∧
        plan.instanceOf a'.registry t b = .ok i := by
  unfold receive demand
  rw [after_bind, after_bind]
  refine After.mono (x := wire b) (Q := fun _ _ => True) trivial fun x v _ => ?_
  cases x with
  | error cause => exact fun i hi => by cases hi
  | ok _ =>
    rw [continues_ok, after_modify, continues_ok, after_bind, after_get, continues_ok,
      after_bind, after_ofExcept]
    cases hi : plan.instanceOf (v.connect b).progress.registry t b with
    | error cause => exact fun i hi => by cases hi
    | ok j =>
      rw [continues_ok, after_bind, after_modify, continues_ok, after_pure]
      intro i hij
      cases hij
      exact ⟨_, rfl, hi⟩

theorem receiveOne_received {wire : Nat → Wiring Unit} {asker : Asker} {a a' : Assembly}
    (h : outcome (plan.receiveOne wire asker t sel) a = (.ok i, a')) :
    ∃ b rest, a'.progress.history = ⟨.received asker b, a'.registry⟩ :: rest ∧
      plan.instanceOf a'.registry t b = .ok i := by
  have hafter : After (plan.receiveOne wire asker t sel) a fun x a' => ∀ i, x = .ok i →
      ∃ b rest, a'.progress.history = ⟨.received asker b, a'.registry⟩ :: rest ∧
        plan.instanceOf a'.registry t b = .ok i := by
    unfold receiveOne orDenied
    rw [after_noting, after_bind]
    refine After.mono (x := Wiring.ofResolving (plan.find sel)) (Q := fun _ _ => True) trivial
      fun x u _ => ?_
    cases x with
    | error cause => exact fun i hi => by cases hi
    | ok found =>
      rw [continues_ok, after_bind, after_ofExcept]
      cases plan.single t found with
      | error cause => exact fun i hi => by cases hi
      | ok b =>
        rw [continues_ok]
        refine (receive_received wire asker t b u).mono fun x v hx => ?_
        cases x with
        | error cause => exact fun i hi => by cases hi
        | ok j => exact fun i hi => ⟨b, hx i hi⟩
  exact hafter.of_outcome h i rfl

end Plan

/-! ### Containers -/

namespace Traced

variable {plan : Plan} {p : Progress} {r : Registry}

/-- As soon as a bean is wired the resolution has ended. -/
theorem steady (h : Traced p) (hs : Steadfast plan p) {later earlier : List Moment} {m : Moment}
    (hp : p.history = later ++ m :: earlier) (hr : r = p.registry ∨ ∃ m' ∈ later, r = m'.registry)
    {b : Nat} (hw : m.registry.status b = .wired) :
    plan.Indexed m.registry ∧ m.registry.Calm ∧ m.registry.Steady r := by
  have hbefore := h.before
  rw [hp] at hbefore
  have hended : .beansResolved ∈ m.event :: earlier.map Moment.event := by
    by_contra hn
    exact hbefore.moment hn b hw
  -- the end of the resolution is this moment or an earlier one
  obtain ⟨m₀, hm₀, he₀⟩ := List.mem_map.mp
    (show .beansResolved ∈ (m :: earlier).map Moment.event from hended)
  obtain ⟨since, before, hsplit⟩ := List.append_of_mem hm₀
  have hhistory : p.history = (later ++ since) ++ m₀ :: before := by
    rw [hp, hsplit, List.append_assoc]
  have hthen : m₀.registry.Steady r := by
    refine hs.steady hhistory he₀ ?_
    rcases hr with rfl | ⟨m', hm', rfl⟩
    · exact .inl rfl
    · exact .inr (.inr ⟨m', List.mem_append_left _ hm', rfl⟩)
  have hnow : m₀.registry.Steady m.registry := by
    refine hs.steady hhistory he₀ (.inr ?_)
    cases since with
    | nil =>
      cases hsplit
      exact .inl rfl
    | cons m' since =>
      cases hsplit
      exact .inr ⟨m, by simp, rfl⟩
  have hresolved : plan.Resolved m₀.registry := hs.resolved m₀ (by simp [hhistory]) he₀
  exact ⟨hresolved.toIndexed.steady hnow, hnow.calm hresolved.calm, hnow.symm.trans hthen⟩

end Traced

namespace Plan

variable {plan : Plan}

/-- Whatever a change of a single mark keeps, resolutions keep. -/
theorem persists_leads {P : Registry → Prop} (h : ∀ r r', Registry.Leads r r' → P r → P r') :
    plan.Persists fun p => P p.registry where
  note _ _ _ hp := hp
  begin _ _ hb hp := h _ _ (.setStatus hb (by decide) fun _ _ => .begin) hp
  discard _ _ hb hp :=
    h _ _ (Registry.Leads.congr (.setStatus hb (by decide) fun _ _ => .discard) rfl) hp
  settle p b bean exports _ hb _ hp := by
    refine h _ _ ?_ hp
    have hmarks := (index_spec b bean exports p).1
    refine Registry.Leads.congr (.settle hb exports) ?_
    show ((index b bean exports p).registry.setExports b exports |>.setStatus b .resolved).marks = _
    simp only [Registry.setStatus, Registry.setExports, hmarks]

end Plan

namespace Container

variable {c : Container}

theorem performAll_traced (compositions : Compositions) (ops : List Operation) :
    Traced ((empty .standard compositions).performAll ops).2.progress := by
  have h : Has _ _ := performAll_lasts lasts_traced .standard compositions ops
  by_cases hn : ((empty .standard compositions).performAll ops).2.phase = .unrefreshed
  · obtain ⟨hempty, hblank⟩ := h.blank hn
    refine .of_new (fun b m hm => ?_) hblank (h.new hn)
    rw [show ((empty .standard compositions).performAll ops).2.progress.registry = .ofBeans [] from
      hempty] at hm
    cases hm
  · exact h.since hn (performAll_orderly compositions ops).injector

/-- Once the beans are frozen, they stay the same and their marks become later ones; and a
refreshed container stays refreshed, with the same registry. -/
theorem performAll_becomes (hn : c.phase ≠ .unrefreshed) (ops : List Operation) :
    let d := (c.performAll ops).2
    d.phase ≠ .unrefreshed ∧ d.beans = c.beans ∧ c.registry.Becomes d.registry ∧
      (c.phase = .refreshed → d.phase = .refreshed ∧ d.registry = c.registry) := by
  refine performAll_keeps_registry (R := fun phase r => c.registry.Becomes r ∧
    (c.phase = .refreshed → phase = .refreshed ∧ r = c.registry)) (fun plan sel => ?_) hn
    ⟨.refl _, fun hr => ⟨hr, rfl⟩⟩ ops
  have hpersists : plan.Persists fun q => c.registry.Becomes q.registry :=
    Plan.persists_leads fun r r' hr h => h.leads hr
  refine Keeps.of_after fun p ⟨hb, hsame⟩ => ((Plan.find_keeps hpersists sel).after hb).mono
    fun _ _ hq => ⟨hq, fun hr => ?_⟩
  cases (hsame hr).1

section
variable {t : TypeName} {sel : Selector}

theorem whenRefreshed_eq_ok {α : Type} {operation : String} {f : Unit → α} {x : α} :
    c.whenRefreshed operation f = .ok x ↔ c.phase = .refreshed ∧ f () = x := by
  unfold whenRefreshed
  cases c.phase <;> simp

/-- What is fetched from a refreshed container is fetched from it at any later time. -/
theorem whenRefreshed_performAll {α : Type} {operation : String} {f : Plan → Registry → α} {x : α}
    (hf : ∀ (plan plan' : Plan) (r : Registry), plan'.beans = plan.beans → f plan' r = f plan r)
    (h : c.whenRefreshed operation (fun () => f c.plan c.registry) = .ok x) (ops : List Operation) :
    let d := (c.performAll ops).2
    d.whenRefreshed operation (fun () => f d.plan d.registry) = .ok x := by
  obtain ⟨hr, hx⟩ := whenRefreshed_eq_ok.mp h
  have hn : c.phase ≠ .unrefreshed := by
    rw [hr]
    decide
  obtain ⟨-, hbeans, -, hsame⟩ := performAll_becomes hn ops
  obtain ⟨hphase, hregistry⟩ := hsame hr
  refine whenRefreshed_eq_ok.mpr ⟨hphase, ?_⟩
  rw [hregistry, hf c.plan _ _ hbeans]
  exact hx

theorem singleInstance_lookup_congr (plan plan' : Plan) (r : Registry)
    (hbeans : plan'.beans = plan.beans) :
    plan'.singleInstance r t (plan'.lookup r sel) = plan.singleInstance r t (plan.lookup r sel) := by
  have hid : plan'.idOf = plan.idOf := by
    funext b
    unfold Plan.idOf
    rw [hbeans]
  unfold Plan.singleInstance Plan.single
  rw [Plan.lookup_congr plan hbeans, Plan.instanceOf_congr hbeans, hid]

theorem allInstances_lookup_congr (plan plan' : Plan) (r : Registry)
    (hbeans : plan'.beans = plan.beans) :
    plan'.allInstances r t (plan'.lookup r sel) = plan.allInstances r t (plan.lookup r sel) := by
  unfold Plan.allInstances
  rw [Plan.lookup_congr plan hbeans, Plan.instanceOf_congr hbeans]

end

/-- With the standard injector, in every run: the statuses of a bean, each one counted once
where it stays, are the beginning of one of two sequences; a bean holds an instance exactly
while it is wired; it has no exports before it is resolved, and the same ones from then on.
Whoever receives an instance receives one that the bean holds, and at every later moment
whatever lookup gives one instance gives the one that was seen, be it received, looked up
through a window, or fetched. The same is true of what is fetched from the container, at any
later time. -/
theorem statuses_advance (compositions : Compositions) (ops : List Operation) :
    let c := ((empty .standard compositions).performAll ops).2
    (∀ b,
      Status.journey (.fresh :: (c.progress.statuses b).reverse) <+: [.fresh, .resolving, .deleted] ∨
        Status.journey (.fresh :: (c.progress.statuses b).reverse) <+:
          [.fresh, .resolving, .resolved, .creating, .wired]) ∧
    (∀ r, (r = c.registry ∨ ∃ m ∈ c.progress.history, r = m.registry) → ∀ b,
      ((r.held b).isSome ↔ r.status b = .wired) ∧
        ((r.status b).isSettled = false → r.exports b = [])) ∧
    (∀ later m earlier, c.progress.history = later ++ m :: earlier →
      (∀ asker b, m.event = .received asker b → (m.registry.held b).isSome) ∧
      ∀ r, (r = c.registry ∨ ∃ m' ∈ later, r = m'.registry) →
        (∀ b, (m.registry.status b).isSettled → r.exports b = m.registry.exports b) ∧
          c.plan.Lasting m.registry r) ∧
    (∀ wire asker t sel a i a', outcome (c.plan.receiveOne wire asker t sel) a = (.ok i, a') →
      ∃ b rest, a'.progress.history = ⟨.received asker b, a'.registry⟩ :: rest ∧
        c.plan.instanceOf a'.registry t b = .ok i) ∧
    ∀ ops', let d := (c.performAll ops').2
      (∀ b t i, c.plan.instance? c.registry b t = some i →
        d.plan.instance? d.registry b t = some i) ∧
      (∀ t i, c.get t = .ok (.ok i) → d.get t = .ok (.ok i)) ∧
      (∀ t n i, c.getNamed t n = .ok (.ok i) → d.getNamed t n = .ok (.ok i)) ∧
      ∀ t is, c.getAll t = .ok (.ok is) → d.getAll t = .ok (.ok is) := by
  intro c
  have h : Traced c.progress := performAll_traced compositions ops
  have hlasts : Has _ c := performAll_lasts lasts_steadfast .standard compositions ops
  have hinjector : c.injector = .standard := (performAll_orderly compositions ops).injector
  refine ⟨h.journey, fun r hr b => ?_, fun later m earlier hp => ?_,
    fun wire asker t sel a i a' ha => Plan.receiveOne_received ha, fun ops' => ?_⟩
  · have hfits : r.Fits := h.fits hr
    exact ⟨hfits.held_iff b, hfits.exports_eq⟩
  · have hin : m ∈ c.progress.history := by simp [hp]
    have hfits : m.registry.Fits := h.fits (.inr ⟨m, hin, rfl⟩)
    refine ⟨fun asker b he => (hfits.held_iff b).mpr (h.received m hin asker b he), fun r hr => ?_⟩
    have hbecomes : m.registry.Becomes r := h.becomes hp hr
    refine ⟨fun b => hbecomes.exports_eq, .of_steady hbecomes hfits fun b hw => ?_⟩
    refine h.steady (hlasts.since (fun hn => ?_) (.inr hinjector)) hp hr hw
    obtain ⟨es, held, hm⟩ := Registry.exists_mark hw (by decide)
    rw [(hlasts.blank hn).2 m hin] at hm
    cases hm
  · refine ⟨fun b t i hi => ?_, fun t i hi => ?_, fun t n i hi => ?_, fun t is hi => ?_⟩
    · by_cases hn : c.phase = .unrefreshed
      · have hheld : c.registry.held b = none := by
          rw [Registry.held, (hlasts.blank hn).1]
          rfl
        rw [Plan.instance?, hheld] at hi
        cases hi
      · obtain ⟨-, hbeans, hbecomes, -⟩ := performAll_becomes hn ops'
        have hlater : c.plan.instance? (c.performAll ops').2.registry b t = some i :=
          Plan.instance?_of_becomes hbecomes (h.fits (.inl rfl)) hi
        unfold Plan.instance? at hlater ⊢
        rwa [show (c.performAll ops').2.plan.beans = c.plan.beans from hbeans]
    · exact whenRefreshed_performAll
        (f := fun plan r => plan.singleInstance r t (plan.lookup r (.type t)))
        singleInstance_lookup_congr hi ops'
    · exact whenRefreshed_performAll
        (f := fun plan r => plan.singleInstance r t (plan.lookup r (.typedName t n)))
        singleInstance_lookup_congr hi ops'
    · exact whenRefreshed_performAll
        (f := fun plan r => plan.allInstances r t (plan.lookup r (.type t)))
        allInstances_lookup_congr hi ops'

/-- The instance of the pool is the same before the container is closed and after. -/
theorem statuses_advance_of_chain :
    let c := ((empty .standard ⟨[]⟩).performAll chain).2
    ∃ i, c.get (.of "app::Pool") = .ok (.ok i) ∧
      (c.performAll [.close, .close]).2.get (.of "app::Pool") = .ok (.ok i) := by
  have hgot : ((empty .standard ⟨[]⟩).performAll chain).2.get (.of "app::Pool") matches .ok (.ok _) := by
    decide +kernel
  have hadvance := statuses_advance ⟨[]⟩ chain
  -- the run is done, and what is left does not look into it
  generalize ((empty .standard ⟨[]⟩).performAll chain).2 = c at hgot hadvance ⊢
  split at hgot
  · rename_i i hi
    exact ⟨i, hi, (hadvance.2.2.2.2 [.close, .close]).2.1 _ i hi⟩
  · cases hgot

end Container
end Inversion
