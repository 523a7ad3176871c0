/-
# The marks of a bean

The mark of a bean changes in few ways. A bean is begun, then it is discarded or settled
with its exports, and a settled one is created and at last holds an instance
(`Mark.Leads`). A history keeps the registry behind every event, and so for every bean
the marks it has had: `Trail` says that each is the one before or what this leads to.
Resolutions keep this whatever their conditions do, and so do the steps of the wiring
machine, for only what is being created is finished (`refresh_traced`).

So the statuses of a bean are the beginning of one of two sequences, it holds an instance
exactly while it is wired, and the exports it is settled with are for good.
-/
import Mathlib.Data.List.Destutter
import Inversion.Proofs.History
import Inversion.Proofs.Lookup.Run
import Inversion.Proofs.Closing

namespace Inversion

open Relation

/-! ### One mark after another -/

/-- The statuses that may follow a status. -/
def Status.next : Status → List Status
  | fresh => [resolving]
  | resolving => [deleted, resolved]
  | resolved => [creating]
  | creating => [wired]
  | wired | deleted => []

namespace Mark

/-- The mark that every bean begins with. -/
def new : Mark :=
  ⟨.fresh, [], none⟩

/-- How a mark may change. -/
inductive Leads : Mark → Mark → Prop
  | begin {es : List TypeName} {h : Option Instance} : Leads ⟨.fresh, es, h⟩ ⟨.resolving, es, h⟩
  | discard {es : List TypeName} {h : Option Instance} :
    Leads ⟨.resolving, es, h⟩ ⟨.deleted, es, h⟩
  | settle {es es' : List TypeName} {h : Option Instance} :
    Leads ⟨.resolving, es, h⟩ ⟨.resolved, es', h⟩
  | create {es : List TypeName} {h : Option Instance} : Leads ⟨.resolved, es, h⟩ ⟨.creating, es, h⟩
  | hold {es : List TypeName} {h : Option Instance} {i : Instance} :
    Leads ⟨.creating, es, h⟩ ⟨.wired, es, some i⟩

/-- An instance is held exactly by a wired bean, and exports are had from the settling on. -/
structure Fits (m : Mark) : Prop where
  held : m.held.isSome ↔ m.status = .wired
  exports : m.status.isSettled = false → m.exports = []

variable {m m' : Mark}

theorem Leads.status (h : Leads m m') : m'.status ∈ m.status.next := by
  cases h <;> simp [Status.next]

theorem Leads.fits (h : Leads m m') (hm : m.Fits) : m'.Fits := by
  obtain ⟨hheld, hexports⟩ := hm
  cases h with
  | begin => exact ⟨by simpa using hheld, fun _ => hexports rfl⟩
  | discard => exact ⟨by simpa using hheld, fun _ => hexports rfl⟩
  | settle => exact ⟨by simpa using hheld, fun h => by cases h⟩
  | create => exact ⟨by simpa using hheld, fun h => by cases h⟩
  | hold => exact ⟨by simp, fun h => by cases h⟩

/-- What a mark leads to, at once or in the end. -/
abbrev Becomes : Mark → Mark → Prop :=
  ReflTransGen Leads

/-- A wired bean stays as it is. -/
theorem Becomes.of_wired (h : m.Becomes m') (hw : m.status = .wired) : m' = m := by
  rcases ReflTransGen.cases_head h with rfl | ⟨k, hk, -⟩
  · rfl
  · have hnext := hk.status
    rw [hw] at hnext
    cases hnext

/-- Exports are had for good. -/
theorem Becomes.exports (h : m.Becomes m') (he : m.status.isSettled) :
    m'.status.isSettled ∧ m'.exports = m.exports := by
  induction h with
  | refl => exact ⟨he, rfl⟩
  | tail _ hstep ih =>
    obtain ⟨hk, hes⟩ := ih
    cases hstep with
    | create => exact ⟨rfl, hes⟩
    | hold => exact ⟨rfl, hes⟩
    | begin => cases hk
    | discard => cases hk
    | settle => cases hk

end Mark

/-! ### The marks along a history -/

/-- The marks that were noted, the latest first, and the present one: each is the one before
it or what that leads to. -/
inductive Trail : List Mark → Mark → Prop
  | new : Trail [] .new
  | stay {ms : List Mark} {m : Mark} : Trail ms m → Trail (m :: ms) m
  | step {ms : List Mark} {m m' : Mark} : Trail ms m → m.Leads m' → Trail (m' :: ms) m'

namespace Trail

variable {ms : List Mark} {m : Mark}

theorem fits (h : Trail ms m) : ∀ k ∈ m :: ms, k.Fits := by
  induction h with
  | new =>
    intro k hk
    rw [List.mem_singleton.mp hk]
    exact ⟨by simp [Mark.new], fun _ => rfl⟩
  | stay _ ih => exact List.forall_mem_cons.mpr ⟨ih _ List.mem_cons_self, ih⟩
  | @step ms m m' _ hstep ih =>
    have hm' : m'.Fits := hstep.fits (ih m List.mem_cons_self)
    exact List.forall_mem_cons.mpr ⟨hm', List.forall_mem_cons.mpr
      ⟨hm', fun k hk => ih k (List.mem_cons_of_mem m hk)⟩⟩

/-- Every mark becomes each later one. -/
theorem becomes (h : Trail ms m) : (m :: ms).Pairwise fun k' k => k.Becomes k' := by
  induction h with
  | new => exact List.pairwise_singleton _ _
  | stay _ ih =>
    refine List.pairwise_cons.mpr ⟨List.forall_mem_cons.mpr ⟨.refl, ?_⟩, ih⟩
    exact (List.pairwise_cons.mp ih).1
  | @step ms m m' _ hstep ih =>
    obtain ⟨hm, hms⟩ := List.pairwise_cons.mp ih
    have hm' : ∀ k ∈ ms, k.Becomes m' := fun k hk => (hm k hk).tail hstep
    exact List.pairwise_cons.mpr
      ⟨List.forall_mem_cons.mpr ⟨.refl, hm'⟩, List.pairwise_cons.mpr ⟨hm', hms⟩⟩

/-- The latest status is the present one, and each follows the one before it. -/
theorem statuses (h : Trail ms m) :
    (ms.map Mark.status ++ [Status.fresh]).head? = some m.status ∧
      (ms.map Mark.status ++ [Status.fresh]).IsChain fun s' s : Status => s' = s ∨ s' ∈ s.next := by
  induction h with
  | new => exact ⟨rfl, List.isChain_singleton _⟩
  | stay _ ih =>
    refine ⟨rfl, List.isChain_cons.mpr ⟨fun s hs => .inl ?_, ih.2⟩⟩
    exact Option.some.inj (ih.1.symm.trans hs)
  | step _ hstep ih =>
    refine ⟨rfl, List.isChain_cons.mpr ⟨fun s hs => .inr ?_, ih.2⟩⟩
    cases ih.1.symm.trans hs
    exact hstep.status

end Trail

/-! ### Journeys -/

namespace Status

/-- Statuses in their order, repetitions left out. -/
def journey (ss : List Status) : List Status :=
  ss.destutter (· ≠ ·)

theorem journey_isChain : ∀ (ss : List Status) (s : Status),
    (s :: ss).IsChain (fun s s' => s' = s ∨ s' ∈ s.next) →
      (journey (s :: ss)).IsChain (fun s s' => s' ∈ s.next) ∧ (journey (s :: ss)).head? = some s
  | [], s, _ => ⟨List.isChain_singleton s, rfl⟩
  | s' :: ss, s, h => by
    obtain ⟨hstep, hrest⟩ := List.isChain_cons_cons.mp h
    obtain ⟨hchain, hhead⟩ := journey_isChain ss s' hrest
    by_cases hs : s' = s
    · subst hs
      have hsame : journey (s' :: s' :: ss) = journey (s' :: ss) := by
        simp [journey, List.destutter_cons']
      rw [hsame]
      exact ⟨hchain, hhead⟩
    · have hmore : journey (s :: s' :: ss) = s :: journey (s' :: ss) := by
        simp [journey, List.destutter_cons', Ne.symm hs]
      rw [hmore]
      refine ⟨List.isChain_cons.mpr ⟨fun t ht => ?_, hchain⟩, rfl⟩
      rw [hhead] at ht
      cases ht
      exact hstep.resolve_left hs

/-- Sequences from a status with one that may follow it. -/
theorem prefix_cons {s t : Status} {w : List Status} (hs : s.next = [t])
    (ht : ∀ ss : List Status, (t :: ss).IsChain (fun s s' => s' ∈ s.next) → t :: ss <+: w) :
    ∀ ss : List Status, (s :: ss).IsChain (fun s s' => s' ∈ s.next) → s :: ss <+: s :: w
  | [], _ => List.prefix_cons_inj s |>.mpr List.nil_prefix
  | u :: ss, h => by
    obtain ⟨hu, h⟩ := List.isChain_cons_cons.mp h
    rw [hs, List.mem_singleton] at hu
    subst hu
    exact (List.prefix_cons_inj s).mpr (ht ss h)

/-- Sequences from a status that is final. -/
theorem prefix_final {s : Status} (hs : s.next = []) :
    ∀ ss : List Status, (s :: ss).IsChain (fun s s' => s' ∈ s.next) → s :: ss <+: [s]
  | [], _ => List.prefix_refl _
  | u :: ss, h => by
    obtain ⟨hu, -⟩ := List.isChain_cons_cons.mp h
    rw [hs] at hu
    cases hu

/-- From the first status on there are two ways. -/
theorem prefix_of_isChain : ∀ ss : List Status, ss.head? = some .fresh →
    ss.IsChain (fun s s' => s' ∈ s.next) → ss <+: [.fresh, .resolving, .deleted] ∨
      ss <+: [.fresh, .resolving, .resolved, .creating, .wired]
  | [_], rfl, _ => .inl (by decide)
  | [_, _], rfl, h => by
    obtain ⟨hb, -⟩ := List.isChain_cons_cons.mp h
    rw [List.mem_singleton.mp hb]
    exact .inl (by decide)
  | _ :: b :: c :: ss, rfl, h => by
    obtain ⟨hb, h⟩ := List.isChain_cons_cons.mp h
    obtain ⟨hc, h⟩ := List.isChain_cons_cons.mp h
    rw [List.mem_singleton.mp hb] at hc ⊢
    have hc : c = .deleted ∨ c = .resolved := by simpa [next] using hc
    rcases hc with rfl | rfl
    · have hrest := prefix_final rfl ss h
      exact .inl ((List.prefix_append_right_inj [fresh, resolving]).mpr hrest)
    · have hrest := prefix_cons rfl (prefix_cons rfl (prefix_final (s := .wired) rfl)) ss h
      exact .inr ((List.prefix_append_right_inj [fresh, resolving]).mpr hrest)

end Status

/-! ### Steps of the registry -/

namespace Registry

/-- Every bean keeps its mark, or has one that the mark leads to. -/
structure Leads (r r' : Registry) : Prop where
  length : r'.marks.length = r.marks.length
  marks : ∀ (b : Nat) (m' : Mark), r'.marks[b]? = some m' →
    ∃ m : Mark, r.marks[b]? = some m ∧ (m' = m ∨ m.Leads m')

variable {r r' : Registry} {b : Nat}

theorem exists_mark {s : Status} (h : r.status b = s) (hs : s ≠ .deleted) :
    ∃ es held, r.marks[b]? = some ⟨s, es, held⟩ := by
  have hlt : b < r.marks.length := lt_length_of_status_eq h hs
  rw [status, List.getElem?_eq_getElem hlt] at h
  exact ⟨_, _, by rw [List.getElem?_eq_getElem hlt, ← h]; rfl⟩

/-- A single mark is changed. -/
theorem Leads.of_mark {m k : Mark} (hlen : r'.marks.length = r.marks.length)
    (hm : r.marks[b]? = some m) (hk : r'.marks[b]? = some k) (h : m.Leads k)
    (hother : ∀ c, c ≠ b → r'.marks[c]? = r.marks[c]?) : r.Leads r' := by
  refine ⟨hlen, fun c l hl => ?_⟩
  by_cases hc : c = b
  · subst hc
    cases Option.some.inj (hl.symm.trans hk)
    exact ⟨m, hm, .inr h⟩
  · exact ⟨l, (hother c hc).symm.trans hl, .inl rfl⟩

theorem Leads.setStatus {s s' : Status} (hb : r.status b = s) (hs : s ≠ .deleted)
    (h : ∀ es held, Mark.Leads ⟨s, es, held⟩ ⟨s', es, held⟩) : r.Leads (r.setStatus b s') := by
  obtain ⟨es, held, hm⟩ := exists_mark hb hs
  refine .of_mark (length_setStatus r b s') hm ?_ (h es held) fun c hc =>
    mark_setStatus_of_ne r b c s' hc
  simp [Registry.setStatus, hm]

theorem Leads.congr {r'' : Registry} (h : r.Leads r') (hm : r''.marks = r'.marks) : r.Leads r'' where
  length := hm ▸ h.length
  marks := by
    rw [hm]
    exact h.marks

theorem Leads.hold (hb : r.status b = .creating) (i : Instance) :
    r.Leads ((r.setHeld b i).setStatus b .wired) := by
  obtain ⟨es, held, hm⟩ := exists_mark hb (by decide)
  refine .of_mark (by simp) hm (k := ⟨.wired, es, some i⟩) ?_ .hold fun c hc => ?_
  · simp [Registry.setStatus, setHeld, hm]
  · rw [mark_setStatus_of_ne _ b c _ hc]
    simp [setHeld, hc.symm]

theorem Leads.settle (hb : r.status b = .resolving) (es : List TypeName) :
    r.Leads ((r.setExports b es).setStatus b .resolved) := by
  obtain ⟨es', held, hm⟩ := exists_mark hb (by decide)
  refine .of_mark (by simp) hm (k := ⟨.resolved, es, held⟩) ?_ .settle fun c hc => ?_
  · simp [Registry.setStatus, setExports, hm]
  · rw [mark_setStatus_of_ne _ b c _ hc, mark_setExports_of_ne _ b c _ hc]

end Registry

/-! ### Histories -/

/-- The marks form trails, no bean is lost, whoever received a bean received it wired, and
before the end of the resolution no bean is wired. -/
structure Traced (p : Progress) : Prop where
  trails : ∀ (b : Nat) (m : Mark), p.registry.marks[b]? = some m →
    Trail (p.history.filterMap (·.registry.marks[b]?)) m
  grows : (p.registry :: p.history.map Moment.registry).Pairwise
    fun r' r => r.marks.length ≤ r'.marks.length
  received : ∀ m ∈ p.history, ∀ asker b, m.event = .received asker b →
    m.registry.status b = .wired
  current : .beansResolved ∉ p.events → ∀ b, p.registry.status b ≠ .wired
  before : Throughout (fun m ms => .beansResolved ∉ m.event :: ms.map Moment.event →
    ∀ b, m.registry.status b ≠ .wired) p.history

namespace Traced

variable {plan : Plan} {p q : Progress} {r : Registry} {e : Event} {b : Nat}

/-- A change of the registry, and its note. -/
theorem lead (h : Traced p) (hr : p.registry.Leads r)
    (he : ∀ asker b, e = .received asker b → r.status b = .wired)
    (hw : .beansResolved ∈ p.events ∨ ∀ b, r.status b ≠ .wired) :
    Traced ({ p with registry := r }.note e) := by
  have hcurrent : .beansResolved ∉ e :: p.events → ∀ b, r.status b ≠ .wired := fun hn =>
    hw.resolve_left fun hin => hn (List.mem_cons_of_mem e hin)
  refine ⟨fun b m' hm' => ?_, ?_, ?_, hcurrent, hcurrent, h.before⟩
  · have hm' : r.marks[b]? = some m' := hm'
    obtain ⟨m, hm, hstep⟩ := hr.marks b m' hm'
    show Trail (List.filterMap _ (⟨e, r⟩ :: p.history)) m'
    rw [List.filterMap_cons, hm']
    have htrail := h.trails b m hm
    rcases hstep with rfl | hstep
    · exact .stay htrail
    · exact .step htrail hstep
  · have hgrows := List.pairwise_cons.mp h.grows
    have hr : ∀ r' ∈ p.history.map Moment.registry, r'.marks.length ≤ r.marks.length := fun r' hr' =>
      (hgrows.1 r' hr').trans_eq hr.length.symm
    exact List.pairwise_cons.mpr ⟨List.forall_mem_cons.mpr ⟨le_refl _, hr⟩,
      List.pairwise_cons.mpr ⟨hr, hgrows.2⟩⟩
  · exact List.forall_mem_cons.mpr ⟨he, h.received⟩

theorem note (h : Traced p) (he : ∀ asker b, e = .received asker b → p.registry.status b = .wired) :
    Traced (p.note e) := by
  refine h.lead (r := p.registry) ⟨rfl, fun b m hm => ⟨m, hm, .inl rfl⟩⟩ he ?_
  exact or_iff_not_imp_left.mpr h.current

theorem congr (h : Traced p) (hr : q.registry = p.registry) (hh : q.history = p.history) :
    Traced q := by
  obtain ⟨trails, grows, received, current, before⟩ := h
  refine ⟨?_, ?_, ?_, ?_, ?_⟩ <;> simpa only [Progress.events, hr, hh]

/-- Where nothing has happened to the beans, each has the mark it begins with. -/
theorem of_new (hnew : ∀ (b : Nat) (m : Mark), p.registry.marks[b]? = some m → m = .new)
    (hblank : ∀ m ∈ p.history, m.registry = .ofBeans []) (haside : ∀ e ∈ p.events, e.IsAside) :
    Traced p := by
  have hnone : ∀ b : Nat, p.history.filterMap (·.registry.marks[b]?) = [] := fun b =>
    List.filterMap_eq_nil_iff.mpr fun m hm => by simp [hblank m hm, Registry.ofBeans]
  have hzero : ∀ r ∈ p.history.map Moment.registry, ∀ n, r.marks.length ≤ n := by
    intro r hr n
    obtain ⟨m, hm, rfl⟩ := List.mem_map.mp hr
    simp [hblank m hm, Registry.ofBeans]
  refine ⟨fun b m hm => ?_, ?_, fun m hm asker b he => ?_, fun _ b hw => ?_, ?_⟩
  · rw [hnone b, hnew b m hm]
    exact .new
  · exact List.pairwise_cons.mpr ⟨fun r hr => hzero r hr _,
      List.pairwise_of_forall_mem_list fun _ _ r hr => hzero r hr _⟩
  · have hin := haside m.event (List.mem_map_of_mem hm)
    rw [he] at hin
    exact hin.elim
  · obtain ⟨es, held, hm⟩ := Registry.exists_mark hw (by decide)
    cases hnew b _ hm
  · refine Throughout.of_forall fun m hm ms _ b => ?_
    simp [Registry.status, hblank m hm, Registry.ofBeans]

/-- Beans that are enrolled. -/
theorem of_frozen (h : Container.Frozen plan p) : Traced p := by
  refine .of_new (fun b m hm => ?_) h.blank h.aside
  rw [h.registry, Registry.ofBeans, List.getElem?_map, Option.map_eq_some_iff] at hm
  obtain ⟨bean, -, rfl⟩ := hm
  rfl

/-- A change that wires no bean, and its note. -/
theorem advance (h : Traced p) (hr : p.registry.Leads r) (he : ∀ asker b, e ≠ .received asker b)
    (hw : ∀ b, r.status b = .wired → p.registry.status b = .wired) :
    Traced ({ p with registry := r }.note e) :=
  h.lead hr (fun asker b hb => absurd hb (he asker b)) <|
    or_iff_not_imp_left.mpr fun hn b hb => h.current hn b (hw b hb)

theorem wired_of_setStatus {s : Status} {c : Nat} (hs : s ≠ .wired)
    (h : (r.setStatus b s).status c = .wired) : r.status c = .wired := by
  rw [Registry.status_setStatus] at h
  split at h
  · exact absurd h hs
  · exact h

/-- No resolution wires a bean. -/
theorem persists : plan.Persists Traced where
  note p e he hp := hp.note fun asker b h => by rw [h] at he; exact he.elim
  begin p b hb hp := hp.advance (.setStatus hb (by decide) fun _ _ => .begin) (by simp) fun _ =>
    wired_of_setStatus (by decide)
  discard p b hb hp := by
    have hlead : p.registry.Leads ((p.registry.removeId (plan.idOf b)).setStatus b .deleted) :=
      Registry.Leads.congr (.setStatus hb (by decide) fun _ _ => .discard) rfl
    have hdeleted : Traced (({ p with registry :=
        (p.registry.removeId (plan.idOf b)).setStatus b .deleted }).note (.status b .deleted)) :=
      hp.advance hlead (by simp) fun _ => wired_of_setStatus (r := p.registry) (by decide)
    exact hdeleted.note (by simp)
  settle p b bean exports hbean hb he hp := by
    have hindexed : Traced (Plan.index b bean exports p) ∧
        (Plan.index b bean exports p).registry.marks = p.registry.marks := by
      refine Plan.index_induction b bean exports p (P := fun q => Traced q ∧
        q.registry.marks = p.registry.marks) (fun q t hq => ?_) (fun q n hq => ?_) ⟨hp, rfl⟩
      · exact ⟨hq.1.advance ⟨rfl, fun c m hm => ⟨m, hm, .inl rfl⟩⟩ (by simp) fun c hc => hc, hq.2⟩
      · exact ⟨hq.1.advance ⟨rfl, fun c m hm => ⟨m, hm, .inl rfl⟩⟩ (by simp) fun c hc => hc, hq.2⟩
    set q := Plan.index b bean exports p with hq
    have hb : q.registry.status b = .resolving := by
      rw [Registry.status, hindexed.2]
      exact hb
    refine hindexed.1.advance (r := (q.registry.setExports b exports).setStatus b .resolved)
      (.settle hb exports) (by simp) fun c hc => ?_
    have hw := wired_of_setStatus (by decide) hc
    rwa [Registry.status_setExports] at hw

/-! ### Steps of a wiring -/

variable {s t : Scene}

/-- The steps of the wiring machine, once the resolution has ended. -/
theorem moves (h : Traced s.2.progress) (hm : Moves plan s t) (hl : Life plan s)
    (hended : .beansResolved ∈ s.2.events) :
    Traced t.2.progress ∧ .beansResolved ∈ t.2.events := by
  have hnoted : ∀ {p : Progress} {e : Event}, Traced p → (∀ asker b, e ≠ .received asker b) →
      Traced (p.note e) := fun hp he => hp.note fun asker b hb => absurd hb (he asker b)
  cases hm with
  | @note us a e quiet =>
    refine ⟨hnoted h ?_, List.mem_cons_of_mem _ hended⟩
    rintro asker b rfl
    exact quiet
  | connect =>
    rw [Assembly.events, Assembly.progress_connect]
    exact ⟨h, hended⟩
  | @receive u us a asker b asks wired =>
    show Traced ((a.connect b).progress.note _) ∧ _ ∈ ((a.connect b).progress.note _).events
    rw [Assembly.progress_connect]
    refine ⟨h.note fun _ _ he => ?_, List.mem_cons_of_mem _ hended⟩
    cases he
    exact wired
  | begin registered resolved =>
    refine ⟨h.lead (.setStatus resolved (by decide) fun _ _ => .create) (by simp) (.inl hended), ?_⟩
    exact List.mem_cons_of_mem _ hended
  | take => exact ⟨h, hended⟩
  | @build us a b bean recipe registered constructor =>
    have hcounted : Traced { a.progress with made := a.progress.made + 1 } := h.congr rfl rfl
    exact ⟨hnoted (hnoted hcounted (e := .built b bean.type (a.progress.made + 1)) (by simp))
      (by simp), List.mem_cons_of_mem _ (List.mem_cons_of_mem _ hended)⟩
  | buildFailed => exact ⟨hnoted h (by simp), List.mem_cons_of_mem _ hended⟩
  | openWindow => exact ⟨hnoted h (by simp), List.mem_cons_of_mem _ hended⟩
  | initialise => exact ⟨hnoted h (by simp), List.mem_cons_of_mem _ hended⟩
  | @finish us a b bean stage i registered ready =>
    have hcreating : a.registry.status b = .creating := hl.creating List.mem_cons_self
    have hheld : Traced (a.hold b i).progress :=
      h.lead (.hold hcreating i) (by simp) (.inl hended)
    refine ⟨?_, ?_⟩
    · show Traced ((Assembly.keepDestroyer _ _ _).progress.note _)
      rw [Assembly.progress_keepDestroyer]
      exact hnoted (hnoted hheld (by simp)) (by simp)
    · rw [Assembly.events_finish]
      simp [hended]
  | fail => exact ⟨hnoted h (by simp), List.mem_cons_of_mem _ hended⟩
  | configure => exact ⟨h, hended⟩
  | leave => exact ⟨h, hended⟩

end Traced

/-! ### Refreshes -/

namespace Plan

variable {plan : Plan}

/-- However a refresh ends, the marks have formed trails. -/
theorem refresh_traced (hstd : plan.injector = .standard) {p : Progress}
    (hp : Container.Frozen plan p) (configurations : List Configuration) :
    After (plan.refresh configurations) (.start p) fun _ t => Traced t.progress := by
  have hpersists : plan.Persists fun q =>
      (Traced q ∧ q.Idle) ∧ q.registry.marks.length = plan.beans.length :=
    (Traced.persists.and Progress.persists_idle).and (persists_length _)
  have hkept := (resolveAll_keeps hpersists).after ⟨⟨.of_frozen hp, hp.idle⟩, hp.length⟩
  refine refresh_keeps configurations ((hkept.and (resolveAll_calm hp.length)).mono
    fun r q ⟨⟨⟨htraced, hidle⟩, hlen⟩, hcalm⟩ => ?_)
  cases r with
  | error cause => exact htraced
  | ok _ =>
    refine ⟨_, outlasts_of_moves hstd (P := fun a => Traced a.progress ∧ .beansResolved ∈ a.events)
      (fun s t hm hl h => h.1.moves hm hl h.2) (fun a ha => ?_), ?_, fun a ha => ha.2.1⟩
    · exact ⟨ha.1.note (by simp), List.mem_cons_of_mem _ ha.2⟩
    · have hnoted : (q.note .beansResolved).Idle := hidle.note (by trivial)
      exact ⟨⟨hcalm rfl, hlen, hnoted.life⟩, htraced.note (by simp), List.mem_cons_self⟩

end Plan

/-! ### Containers -/

namespace Container

theorem lasts_traced : Lasts fun plan p => plan.injector = .standard → Traced p where
  congr _ _ _ _ hi _ h hstd := h (hi.symm.trans hstd)
  note he h hstd := (h hstd).note fun asker b hb => by rw [hb] at he; exact he.elim
  start h _ := .of_frozen h
  refresh h configurations hstd := Plan.refresh_traced hstd h configurations
  find sel h hstd := (Plan.find_keeps Traced.persists sel).after (h hstd)

end Container
end Inversion
