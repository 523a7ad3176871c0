/-
# What a refresh comes to

A refresh with the standard injector resolves the beans, and from there it is a run
of the wiring machine, of which nothing is under way at the end (`refresh_ends`).
It either breaks off somewhere along the run, or every bean that is not deleted is
wired, and what is left is to put the destroyers into order.
-/
import Inversion.Proofs.Teardown
import Inversion.Proofs.Wiring.Execution
import Inversion.Refresh

namespace Inversion

open Relation

/-! ### Before the wiring -/

/-- No bean is created yet, and only quiet events have happened. -/
def Progress.Idle (p : Progress) : Prop :=
  (∀ b, p.registry.status b ≠ .creating ∧ p.registry.status b ≠ .wired) ∧ ∀ e ∈ p.events, e.IsQuiet

namespace Progress

variable {plan : Plan} {p : Progress} {b : Nat}

theorem Idle.note (h : p.Idle) {e : Event} (he : e.IsQuiet) : (p.note e).Idle :=
  ⟨h.1, List.forall_mem_cons.mpr ⟨he, h.2⟩⟩

theorem persists_idle : plan.Persists Idle :=
  (Plan.Persists.all fun b =>
    (Plan.persists_status (P := (· ≠ .creating)) (by decide) (by decide) (by decide) b).and
      (Plan.persists_status (P := (· ≠ .wired)) (by decide) (by decide) (by decide) b)).and
    (Plan.persists_events (P := fun es => ∀ e ∈ es, e.IsQuiet)
      fun _ _ he hes => List.forall_mem_cons.mpr ⟨he.isQuiet, hes⟩)

theorem Idle.life (h : p.Idle) : Life plan ([], .start p) :=
  ⟨List.nodup_nil, fun b => .waiting (h.1 b).1 (h.1 b).2 List.not_mem_nil (milestones_of_quiet h.2)⟩

theorem Idle.inTurn {beans : List Bean} (h : p.Idle) : InTurn beans p.events := by
  have happ := @InTurn.append beans p.events [] ?_ trivial
  · rwa [List.append_nil] at happ
  · rintro e he y x rfl
    exact h.2 _ he

theorem Idle.failures (h : p.Idle) : Failures ([], .start p) :=
  fun _ _ hb => (h.2 _ hb).elim

theorem Idle.ordered (h : p.Idle) : Ordered plan ([], .start p) := by
  have hnone : completed p.events = [] := by
    have := @completed_append_of_plain p.events [] fun e he => (h.2 e he).isPlain
    rwa [List.append_nil] at this
  refine ⟨rfl, fun b hb => absurd hb (h.1 b).1, ?_, fun b => ?_, ?_, ?_, List.nodup_nil,
    fun b => ?_⟩
  · exact hnone ▸ List.nodup_nil
  · refine iff_of_false ?_ (h.1 b).2
    show b ∉ completed p.events
    rw [hnone]
    exact List.not_mem_nil
  · exact fun x y hxy => absurd hxy List.not_mem_nil
  · exact fun x y hxy => (h.2 _ hxy).elim
  · exact iff_of_false List.not_mem_nil fun hb => (h.1 b).2 hb.1

end Progress

namespace Refreshing

variable {α : Type} {a : Assembly}

@[simp] theorem after_ofResolving (x : Resolving α) {Q : Except RefreshError α → Assembly → Prop} :
    After (ofResolving x) a Q ↔
      After x a.progress fun r p => Q (r.mapError .resolve) { a with progress := p } := by
  unfold ofResolving
  rw [after_bind, after_get, continues_ok]
  unfold After outcome
  rcases x.run.run a.progress with ⟨_ | _, p⟩ <;> rfl

@[simp] theorem after_ofSorted (x : Except SortError α) {Q : Except RefreshError α → Assembly → Prop} :
    After (ofSorted x) a Q ↔ Q (x.mapError .sort) a := by
  cases x <;> rfl

theorem ofSorted_keeps {P : Assembly → Prop} (x : Except SortError α) : Keeps P (ofSorted x) :=
  .of_after fun _ ha => (after_ofSorted x).mpr ha

end Refreshing

namespace Plan

variable {plan : Plan} {a : Assembly}

/-! ### The run -/

/-- A state in which wirings from outside of any creation are runs. -/
structure Ready (plan : Plan) (a : Assembly) : Prop where
  calm : a.registry.Calm
  length : a.registry.marks.length = plan.beans.length
  life : Life plan ([], a)

theorem Ready.reaches {t : Assembly} (h : plan.Ready a) (ht : Reaches plan ([], a) ([], t)) :
    plan.Ready t :=
  ⟨ht.calm h.calm, ht.length.trans h.length, ht.life h.life⟩

/-- The bound of a refresh suffices. -/
theorem Ready.unbuilt (h : plan.Ready a) : a.registry.unbuilt.card < plan.beans.length + 1 := by
  have : a.registry.unbuilt.card ≤ a.registry.marks.length := Registry.card_having_le
  have := h.length
  omega

theorem configure_reaches (hstd : plan.injector = .standard) (h : plan.Ready a)
    (configuration : Configuration) (c : Nat) :
    After (plan.configure configuration c) a fun _ t => Reaches plan ([], a) ([], t) := by
  have hstarted : Reaches plan ([], a) ([.configuration c], a.note (.configurationStarted c)) :=
    (ReflTransGen.single (.note (by trivial))).tail .configure
  unfold configure
  rw [after_bind, after_modify, continues_ok, after_bind, after_adapt]
  have hgathered : Keeps (fun t => Reaches plan ([], a) ([.configuration c], t))
      (configuration.args.mapM (plan.gather plan.wireBean (.configuration c))) :=
    gatherAll_reaches (wireBean_served hstd) hstd h.calm h.unbuilt rfl configuration.args
  refine (hgathered.after hstarted).mono fun r t ht => ?_
  have hleft : Reaches plan ([], a) ([], t) := ht.tail .leave
  cases r with
  | error cause => exact hleft
  | ok values =>
    simp only [Except.mapError, continues_ok, after_bind, after_modify]
    have hnoted := hleft.note (e := .noted (.configured configuration.label values)) (by trivial)
    cases configuration.failure with
    | some cause => exact hnoted
    | none => exact hnoted.note (by trivial)

theorem configureAll_reaches (hstd : plan.injector = .standard) :
    ∀ (cs : List (Configuration × Nat)) (a : Assembly), plan.Ready a →
      After (cs.forM fun (configuration, c) => plan.configure configuration c) a fun _ t =>
        Reaches plan ([], a) ([], t)
  | [], _, _ => .refl
  | (configuration, c) :: cs, a, h => by
    show After (plan.configure configuration c >>= fun _ => cs.forM _) a _
    rw [after_bind]
    refine (configure_reaches hstd h configuration c).mono fun r t ht => ?_
    cases r with
    | error cause => exact ht
    | ok _ =>
      exact (configureAll_reaches hstd cs t (h.reaches ht)).mono fun _ _ hu => ht.trans hu

theorem after_wireActive {b : Nat} {Q : Except RefreshError Unit → Assembly → Prop} :
    After (plan.wireActive b) a Q ↔ After (plan.wireBean b) a fun r t =>
      match r with
      | .ok () => Q (.ok ()) t
      | .error cause => Q (.error (.wire (pathText (t.path plan)) cause))
          (t.note (.wiringInterrupted (pathText (t.path plan)))) := by
  unfold wireActive
  rw [after_bind, after_get, continues_ok]
  show After (match outcome (plan.wireBean b) a with
    | (result, t) => (do
      set t
      match result with
        | .ok () => pure ()
        | .error cause =>
          modify (·.note (.wiringInterrupted (pathText (t.path plan))))
          throw (.wire (pathText (t.path plan)) cause) : Refreshing Unit)) a Q ↔ _
  unfold After
  rcases outcome (plan.wireBean b) a with ⟨_ | _, t⟩ <;> rfl

/-! ### What a refresh keeps -/

/-- What a property has to bear so that a refresh keeps it once the beans are
resolved. -/
structure Outlasts (plan : Plan) (P : Assembly → Prop) : Prop where
  admitted : ∀ cs, Keeps P (Refreshing.ofResolving (plan.admitted cs))
  configure : ∀ configuration c, Keeps P (plan.configure configuration c)
  applied : ∀ a, P a → P (a.note .configurationsApplied)
  wireActive : ∀ a, P a → ∀ b ∈ a.registry.active, Keeps P (plan.wireActive b)
  wired : ∀ a, P a → P (a.note .beansWired)

/-- What outlasts a refresh from where its resolution ends, however the refresh ends. -/
theorem refresh_keeps (configurations : List Configuration) {p : Progress} {Q : Assembly → Prop}
    (hresolved : After plan.resolveAll p (Split (fun q => ∃ P : Assembly → Prop, plan.Outlasts P ∧
      P (.start (q.note .beansResolved)) ∧ ∀ a, P a → Q a) fun q => Q (.start q))) :
    After (plan.refresh configurations) (.start p) fun _ t => Q t := by
  unfold refresh
  rw [after_bind, Refreshing.after_ofResolving]
  refine hresolved.mono fun r q hq => ?_
  cases r with
  | error cause => exact hq
  | ok _ =>
    obtain ⟨P, h, hp, hQ⟩ := hq
    simp only [Except.mapError, continues_ok]
    rw [after_bind, after_modify, continues_ok]
    refine (Keeps.after (Carries.bind (h.admitted _) fun admitted => ?_) hp).mono fun _ => hQ
    refine (Refreshing.ofSorted_keeps _).bind fun sorted => ?_
    refine (Carries.forM fun c _ => h.configure c.1 c.2).bind fun _ => ?_
    refine (carries_modify h.applied).bind fun _ => carries_get_bind fun a ha => ?_
    refine Carries.bind (Carries.forM fun b hb => h.wireActive a ha b hb) (fun _ => ?_) a ha
    exact (carries_modify h.wired).bind fun _ =>
      carries_get_bind fun t ht => Refreshing.ofSorted_keeps _ t ht

section
variable {P : Assembly → Prop} {F : Nat → Prop}

/-- Configurations are admitted by lookups and remarks. -/
theorem ofAdmitted_keeps (hnote : ∀ a e, e.IsRemark → e.IsReport → P a → P (a.note e))
    (hfind : ∀ sel, Keeps P (Wiring.ofResolving (plan.find sel))) (cs : List (Configuration × Nat)) :
    Keeps P (Refreshing.ofResolving (plan.admitted cs)) := by
  refine .of_after fun a ha => ?_
  have hfind : ∀ sel, Keeps (fun q => P { a with progress := q }) (plan.find sel) := by
    refine fun sel => .of_after fun q hq => ?_
    have hfound := (hfind sel).after hq
    rwa [Inversion.after_ofResolving] at hfound
  have hkeeps : Keeps (fun q => P { a with progress := q }) (plan.admitted cs) :=
    admitted_keeps_of (P := fun q => P { a with progress := q })
      (fun q e he hq => hnote { a with progress := q } e he.isRemark (by cases e <;> trivial) hq)
      (fun q c title hq =>
        hnote { a with progress := q } (.configurationSkipped c title) trivial trivial hq) hfind cs
  rw [Refreshing.after_ofResolving]
  exact hkeeps.after ha

/-- A configuration gathers its arguments, and notes what it does. -/
theorem Gathers.configure_keeps {configuration : Configuration} {c : Nat}
    (h : plan.Gathers plan.wireBean plan.wireBean (.configuration c) P F)
    (hnoted : ∀ a entry, P a → P (a.note (.noted entry)))
    (hstarted : ∀ a, P a → P (a.note (.configurationStarted c)))
    (happlied : ∀ a, P a → P (a.note (.configurationApplied c configuration.title))) :
    Keeps P (plan.configure configuration c) := by
  unfold configure
  refine (carries_modify hstarted).bind fun _ => ?_
  refine ((gatherAll_agrees h configuration.args).keeps.adapt _).bind fun values => ?_
  refine (carries_modify fun a ha => hnoted a _ ha).bind fun _ => ?_
  cases configuration.failure with
  | some cause => exact carries_throw (fun _ ha => ha) _
  | none => exact carries_modify happlied

/-- A wiring from outside of any constructor, and the note of its failure. -/
theorem wireActive_keeps {b : Nat} (h : Keeps P (plan.wireBean b))
    (hnote : ∀ a path, P a → P (a.note (.wiringInterrupted path))) : Keeps P (plan.wireActive b) := by
  intro a ha
  rw [after_wireActive]
  refine (h.after ha).mono fun r t ht => ?_
  cases r with
  | ok _ => exact ht
  | error cause => exact hnote t _ ht

theorem Endures.outlasts (h : plan.Endures P F)
    (hnote : ∀ a e, e.IsReport → P a → P (a.note e))
    (hactive : ∀ a, P a → ∀ b ∈ a.registry.active, F b ∨ Keeps P (plan.wireActive b)) :
    plan.Outlasts P where
  admitted := ofAdmitted_keeps (fun a e _ he ha => hnote a e he ha)
    fun sel => .of_after fun a ha => (h.find sel a ha).mono fun _ _ ht => ht.1
  configure _ _ :=
    (h.gathers (fun b hb => (h.wire_keeps _ b hb).agrees) _).configure_keeps
      (fun a _ ha => hnote a _ trivial ha) (fun a ha => hnote a _ trivial ha)
      fun a ha => hnote a _ trivial ha
  applied a ha := hnote a _ trivial ha
  wireActive a ha b hb := (hactive a ha b hb).elim
    (fun hb => wireActive_keeps (h.wire_keeps _ b hb) fun a _ ha => hnote a _ trivial ha) id
  wired a ha := hnote a _ trivial ha

end

/-! ### The wiring phase -/

theorem wireActive_reaches (hstd : plan.injector = .standard) (h : plan.Ready a) {b : Nat}
    (hb : b < plan.beans.length) :
    After (plan.wireActive b) a fun r t => Reaches plan ([], a) ([], t) ∧
      (r = .ok () → t.registry.status b = .wired) := by
  have hserved := wireBean_served hstd b [] a h.calm h.unbuilt hb
  rw [after_wireActive]
  refine hserved.mono fun r t ⟨ht, hw⟩ => ?_
  cases r with
  | error cause => exact ⟨Reaches.note ht (by trivial), fun h => by cases h⟩
  | ok _ => exact ⟨ht, fun _ => hw rfl⟩

/-- What the steps of the wiring machine keep outlasts a refresh. -/
theorem outlasts_of_moves (hstd : plan.injector = .standard) {P : Assembly → Prop}
    (hstep : ∀ s t, Moves plan s t → Life plan s → P s.2 → P t.2)
    (hwired : ∀ a, P a → P (a.note .beansWired)) : plan.Outlasts fun a => plan.Ready a ∧ P a := by
  have hrun : ∀ {a t : Assembly}, plan.Ready a ∧ P a → Reaches plan ([], a) ([], t) →
      plan.Ready t ∧ P t := by
    intro a t ha ht
    have hboth : Life plan ([], t) ∧ P t := ht.keeps (P := fun s => Life plan s ∧ P s.2)
      (fun u v hm hu => ⟨hm.life hu.1, hstep u v hm hu.1 hu.2⟩) ⟨ha.1.life, ha.2⟩
    exact ⟨ha.1.reaches ht, hboth.2⟩
  refine ⟨ofAdmitted_keeps (fun a e he _ ha => hrun ha (.single (.note he.isQuiet))) fun sel =>
      .of_after fun a ha => ?_, fun configuration c => .of_after fun a ha => ?_,
    fun a ha => hrun ha (.single (.note trivial)), fun a ha b hb => .of_after fun x hx => ?_,
    fun a ha => ⟨?_, hwired a ha.2⟩⟩
  · rw [Inversion.after_ofResolving]
    exact (find_of_calm ha.1.calm sel).mono fun r p hp => hrun ha (Reaches.remarked .refl hp.1)
  · exact (configure_reaches hstd ha.1 configuration c).mono fun _ t ht => hrun ha ht
  · have hlt : b < plan.beans.length := by
      rw [← ha.1.length]
      exact Registry.lt_length_of_status (Registry.mem_active.mp hb)
    exact (wireActive_reaches hstd hx.1 hlt).mono fun _ t ht => hrun hx ht.1
  · have hlife := ha.1.life
    exact ⟨ha.1.calm, ha.1.length, hlife.nodup, fun b =>
      (hlife.comes b).frame rfl rfl (fun _ => Iff.rfl) (List.append_nil _)⟩

theorem wireAll_reaches (hstd : plan.injector = .standard) :
    ∀ (bs : List Nat) (a : Assembly), plan.Ready a → (∀ b ∈ bs, b < plan.beans.length) →
      After (bs.forM plan.wireActive) a fun r t => Reaches plan ([], a) ([], t) ∧
        (r = .ok () → ∀ b ∈ bs, t.registry.status b = .wired)
  | [], _, _, _ => ⟨.refl, fun _ b hb => absurd hb List.not_mem_nil⟩
  | b :: bs, a, h, hbs => by
    show After (plan.wireActive b >>= fun _ => bs.forM plan.wireActive) a _
    rw [after_bind]
    refine (wireActive_reaches hstd h (hbs b List.mem_cons_self)).mono fun r t ⟨ht, hw⟩ => ?_
    cases r with
    | error cause => exact ⟨ht, fun h => by cases h⟩
    | ok _ =>
      have ih := wireAll_reaches hstd bs t (h.reaches ht) fun c hc => hbs c (List.mem_cons_of_mem _ hc)
      rw [continues_ok]
      refine ih.mono fun r u ⟨hu, hall⟩ => ⟨ht.trans hu, fun hr c hc => ?_⟩
      rcases List.mem_cons.mp hc with rfl | hc
      · exact (Reaches.advanced hu (h.reaches ht).life c).1 (hw rfl)
      · exact hall hr c hc

/-- How a refresh may end. -/
inductive Ends (plan : Plan) : Except RefreshError (List Nat) → Assembly → Prop
  | broken {p : Progress} {t : Assembly} {e : RefreshError} (idle : p.Idle)
    (run : Reaches plan ([], .start p) ([], t)) : Ends plan (.error e) t
  | wired {p : Progress} {t : Assembly} (idle : p.Idle)
    (run : Reaches plan ([], .start p) ([], t))
    (all : ∀ b, t.registry.status b ≠ .deleted → t.registry.status b = .wired) :
    Ends plan ((t.teardownOrder plan).mapError .sort) (t.note .beansWired)

/-- The wiring phase of a refresh. -/
theorem wiring_ends (hstd : plan.injector = .standard) {p : Progress} (hp : p.Idle)
    (h : plan.Ready (.start p)) (admitted : List (Configuration × Nat)) :
    After (do
      let sorted ←
        Refreshing.ofSorted
          (Precedence.arrange (fun c => c.1.title) (fun c d => c.1.runsAfter d.1) admitted)
      sorted.forM fun c => plan.configure c.1 c.2
      modify (·.note .configurationsApplied)
      (← get).progress.registry.active.forM plan.wireActive
      modify (·.note .beansWired)
      Refreshing.ofSorted ((← get).teardownOrder plan)) (.start p) (Ends plan) := by
  rw [after_bind, Refreshing.after_ofSorted]
  cases Precedence.arrange (fun c => c.1.title) (fun c d => c.1.runsAfter d.1) admitted with
  | error cause => exact .broken hp .refl
  | ok sorted =>
    simp only [Except.mapError, continues_ok, after_bind]
    refine (configureAll_reaches hstd sorted _ h).mono fun r t ht => ?_
    cases r with
    | error cause => exact .broken hp ht
    | ok _ =>
      have ht : Reaches plan ([], .start p) ([], t.note .configurationsApplied) :=
        Reaches.note ht (by trivial)
      have hready := h.reaches ht
      simp only [continues_ok, after_bind, after_modify, after_get]
      refine (wireAll_reaches hstd (t.note .configurationsApplied).registry.active _ hready
        fun b hb => ?_).mono fun r u hwired => ?_
      · have hb := Registry.lt_length_of_status (Registry.mem_active.mp hb)
        rwa [hready.length] at hb
      · obtain ⟨hu, hall⟩ := hwired
        have hrun := ht.trans hu
        cases r with
        | error cause => exact .broken hp hrun
        | ok _ =>
          simp only [continues_ok, after_bind, after_modify, after_get, Refreshing.after_ofSorted]
          refine .wired hp hrun fun b hb => hall rfl b ?_
          exact Registry.mem_active.mpr fun hd => hb ((Reaches.advanced hu hready.life b).2.mp hd)

theorem refresh_ends (hstd : plan.injector = .standard) (configurations : List Configuration)
    {p : Progress} (hp : p.Idle) (hlen : p.registry.marks.length = plan.beans.length) :
    After (plan.refresh configurations) (.start p) (Ends plan) := by
  have hresolved := ((resolveAll_calm hlen).and
    (resolveAll_keeps Progress.persists_idle p hp)).and
    (resolveAll_keeps (persists_length plan.beans.length) p hlen)
  unfold refresh
  rw [after_bind, Refreshing.after_ofResolving]
  refine hresolved.mono fun r q hkept => ?_
  obtain ⟨⟨hcalm, hq⟩, hqlen⟩ := hkept
  rw [split_same] at hq hqlen
  cases r with
  | error cause => exact .broken hq .refl
  | ok _ =>
    have hcalm := hcalm rfl
    have hq : (q.note .beansResolved).Idle := hq.note (by trivial)
    have hbegun : After (plan.admitted configurations.zipIdx) (q.note .beansResolved) fun r t =>
        ∀ b, Split (fun t => t.registry.status b ≠ .fresh) (fun t => t.registry.status b ≠ .fresh) r t :=
      fun b => admitted_keeps (persists_begun b) configurations.zipIdx _ (hcalm b)
    have hadmitted := ((admitted_keeps Progress.persists_idle configurations.zipIdx _ hq).and
      (admitted_keeps (persists_length plan.beans.length) configurations.zipIdx
        (q.note .beansResolved) hqlen)).and hbegun
    simp only [Except.mapError, continues_ok, after_bind, after_modify, Refreshing.after_ofResolving]
    refine hadmitted.mono fun r q hkept => ?_
    obtain ⟨⟨hq, hqlen⟩, hcalm⟩ := hkept
    rw [split_same] at hq hqlen
    have hcalm : q.registry.Calm := fun b => by
      have hb := hcalm b
      rwa [split_same] at hb
    have hready : plan.Ready (.start q) := ⟨hcalm, hqlen, hq.life⟩
    cases r with
    | error cause => exact .broken hq .refl
    | ok admitted => exact wiring_ends hstd hq hready admitted

end Plan

/-! ### The end of a refresh -/

def Event.receipt? : Event → Option (Asker × Nat)
  | received asker b => some (asker, b)
  | _ => none

theorem mem_receipts {es : List Event} {asker : Asker} {b : Nat} :
    .received asker b ∈ es ↔ (asker, b) ∈ es.filterMap Event.receipt? := by
  rw [List.mem_filterMap]
  constructor
  · exact fun h => ⟨_, h, rfl⟩
  · rintro ⟨e, he, h⟩
    cases e <;> cases h
    exact he

instance (es : List Event) (asker : Asker) (b : Nat) : Decidable (.received asker b ∈ es) :=
  decidable_of_iff _ mem_receipts.symm

/-- Bean `y` received bean `x`. -/
def Received (es : List Event) (x y : Nat) : Prop :=
  .received (.bean y) x ∈ es

instance (es : List Event) (x y : Nat) : Decidable (Received es x y) :=
  inferInstanceAs (Decidable (_ ∈ _))

/-- Every bean is deleted or wired, its milestones say so, and no creation has
failed. -/
structure Progress.Complete (beans : List Bean) (p : Progress) : Prop where
  all : ∀ b, p.registry.status b ≠ .deleted → p.registry.status b = .wired
  wired : ∀ b bean, beans[b]? = some bean → p.registry.status b = .wired →
    milestones b p.events = bean.milestones
  deleted : ∀ b, p.registry.status b = .deleted → milestones b p.events = []
  held : ∀ b, p.registry.status b = .wired → (p.registry.held b).isSome
  unfailed : ∀ b cause, .creationEnded b (some cause) ∉ p.events
  inTurn : InTurn beans p.events

/-- A list of all beans with a destroyer, each behind its dependents. -/
structure Dismantles (beans : List Bean) (p : Progress) (ds : List Nat) : Prop where
  nodup : ds.Nodup
  mem : ∀ b, b ∈ ds ↔ p.registry.status b = .wired ∧ destroys beans b
  behind : ∀ x y, destroys beans x → destroys beans y → TransGen (Received p.events) x y →
    [y, x].Sublist ds

namespace Plan

variable {plan : Plan} {t : Assembly}

/-- What a refresh leaves behind if all beans are wired. -/
theorem Ends.finished {r : Except RefreshError (List Nat)} (h : plan.Ends r t) :
    (∃ ds es, r = .ok ds ∧ t.progress.Complete plan.beans ∧ Dismantles plan.beans t.progress ds ∧
      t.stack = [] ∧ t.events = .beansWired :: es ∧ ∀ e ∈ es, ¬ e.IsLate) ∨
    ∃ e, r = .error e ∧ ∀ e ∈ t.events, ¬ e.IsLate := by
  have hearly : ∀ {p : Progress}, p.Idle → ∀ e ∈ p.events, ¬ e.IsLate :=
    fun hp e he => (hp.2 e he).isPlain.not_isLate
  cases h with
  | @broken p t e idle run => exact .inr ⟨e, rfl, run.early (hearly idle)⟩
  | @wired p t idle run all =>
    have hlife : Life plan ([], t) := run.life idle.life
    have hnone : ∀ b, ¬ Abandoned ([], t) b := by
      intro b hb
      have hw := all b (by rw [hb.1]; decide)
      rw [hb.1] at hw
      cases hw
    have hordered : Ordered plan ([], t) :=
      (run.ordered idle.life idle.ordered).resolve_right fun ⟨b, hb⟩ => hnone b hb
    obtain ⟨ds, hds, hperm, hbehind⟩ := hordered.teardownOrder
    have hmilestones : ∀ b, milestones b (t.note .beansWired).events = milestones b t.events :=
      fun b => List.append_nil _
    refine .inl ⟨ds, t.events, by rw [hds]; rfl, ⟨all, fun b bean hb hw => ?_, fun b hd => ?_,
      fun b hw => (hlife.comes b).held hw, fun b cause hb => ?_, ?_⟩, ⟨?_, fun b => ?_, ?_⟩,
      hordered.stack, rfl, run.early (hearly idle)⟩
    · exact (hmilestones b).trans ((hlife.comes b).all hw hb)
    · refine (hmilestones b).trans ((hlife.comes b).none ?_ ?_)
      · exact fun hc => by rw [show t.registry.status b = .deleted from hd] at hc; cases hc
      · exact fun hc => by rw [show t.registry.status b = .deleted from hd] at hc; cases hc
    · rcases List.mem_cons.mp hb with hb | hb
      · cases hb
      · exact hnone b (run.failures idle.life idle.failures b cause hb)
    · exact @InTurn.append plan.beans [.beansWired] _ (by simp) (run.inTurn idle.life idle.inTurn)
    · exact hperm.nodup_iff.mpr hordered.kept
    · exact hperm.mem_iff.trans (hordered.destroyers b)
    · intro x y hx hy hxy
      have hedges : ∀ x y, Received (t.note .beansWired).events x y → Edge t.edges x y := by
        intro x y h
        rcases List.mem_cons.mp h with h | h
        · cases h
        · exact hordered.received x y h
      have hpath : TransGen (Edge t.edges) x y := TransGen.mono hedges x y hxy
      have hsub : [y, x].Sublist (completed t.events) := hordered.sublist rfl hpath
      have hkept : ∀ z ∈ [y, x], destroys plan.beans z → z ∈ t.destroyers := fun z hz hd =>
        (hordered.destroyers z).mpr ⟨(hordered.wired z).mp (hsub.subset hz), hd⟩
      exact hbehind x (hkept x (by simp) hx) y (hkept y (by simp) hy) hpath

/-- No constructor runs twice, however a refresh ends. -/
theorem Ends.begins {r : Except RefreshError (List Nat)} (h : plan.Ends r t) {b : Nat} {bean : Bean}
    (hb : plan.beans[b]? = some bean) : milestones b t.events <+: bean.milestones := by
  cases h with
  | broken idle run => exact ((run.life idle.life).comes b).begins hb
  | @wired p t idle run all =>
    rw [show milestones b (t.note .beansWired).events = milestones b t.events from List.append_nil _]
    exact ((run.life idle.life).comes b).begins hb

end Plan
end Inversion
