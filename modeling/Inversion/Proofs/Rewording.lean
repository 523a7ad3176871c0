/-
# Conditions in other words

The conditions of beans and configurations may be put into other words by the laws of their
algebra, in as many places as one likes. A container does not notice: all operations answer the
same and leave the same behind, down to the journal, with the words for the only
difference (`Container.Reworded.performAll`). What refreshes need for this is that they read
conditions by evaluating them and in no other way (`Plan.Reworded.refresh`).
-/
import Inversion.Container
import Inversion.Proofs.Precedence
import Inversion.Proofs.Refresh
import Inversion.Proofs.Wiring.Rewording

namespace Inversion

/-! ### Refreshes -/

namespace Refreshing

variable {α β : Type} (f : α → β)

theorem ofResolving_map (x : Resolving α) : ofResolving (f <$> x) = f <$> ofResolving x := by
  funext a
  refine outcome_congr fun Q => ?_
  show After (ofResolving (f <$> x)) a Q ↔ After (f <$> ofResolving x) a Q
  rw [after_ofResolving, after_map, after_map, after_ofResolving]
  refine iff_of_eq (congrArg (After x a.progress) (funext fun r => funext fun p => ?_))
  cases r <;> rfl

theorem ofSorted_map (x : Except SortError α) : ofSorted (x.map f) = f <$> ofSorted x := by
  cases x <;> rfl

end Refreshing

/-- The configuration in the words of the one that stands in its place. -/
def Configuration.inWordsOf (configurations : List Configuration) (x : Configuration × Nat) :
    Configuration × Nat :=
  ({ x.1 with conditions := (configurations[x.2]?).elim [] Configuration.conditions }, x.2)

section
variable {cs cs' : List Configuration} (h : List.Forall₂ Configuration.Reworded cs cs')
include h

theorem zipIdx_inWordsOf : cs'.zipIdx = cs.zipIdx.map (Configuration.inWordsOf cs') := by
  refine List.ext_getElem? fun i => ?_
  rw [List.getElem?_map, List.getElem?_zipIdx, List.getElem?_zipIdx]
  rcases getElem?_of_forall₂ h i with ⟨hi, hi'⟩ | ⟨c, c', hi, hi', hr⟩
  · rw [hi, hi']
    rfl
  · rw [hi, hi']
    simp [Configuration.inWordsOf, hi', ← hr.rest]

theorem reworded_inWordsOf {x : Configuration × Nat} (hx : x ∈ cs.zipIdx) :
    x.1.Reworded (Configuration.inWordsOf cs' x).1 := by
  obtain ⟨c, i⟩ := x
  have hi : cs[i]? = some c := List.mk_mem_zipIdx_iff_getElem?.mp hx
  rcases getElem?_of_forall₂ h i with ⟨hnone, -⟩ | ⟨d, c', hd, hi', hr⟩
  · cases hi.symm.trans hnone
  · cases hi.symm.trans hd
    refine ⟨?_, rfl⟩
    simpa [Configuration.inWordsOf, hi'] using hr.conditions

end

namespace Plan.Reworded

variable {plan plan' : Plan} (h : plan.Reworded plan')
include h

theorem teardownOrder : Assembly.teardownOrder plan' = Assembly.teardownOrder plan := by
  funext a
  unfold Assembly.teardownOrder
  rw [h.idOf]

theorem tearDown : plan'.tearDown = plan.tearDown := by
  funext p b
  unfold Plan.tearDown
  rcases h.getElem? b with ⟨hb, hb'⟩ | ⟨bean, cs, hb, hb', -⟩
  · rw [hb, hb']
  · rw [hb, hb']
    rfl

variable (hinjector : plan'.injector = plan.injector)
include hinjector

theorem wireActive (b : Nat) : plan'.wireActive b = plan.wireActive b := by
  unfold Plan.wireActive
  rw [h.wireBean hinjector, h.path]

/-- A refresh reads the conditions of beans and configurations only to evaluate them. -/
theorem refresh {cs cs' : List Configuration} (hcs : List.Forall₂ Configuration.Reworded cs cs') :
    plan'.refresh cs' = plan.refresh cs := by
  have hadmitted : plan'.admitted cs'.zipIdx =
      List.map (Configuration.inWordsOf cs') <$> plan.admitted cs.zipIdx := by
    rw [zipIdx_inWordsOf hcs]
    exact h.admitted _ cs.zipIdx fun x hx => ⟨reworded_inWordsOf hcs hx, rfl⟩
  have harrange (admitted : List (Configuration × Nat)) :
      Precedence.arrange (fun c => c.1.title) (fun c d => c.1.runsAfter d.1)
          (admitted.map (Configuration.inWordsOf cs')) =
        (Precedence.arrange (fun c => c.1.title) (fun c d => c.1.runsAfter d.1) admitted).map
          (List.map (Configuration.inWordsOf cs')) :=
    Precedence.arrange_map _ admitted
  have hconfigure : (fun x : Configuration × Nat =>
      plan'.configure (Configuration.inWordsOf cs' x).1 (Configuration.inWordsOf cs' x).2) =
      fun x => plan.configure x.1 x.2 :=
    funext fun x => h.configure hinjector x.1 _ x.2
  unfold Plan.refresh
  rw [h.resolveAll, hadmitted, h.teardownOrder,
    show plan'.wireActive = plan.wireActive from funext (h.wireActive hinjector)]
  -- the words go along until the configurations are run
  simp only [Refreshing.ofResolving_map, bind_map_left, harrange, Refreshing.ofSorted_map, forM_map,
    hconfigure]

end Plan.Reworded

/-! ### Registrations -/

namespace Bean.Reworded

variable {bean bean' : Bean} (h : bean.Reworded bean')
include h

theorem id : bean'.id = bean.id := by
  rw [h.rest]
  rfl

theorem description : bean'.description = bean.description := by
  rw [h.rest]
  rfl

end Bean.Reworded

theorem ofBeans_of_reworded {bs bs' : List Bean} (h : List.Forall₂ Bean.Reworded bs bs') :
    Registry.ofBeans bs' = Registry.ofBeans bs := by
  have hids : bs'.map Bean.id = bs.map Bean.id := by
    induction h with
    | nil => rfl
    | cons hb _ ih => rw [List.map_cons, List.map_cons, hb.id, ih]
  have hplaces : ∀ cs : List Bean, cs.zipIdx.map (fun x => (x.1.id, x.2)) =
      (cs.map Bean.id).zipIdx := fun cs => by
    rw [List.zipIdx_map]
    rfl
  unfold Registry.ofBeans
  rw [List.map_const', List.map_const', h.length_eq]
  congr 1
  exact (hplaces bs').trans (hids ▸ (hplaces bs).symm)

/-- The panic at a bean whose identity is taken. -/
def Panic.ofClash (clash : Bean × Bean) : Panic :=
  .duplicate clash.1.description clash.2.description

/-- Beans in other words are enrolled alike, up to the same clash. -/
theorem enroll_reworded {bs bs' : List Bean} (h : List.Forall₂ Bean.Reworded bs bs') :
    ∀ {accepted accepted' : List Bean}, List.Forall₂ Bean.Reworded accepted accepted' →
      List.Forall₂ Bean.Reworded (enroll accepted bs).1 (enroll accepted' bs').1 ∧
        (enroll accepted' bs').2.map Panic.ofClash = (enroll accepted bs).2.map Panic.ofClash := by
  induction h with
  | nil => exact fun haccepted => ⟨haccepted, rfl⟩
  | @cons b b' bs bs' hb hbs ih =>
    intro accepted accepted' haccepted
    have hfound : List.Forall₂ Bean.Reworded (accepted.filter fun a => a.id == b.id)
        (accepted'.filter fun a => a.id == b'.id) :=
      List.rel_filter (fun a a' ha => by dsimp only; rw [ha.id, hb.id]) haccepted
    rw [enroll, enroll, ← List.head?_filter, ← List.head?_filter, List.head?_eq_getElem?,
      List.head?_eq_getElem?]
    rcases getElem?_of_forall₂ hfound 0 with ⟨hnone, hnone'⟩ | ⟨a, a', ha, ha', hr⟩
    · rw [hnone, hnone']
      exact ih (List.rel_append haccepted (.cons hb .nil))
    · rw [ha, ha']
      refine ⟨haccepted, ?_⟩
      simp only [Option.map_some, Panic.ofClash, hr.description, hb.description]

/-! ### Containers -/

/-- The same operation, with a bean or a configuration in other words. -/
inductive Operation.Reworded : Operation → Operation → Prop
  | register {bean bean' : Bean} (h : bean.Reworded bean') : Reworded (.register bean) (.register bean')
  | configure {configuration configuration' : Configuration}
    (h : configuration.Reworded configuration') :
    Reworded (.configure configuration) (.configure configuration')
  | same (op : Operation) : Reworded op op

namespace Container

/-- The same container, with beans and configurations in other words. -/
inductive Reworded (c : Container) : Container → Prop
  | intro {pending beans : List Bean} {configurations : List Configuration}
    (hpending : List.Forall₂ Bean.Reworded c.pending pending)
    (hbeans : List.Forall₂ Bean.Reworded c.beans beans)
    (hconfigurations : List.Forall₂ Configuration.Reworded c.configurations configurations) :
    Reworded c { c with pending, beans, configurations }

/-- The same results, with the containers behind them in other words. -/
def Echoes {α : Type} (x x' : α × Container) : Prop :=
  x'.1 = x.1 ∧ x.2.Reworded x'.2

variable {c c' : Container}

theorem Reworded.refl (c : Container) : c.Reworded c :=
  .intro (List.forall₂_same.mpr fun bean _ => .refl bean)
    (List.forall₂_same.mpr fun bean _ => .refl bean)
    (List.forall₂_same.mpr fun configuration _ => .refl configuration)

theorem Echoes.map {α β : Type} {x x' : α × Container} (h : Echoes x x') (f : α → β) :
    Echoes (x.map f id) (x'.map f id) :=
  ⟨congrArg f h.1, h.2⟩

namespace Reworded

theorem plan (h : c.Reworded c') : c.plan.Reworded c'.plan := by
  cases h with
  | intro _ hbeans _ => exact ⟨hbeans, rfl, rfl, rfl⟩

theorem freeze (h : c.Reworded c') : Echoes c.freeze c'.freeze := by
  cases h with
  | intro hpending _ hconfigurations =>
    obtain ⟨hbeans, hclash⟩ := enroll_reworded hpending .nil
    refine ⟨hclash, ?_⟩
    unfold Container.freeze
    dsimp only
    rw [ofBeans_of_reworded hbeans]
    exact .intro .nil hbeans hconfigurations

theorem complete (h : c.Reworded c') : Echoes c.complete c'.complete := by
  have hplan := h.plan
  cases h with
  | intro hpending hbeans hconfigurations =>
    unfold Container.complete
    rw [hplan.refresh rfl hconfigurations]
    dsimp only
    rcases ((c.plan.refresh c.configurations).run).run (.start c.progress) with ⟨r, a⟩
    cases r with
    | ok destroyers => exact ⟨rfl, .intro hpending hbeans .nil⟩
    | error e =>
      cases e with
      | resolve cause =>
        cases hf : cause.isFatal <;> simp only [hf] <;> exact ⟨rfl, .intro hpending hbeans .nil⟩
      | _ => exact ⟨rfl, .intro hpending hbeans .nil⟩

theorem phase (h : c.Reworded c') : c'.phase = c.phase := by
  cases h
  rfl

theorem progress (h : c.Reworded c') : c'.progress = c.progress := by
  cases h
  rfl

theorem refresh (h : c.Reworded c') : Echoes c.refresh c'.refresh := by
  unfold Container.refresh
  rw [h.phase]
  cases c.phase with
  | unrefreshed =>
    have hfreeze := h.freeze
    rcases hf : c.freeze with ⟨clash, frozen⟩
    rcases hf' : c'.freeze with ⟨clash', frozen'⟩
    rw [hf, hf'] at hfreeze
    obtain ⟨hclash, hfrozen⟩ := hfreeze
    dsimp only at hclash hfrozen
    subst hclash
    cases clash' with
    | some panic => exact ⟨rfl, hfrozen⟩
    | none => exact hfrozen.complete
  | _ => exact ⟨rfl, h⟩

theorem find (h : c.Reworded c') (sel : Selector) : Echoes (c.find sel) (c'.find sel) := by
  have hplan := h.plan
  unfold Container.find
  rw [h.phase, hplan.find, hplan.lookup]
  cases c.phase with
  | unrefreshed => exact ⟨rfl, h⟩
  | _ =>
    cases h with
    | intro hpending hbeans hconfigurations =>
      exact ⟨rfl, .intro hpending hbeans hconfigurations⟩

theorem note (h : c.Reworded c') (e : Event) : (c.note e).Reworded (c'.note e) := by
  cases h with
  | intro hpending hbeans hconfigurations => exact .intro hpending hbeans hconfigurations

theorem exited (h : c.Reworded c') (phase : Phase) (supervisor : Supervisor) :
    Reworded { c with phase, supervisor } { c' with phase, supervisor } := by
  cases h with
  | intro hpending hbeans hconfigurations => exact .intro hpending hbeans hconfigurations

theorem torn (h : c.Reworded c') :
    Reworded
      { c with destroyers := [], progress := c.destroyers.foldl c.plan.tearDown c.progress }
      { c' with destroyers := [], progress := c'.destroyers.foldl c'.plan.tearDown c'.progress } := by
  rw [h.plan.tearDown]
  cases h with
  | intro hpending hbeans hconfigurations => exact .intro hpending hbeans hconfigurations

theorem close (h : c.Reworded c') : Echoes c.close c'.close := by
  have hsupervisor : c'.supervisor = c.supervisor := by
    cases h
    rfl
  unfold Container.close
  rw [h.phase, hsupervisor]
  cases c.phase with
  | refreshed =>
    have hexited := (h.exited .refreshed c.supervisor.shutDown).note .tasksExited
    exact ⟨rfl, hexited.torn.note .closed⟩
  | _ => exact ⟨rfl, h⟩

theorem register (h : c.Reworded c') {bean bean' : Bean} (hb : bean.Reworded bean') :
    Echoes (c.register bean) (c'.register bean') := by
  unfold Container.register
  rw [h.phase]
  cases c.phase with
  | unrefreshed =>
    cases h with
    | intro hpending hbeans hconfigurations =>
      exact ⟨congrArg Except.ok hb.id,
        .intro (List.rel_append hpending (.cons hb .nil)) hbeans hconfigurations⟩
  | _ => exact ⟨rfl, h⟩

theorem configure (h : c.Reworded c') {configuration configuration' : Configuration}
    (hc : configuration.Reworded configuration') :
    Echoes (c.configure configuration) (c'.configure configuration') := by
  unfold Container.configure
  rw [h.phase]
  cases c.phase with
  | unrefreshed =>
    cases h with
    | intro hpending hbeans hconfigurations =>
      exact ⟨rfl, .intro hpending hbeans (List.rel_append hconfigurations (.cons hc .nil))⟩
  | _ => exact ⟨rfl, h⟩

theorem setProperty (h : c.Reworded c') (key : String) (setting : Setting) :
    Echoes (c.setProperty key setting) (c'.setProperty key setting) := by
  unfold Container.setProperty
  rw [h.phase]
  cases c.phase with
  | unrefreshed =>
    cases h with
    | intro hpending hbeans hconfigurations =>
      exact ⟨rfl, .intro hpending hbeans hconfigurations⟩
  | _ => exact ⟨rfl, h⟩

theorem load (h : c.Reworded c') (file : String) (content : FileContent) :
    Echoes (c.load file content) (c'.load file content) := by
  unfold Container.load
  rw [h.phase]
  cases c.phase with
  | unrefreshed =>
    cases h with
    | intro hpending hbeans hconfigurations =>
      dsimp only
      rcases c.properties.loadFile file content with ⟨_ | _, properties⟩ <;>
        exact ⟨rfl, .intro hpending hbeans hconfigurations⟩
  | _ => exact ⟨rfl, h⟩

theorem get (h : c.Reworded c') (t : TypeName) : c'.get t = c.get t := by
  have hplan := h.plan
  unfold Container.get
  rw [hplan.singleInstance, hplan.lookup]
  cases h
  rfl

theorem getNamed (h : c.Reworded c') (t : TypeName) (name : String) :
    c'.getNamed t name = c.getNamed t name := by
  have hplan := h.plan
  unfold Container.getNamed
  rw [hplan.singleInstance, hplan.lookup]
  cases h
  rfl

theorem getAll (h : c.Reworded c') (t : TypeName) : c'.getAll t = c.getAll t := by
  have hplan := h.plan
  unfold Container.getAll
  rw [hplan.allInstances, hplan.lookup]
  cases h
  rfl

theorem perform (h : c.Reworded c') {op op' : Operation} (hop : op.Reworded op') :
    Echoes (c.perform op) (c'.perform op') := by
  cases hop with
  | register hb => exact (h.register hb).map _
  | configure hc => exact (h.configure hc).map _
  | same =>
    cases op with
    | register bean => exact (h.register (.refl bean)).map _
    | configure configuration => exact (h.configure (.refl configuration)).map _
    | setProperty key setting => exact (h.setProperty key setting).map _
    | load file content => exact (h.load file content).map _
    | refresh => exact h.refresh.map _
    | find sel => exact (h.find sel).map _
    | get t => exact ⟨congrArg (Answer.ofResult .wireFailed .one) (h.get t), h⟩
    | getNamed t name => exact ⟨congrArg (Answer.ofResult .wireFailed .one) (h.getNamed t name), h⟩
    | getAll t => exact ⟨congrArg (Answer.ofResult .wireFailed .many) (h.getAll t), h⟩
    | spawn script =>
      cases h with
      | intro hpending hbeans hconfigurations =>
        exact ⟨rfl, .intro hpending hbeans hconfigurations⟩
    | cancel =>
      cases h with
      | intro hpending hbeans hconfigurations =>
        exact ⟨rfl, .intro hpending hbeans hconfigurations⟩
    | close => exact h.close.map _

theorem performAll {ops ops' : List Operation} (hops : List.Forall₂ Operation.Reworded ops ops') :
    ∀ {c c' : Container}, c.Reworded c' → Echoes (c.performAll ops) (c'.performAll ops') := by
  induction hops with
  | nil => exact fun h => ⟨rfl, h⟩
  | cons hop _ ih =>
    intro c c' h
    obtain ⟨hanswer, hnext⟩ := h.perform hop
    obtain ⟨hanswers, hlast⟩ := ih hnext
    exact ⟨congrArg₂ List.cons hanswer hanswers, hlast⟩

end Reworded

/-- Negation passes to the members of a group, two negations cancel, groups of one kind dissolve
into one another, and conditions that have to hold one by one are one group; all of it with the
effects and the failures of the members, in whatever plan and for whatever lookups. Conditions that
come to the same may stand for one another inside all others. In whatever state a container is, it
answers the same to operations that register beans and configurations in such other words, and
what it comes to is the same, its history and its registry included. -/
theorem conditions_algebra :
    (∀ cs, (Condition.not (.all cs)).Alike (.any (cs.map .not))) ∧
      (∀ cs, (Condition.not (.any cs)).Alike (.all (cs.map .not))) ∧
      (∀ c, (Condition.not (.not c)).Alike c) ∧
      (∀ cs ds es, (Condition.all (cs ++ .all ds :: es)).Alike (.all (cs ++ ds ++ es))) ∧
      (∀ cs ds es, (Condition.any (cs ++ .any ds :: es)).Alike (.any (cs ++ ds ++ es))) ∧
      (∀ cs, Condition.AllAlike cs [.all cs]) ∧
      (∀ c c', c.Alike c' → (Condition.not c).Alike (.not c') ∧
        ∀ message, (Condition.context message c).Alike (.context message c')) ∧
      (∀ cs cs', List.Forall₂ Condition.Alike cs cs' →
        (Condition.all cs).Alike (.all cs') ∧ (Condition.any cs).Alike (.any cs') ∧
          Condition.AllAlike cs cs') ∧
      ∀ (c : Container) (ops ops' : List Operation), List.Forall₂ Operation.Reworded ops ops' →
        Echoes (c.performAll ops) (c.performAll ops') := by
  refine ⟨fun cs plan find => (holds_not_all cs).symm, fun cs plan find => (holds_not_any cs).symm,
    fun c plan find => (holds_not_not c).symm, fun cs ds es plan find => ?_,
    fun cs ds es plan find => ?_, Condition.allAlike_all, fun c c' h => ⟨h.not, h.context⟩,
    fun cs cs' h => ⟨.all h, .any h, .of_members h⟩,
    fun c ops ops' hops => Reworded.performAll hops (.refl c)⟩
  · simp only [Condition.holds, allHold_flatten]
  · simp only [Condition.holds, anyHolds_flatten]

/-- A cache on top of a store and a configuration that fills it, under the same conditions. -/
def caching (conditions : List Condition) : List Operation :=
  [.register { Bean.plain (.of "app::Cache") (.main 1) (.constructor ⟨[], .part, "cache", none⟩) with
      conditions },
    .register (.plain (.of "app::Store") (.main 2) (.constructor ⟨[], .part, "store", none⟩)),
    .configure ⟨.main 3, some "fill", [.one (.of "app::Cache")], [], [], conditions, "fill", none⟩,
    .refresh]

theorem conditions_algebra_of_caching :
    let stored : Condition := .beans .some (.type (.of "app::Store"))
    let off : Condition := .property "cache.off" none false
    let remote : Condition := .property "cache.remote" none false
    let c := ((empty .standard ⟨[]⟩).performAll
      (caching [stored, .not (.any [off, remote])])).2
    let c' := ((empty .standard ⟨[]⟩).performAll
      (caching [.all [stored, .all [.not off, .not remote]]])).2
    c.Reworded c' ∧ c.phase = .refreshed ∧ c'.registry.typed (.of "app::Cache") = [0] ∧
      c'.progress = c.progress := by
  intro stored off remote c c'
  obtain ⟨-, hany, -, -, -, hgroup, -, hmembers, hruns⟩ := conditions_algebra
  have hsame : Condition.AllAlike [stored, .not (.any [off, remote])]
      [.all [stored, .all [.not off, .not remote]]] := fun plan find => by
    have hinside := (hmembers [stored, .not (.any [off, remote])] _
      (.cons (fun _ _ => rfl) (.cons (hany [off, remote]) .nil))).2.2
    exact (hgroup _ plan find).trans (hinside plan find)
  have hops : List.Forall₂ Operation.Reworded (caching [stored, .not (.any [off, remote])])
      (caching [.all [stored, .all [.not off, .not remote]]]) :=
    .cons (.register ⟨hsame, rfl⟩) (.cons (.same _) (.cons (.configure ⟨hsame, rfl⟩)
      (.cons (.same _) .nil)))
  have hreworded : c.Reworded c' := (hruns (empty .standard ⟨[]⟩) _ _ hops).2
  exact ⟨hreworded, by decide +kernel, by decide +kernel, hreworded.progress⟩

end Container
end Inversion
