/-
# Keeping a destroyer again

An injector may go the standard way and keep the bean's destroyer again afterwards, any
number of times. This changes nothing. The standard way ends with a bean that is wired,
and the destroyers of wired beans are kept already, outside of their creations (`Secured`).
So a refresh comes to the same as with the standard injector (`refresh_usual`).
-/
import Inversion.Proofs.Refresh
import Inversion.Proofs.Wiring.Rewording

namespace Inversion

/-! ### Procedures -/

/-- Procedures that do nothing but keep a bean's destroyer, whatever they look at. -/
inductive Procedure.OnlyKeeps (b : Nat) : Procedure → Prop
  | done : OnlyKeeps b .done
  | look {next : View → Procedure} (h : ∀ view, (next view).OnlyKeeps b) : OnlyKeeps b (.look next)
  | keepDestroyer {next : Procedure} (h : next.OnlyKeeps b) : OnlyKeeps b (.keepDestroyer b next)

theorem Procedure.andThen_done : ∀ p : Procedure, p.andThen .done = p
  | done => rfl
  | refuse _ => rfl
  | look next => congrArg look (funext fun view => andThen_done (next view))
  | find sel next => congrArg (find sel) (funext fun found => andThen_done (next found))
  | get t name next => congrArg (get t name) (funext fun i => andThen_done (next i))
  | getAll t next => congrArg (getAll t) (funext fun is => andThen_done (next is))
  | wire b next => congrArg (wire b) (funext fun r => andThen_done (next r))
  | create b next => congrArg (create b) (funext fun r => andThen_done (next r))
  | enter b next => congrArg (enter b) (andThen_done next)
  | leave next => congrArg leave (andThen_done next)
  | keepDestroyer b next => congrArg (keepDestroyer b) (andThen_done next)
  | note entry next => congrArg (note entry) (andThen_done next)
  | report b next => congrArg (report b) (andThen_done next)

namespace Injector

/-- The injector goes the standard way, and then at most keeps the bean's destroyer again. -/
def KeepsAgain (injector : Injector) : Prop :=
  injector.depth = standard.depth ∧ ∃ further : Nat → String → TypeName → Procedure,
    (∀ b id t, (further b id t).OnlyKeeps b) ∧
    ∀ b id t, injector.procedure b id t = (standard.procedure b id t).andThen (further b id t)

theorem keepsAgain_standard : standard.KeepsAgain :=
  ⟨rfl, fun _ _ _ => .done, fun _ _ _ => .done, fun b id t =>
    ((standard.procedure b id t).andThen_done).symm⟩

theorem keepsAgain_double : double.KeepsAgain :=
  ⟨rfl, fun b _ _ => .keepDestroyer b (.keepDestroyer b .done),
    fun _ _ _ => .keepDestroyer (.keepDestroyer .done), fun _ _ _ => rfl⟩

end Injector

namespace Plan

variable {plan : Plan} {wire wire' : Nat → Wiring Unit} {b : Nat} {a : Assembly}

theorem runProcedure_andThen {create : Nat → Wiring Unit} : ∀ p q : Procedure,
    plan.runProcedure wire create b (p.andThen q) =
      (plan.runProcedure wire create b p >>= fun _ => plan.runProcedure wire create b q)
  | .done, q => by rw [Procedure.andThen, runProcedure, pure_bind]
  | .refuse _, _ => rfl
  | .look next, q => by
    simp only [Procedure.andThen, runProcedure, bind_assoc, runProcedure_andThen (next _) q]
  | .find _ next, q => by
    simp only [Procedure.andThen, runProcedure, bind_assoc, runProcedure_andThen (next _) q]
  | .get _ _ next, q => by
    simp only [Procedure.andThen, runProcedure, bind_assoc, runProcedure_andThen (next _) q]
  | .getAll _ next, q => by
    simp only [Procedure.andThen, runProcedure, bind_assoc, runProcedure_andThen (next _) q]
  | .wire _ next, q => by
    simp only [Procedure.andThen, runProcedure, bind_assoc, runProcedure_andThen (next _) q]
  | .create _ next, q => by
    simp only [Procedure.andThen, runProcedure, bind_assoc, runProcedure_andThen (next _) q]
  | .enter _ next, q => by
    simp only [Procedure.andThen, runProcedure, bind_assoc, runProcedure_andThen next q]
  | .leave next, q => by
    simp only [Procedure.andThen, runProcedure, bind_assoc, runProcedure_andThen next q]
  | .keepDestroyer _ next, q => by
    simp only [Procedure.andThen, runProcedure, bind_assoc, runProcedure_andThen next q]
  | .note _ next, q => by
    simp only [Procedure.andThen, runProcedure, bind_assoc, runProcedure_andThen next q]
  | .report _ next, q => by
    simp only [Procedure.andThen, runProcedure, bind_assoc, runProcedure_andThen next q]

theorem keepDestroyer_of_kept (h : destroys plan.beans b → b ∈ a.destroyers) :
    a.keepDestroyer plan b = a := by
  unfold Assembly.keepDestroyer
  rw [if_neg]
  exact fun ⟨hd, hb⟩ => hb (h hd)

/-- To keep a destroyer that is kept changes nothing. -/
theorem runProcedure_onlyKeeps {create : Nat → Wiring Unit} {p : Procedure} (hp : p.OnlyKeeps b)
    (h : destroys plan.beans b → b ∈ a.destroyers) :
    outcome (plan.runProcedure wire create b p) a = (.ok (), a) := by
  induction hp with
  | done => rfl
  | look _ ih => exact ih _
  | @keepDestroyer next _ ih =>
    show outcome (plan.runProcedure wire create b next) (a.keepDestroyer plan b) = _
    rw [keepDestroyer_of_kept h, ih]

/-! ### The plan with the standard injector -/

abbrev usual (plan : Plan) : Plan :=
  plan.withInjector .standard

/-- Nothing is kept of a bean of another container. -/
theorem shuns_keepsAgain (h : plan.injector.KeepsAgain) : plan.Shuns := by
  obtain ⟨-, further, -, hfurther⟩ := h
  intro wire s a
  have hstatus : ∀ a : Assembly, (plan.view a).status plan.beans.length = .deleted := fun a =>
    if_neg (Nat.lt_irrefl _)
  refine outcome_congr (x := plan.meet wire s) (y := throw (.notResolved s.id)) fun Q => ?_
  unfold meet
  rw [hfurther, Injector.standard, Procedure.andThen, after_bind, after_modify, continues_ok,
    runProcedure, after_bind, after_get, continues_ok, hstatus]
  rfl

theorem meet_usual (h : plan.injector.KeepsAgain) : plan.usual.meet = plan.meet :=
  funext fun wire => funext fun s => funext fun a =>
    (shuns_standard rfl wire s a).trans (shuns_keepsAgain h wire s a).symm

theorem gather_usual (h : plan.injector.KeepsAgain) (asker : Asker) (arg : Arg) :
    plan.gather wire asker arg = plan.usual.gather wire asker arg :=
  (reworded_withInjector.gather (meet_usual h) wire asker arg).symm

theorem create_usual (h : plan.injector.KeepsAgain) : plan.create wire = plan.usual.create wire :=
  funext fun b => (reworded_withInjector.create (meet_usual h) wire b).symm

theorem runProcedure_usual {create : Nat → Wiring Unit} (p : Procedure) :
    plan.runProcedure wire create b p = plan.usual.runProcedure wire create b p :=
  (reworded_withInjector.runProcedure wire create b p).symm

theorem wireBean_usual (h : plan.injector.KeepsAgain) :
    plan.wireBean = plan.wire (plan.beans.length + 1) := by
  funext b
  rw [wireBean, h.1, Injector.standard, Nat.add_zero]

/-! ### Kept destroyers -/

/-- The destroyers of all wired beans are kept. -/
def Secured (plan : Plan) (a : Assembly) : Prop :=
  ∀ b, a.registry.status b = .wired → destroys plan.beans b → b ∈ a.destroyers

theorem Secured.of_same {a a' : Assembly} (h : plan.Secured a) (hr : a'.registry = a.registry)
    (hd : a'.destroyers = a.destroyers) : plan.Secured a' := by
  intro b
  rw [hr, hd]
  exact h b

/-- Lookups wire no bean. -/
theorem find_secured (sel : Selector) :
    Keeps plan.Secured (Wiring.ofResolving (plan.find sel)) := by
  refine .of_after fun a ha => ?_
  have hpersists : plan.Persists fun p =>
      ∀ b, p.registry.status b = .wired → destroys plan.beans b → b ∈ a.destroyers :=
    .all fun b => persists_status (P := fun s => s = .wired → destroys plan.beans b → _)
      nofun nofun nofun b
  rw [after_ofResolving]
  exact (find_keeps hpersists sel).after ha

theorem gathers_secured (hs : plan.Shuns) (hw : ∀ b, Agrees plan.Secured (wire b) (wire' b))
    (asker : Asker) : plan.Gathers wire wire' asker plan.Secured fun _ => True where
  find sel a ha := ((find_secured sel).after ha).mono fun _ _ ht => ⟨ht, fun _ _ _ _ => trivial⟩
  receive _ b _ := receive_agrees (hw b)
    (fun a ha => ha.of_same (by rw [Assembly.registry, Assembly.progress_connect])
      Assembly.destroyers_connect) fun a ha => ha.of_same rfl rfl
  denied a _ ha := ha.of_same rfl rfl
  meet := hs.meet_agrees fun _ _ ha => ha.of_same rfl rfl

/-- While a creation ends, the destroyer of its bean is still to be kept. -/
theorem create_secured (hs : plan.Shuns) (hw : ∀ b, Agrees plan.Secured (wire b) (wire' b))
    {bean : Bean} (hb : plan.beans[b]? = some bean) (ha : plan.Secured a) :
    outcome (plan.create wire b) a = outcome (plan.create wire' b) a ∧
      After (plan.create wire b) a (Split (fun t => plan.Secured (t.keepDestroyer plan b))
        plan.Secured) := by
  have hbegun : plan.Secured (a.setStatus b .creating) := by
    intro c hc
    have hc : (a.registry.setStatus b .creating).status c = .wired := hc
    rw [Registry.status_setStatus] at hc
    split at hc
    · cases hc
    · exact ha c hc
  obtain ⟨he, hk⟩ := (gathers_secured hs hw (.bean b)).obtain_agrees
    (fun x hx => hx.of_same rfl rfl) (fun x hx => hx.of_same rfl rfl)
    (fun x hx => hx.of_same rfl rfl) _ hbegun
  refine ⟨outcome_congr fun Q => ?_, ?_⟩
  · rw [after_create hb, after_create hb]
    unfold After
    rw [he]
  · rw [after_create hb]
    refine hk.mono fun r t ht => ?_
    cases r with
    | error cause => exact ht.of_same rfl rfl
    | ok i =>
      refine (initialise_keeps b bean i (fun x hx => hx.of_same rfl rfl) t ht).mono
        fun r x hx => ?_
      cases r with
      | error cause => exact Secured.of_same hx rfl rfl
      | ok _ =>
        intro c hc hd
        rw [Assembly.mem_destroyers_keepDestroyer]
        by_cases hcb : c = b
        · exact .inr ⟨hcb, hcb ▸ hd⟩
        · refine .inl (hx c ?_ hd)
          rw [Assembly.registry, Assembly.progress_keepDestroyer] at hc
          have hc : ((x.registry.setHeld b i).setStatus b .wired).status c = .wired := hc
          rwa [Registry.status_setStatus_of_ne _ b c _ hcb, Registry.status_setHeld] at hc

/-- The standard way keeps the destroyer of the bean that it ends with. -/
theorem standard_secured (hs : plan.Shuns) (hw : ∀ b, Agrees plan.Secured (wire b) (wire' b))
    {bean : Bean} (hb : plan.beans[b]? = some bean) (ha : plan.Secured a) :
    let way (w : Nat → Wiring Unit) : Wiring Unit :=
      plan.runProcedure w (plan.create w) b (Injector.standard.procedure b bean.id bean.type)
    outcome (way wire) a = outcome (way wire') a ∧ After (way wire) a fun r x =>
      plan.Secured x ∧ (r = .ok () → destroys plan.beans b → b ∈ x.destroyers) := by
  intro way
  have hlt : b < plan.beans.length := (List.getElem?_eq_some_iff.mp hb).1
  by_cases hr : a.registry.status b = .resolved
  · obtain ⟨he, hk⟩ := create_secured hs hw hb (a := { a with stack := b :: a.stack })
      (ha.of_same rfl rfl)
    refine ⟨outcome_congr fun Q => ?_, ?_⟩
    · rw [after_standard hlt, after_standard hlt, hr]
      unfold After
      rw [he]
    · rw [after_standard hlt, hr]
      refine hk.mono fun r x hx => ?_
      cases r with
      | error cause => exact ⟨hx, fun h => by cases h⟩
      | ok _ =>
        refine ⟨Secured.of_same hx rfl rfl, fun _ hd => ?_⟩
        exact Assembly.mem_destroyers_keepDestroyer.mpr (.inr ⟨rfl, hd⟩)
  · have hbegun : ∀ {w : Nat → Wiring Unit} {Q : Except WireError Unit → Assembly → Prop},
        After (way w) a Q ↔
          match a.registry.status b with
          | .wired => Q (.ok ()) a
          | .creating => Q (.error (.cycle (a.path plan ++ [bean.id]))) a
          | _ => Q (.error (.notResolved bean.id)) a := by
      intro w Q
      rw [after_standard hlt]
      cases hs : a.registry.status b with
      | resolved => exact absurd hs hr
      | _ => rfl
    refine ⟨outcome_congr fun Q => hbegun.trans hbegun.symm, hbegun.mpr ?_⟩
    cases hs : a.registry.status b with
    | wired => exact ⟨ha, fun _ hd => ha b hs hd⟩
    | _ => exact ⟨ha, fun h => by cases h⟩

/-! ### Wirings -/

theorem hand_usual (h : plan.injector.KeepsAgain)
    (hw : ∀ b, Agrees plan.Secured (wire b) (wire' b)) (b : Nat) :
    Agrees plan.Secured (plan.hand wire b) (plan.usual.hand wire' b) := by
  unfold hand
  cases hb : plan.beans[b]? with
  | none =>
    exact agrees_pure ()
  | some bean =>
    refine (agrees_modify fun a ha => ha.of_same rfl rfl).bind fun _ =>
      Agrees.noting (fun a ha => ?_) fun a failure ha => ha.of_same rfl rfl
    obtain ⟨-, further, hfurther, hinjector⟩ := id h
    rw [hinjector, runProcedure_andThen, ← create_usual h, ← runProcedure_usual]
    have hstandard := fun a ha => standard_secured (shuns_keepsAgain h) hw hb (a := a) ha
    refine Agrees.andThen (fun a ha => ⟨(hstandard a ha).1, ?_⟩) (fun a ha => ?_) a ha
    · exact (hstandard a ha).2.mono fun _ _ hx => hx.1
    · exact (hstandard a ha).2.mono fun _ _ hx _ hr =>
        runProcedure_onlyKeeps (hfurther _ _ _) (hx.2 hr)

theorem wire_usual (h : plan.injector.KeepsAgain) :
    ∀ n b, Agrees plan.Secured (plan.wire n b) (plan.usual.wire n b)
  | 0, _ => agrees_pure ()
  | n + 1, b => hand_usual h (wire_usual h n) b

theorem wireBean_secured (h : plan.injector.KeepsAgain) (b : Nat) :
    Agrees plan.Secured (plan.wireBean b) (plan.usual.wireBean b) := by
  rw [wireBean_usual h, wireBean_standard rfl]
  exact wire_usual h _ b

theorem wireActive_usual (h : plan.injector.KeepsAgain) (b : Nat) :
    Agrees plan.Secured (plan.wireActive b) (plan.usual.wireActive b) := by
  intro a ha
  obtain ⟨he, hk⟩ := wireBean_secured h b a ha
  refine ⟨outcome_congr fun Q => ?_, ?_⟩
  · rw [after_wireActive, after_wireActive]
    unfold After
    exact he ▸ Iff.rfl
  · rw [after_wireActive]
    refine After.mono hk fun r t ht => ?_
    cases r with
    | ok _ => exact ht
    | error cause => exact ht.of_same rfl rfl

theorem configure_usual (h : plan.injector.KeepsAgain) (configuration : Configuration) (c : Nat) :
    Agrees plan.Secured (plan.configure configuration c) (plan.usual.configure configuration c) := by
  have hgathers : plan.usual.Gathers plan.wireBean plan.usual.wireBean (.configuration c)
      plan.Secured fun _ => True :=
    @gathers_secured plan.usual plan.wireBean plan.usual.wireBean (shuns_standard rfl)
      (wireBean_secured h) _
  unfold configure
  rw [show plan.gather plan.wireBean (.configuration c) =
    plan.usual.gather plan.wireBean (.configuration c) from funext (gather_usual h _)]
  refine (agrees_modify fun a ha => ha.of_same rfl rfl).bind fun _ => ?_
  refine ((gatherAll_agrees hgathers configuration.args).adapt _).bind fun values => ?_
  refine (agrees_modify fun a ha => ha.of_same rfl rfl).bind fun _ => ?_
  cases configuration.failure with
  | some cause => exact agrees_throw _
  | none => exact agrees_modify fun a ha => ha.of_same rfl rfl

/-- An injector that keeps destroyers again does what the standard one does. -/
theorem refresh_usual (h : plan.injector.KeepsAgain) (configurations : List Configuration)
    {p : Progress} (hp : p.Idle) :
    outcome (plan.refresh configurations) (.start p) =
      outcome (plan.usual.refresh configurations) (.start p) := by
  have hstart : plan.Secured (.start p) := fun b hb => absurd hb (hp.1 b).2
  have hresolve : Keeps plan.Secured (Refreshing.ofResolving plan.resolveAll) := by
    refine .of_after fun a ha => ?_
    have hpersists : plan.Persists fun p =>
        ∀ b, p.registry.status b = .wired → destroys plan.beans b → b ∈ a.destroyers :=
      .all fun b => persists_status (P := fun s => s = .wired → destroys plan.beans b → _)
        nofun nofun nofun b
    rw [Refreshing.after_ofResolving]
    exact (resolveAll_keeps hpersists).after ha
  have hadmitted := ofAdmitted_keeps (P := plan.Secured)
    (fun a _ _ _ ha => ha.of_same rfl rfl) find_secured
  have hagrees : Agrees plan.Secured (plan.refresh configurations)
      (plan.usual.refresh configurations) := by
    unfold refresh
    rw [show plan.usual.resolveAll = plan.resolveAll from resolveAll_withInjector,
      show plan.usual.admitted = plan.admitted from funext admitted_withInjector]
    refine hresolve.agrees.bind fun _ => ?_
    refine (agrees_modify fun a ha => ha.of_same rfl rfl).bind fun _ => ?_
    refine (hadmitted _).agrees.bind fun admitted => ?_
    refine (Refreshing.ofSorted_keeps _).agrees.bind fun sorted => ?_
    refine (Agrees.forM fun c _ => configure_usual h c.1 c.2).bind fun _ => ?_
    refine (agrees_modify fun a ha => ha.of_same rfl rfl).bind fun _ => ?_
    refine agrees_get_bind fun a ha => ?_
    refine ((Agrees.forM fun b _ => wireActive_usual h b).bind fun _ => ?_) a ha
    refine (agrees_modify fun a ha => ha.of_same rfl rfl).bind fun _ => ?_
    exact agrees_get_bind fun t ht => (Refreshing.ofSorted_keeps _).agrees t ht
  exact (hagrees _ hstart).1

end Plan
end Inversion
