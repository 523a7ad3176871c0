/-
# Wirings are runs of the machine

With the standard injector every wiring of a bean is a run of the wiring machine
that leaves what is under way as it was, and if it succeeds, the bean is wired
(`wire_served`). The induction is on the bound of the nesting: a creation that
begins makes one less to come, so the bound is never used up.
-/
import Inversion.Proofs.Wiring.Machine

namespace Inversion

open Relation

namespace Plan

variable {plan : Plan} {wire wire' : Nat → Wiring Unit} {n b : Nat} {us : List Activity}
  {a : Assembly}

/-! ### The standard injector -/

/-- What the standard procedure comes to, by the bean's status. -/
theorem after_standard {create : Nat → Wiring Unit} {id : String} {t : TypeName}
    (hb : b < plan.beans.length) {Q : Except WireError Unit → Assembly → Prop} :
    After (plan.runProcedure wire create b (Injector.standard.procedure b id t)) a Q ↔
      match a.registry.status b with
      | .wired => Q (.ok ()) a
      | .creating => Q (.error (.cycle (a.path plan ++ [id]))) a
      | .resolved =>
        After (create b) { a with stack := b :: a.stack } fun r t =>
          match r with
          | .ok () => Q (.ok ()) ({ t.keepDestroyer plan b with
              stack := (t.keepDestroyer plan b).stack.tail }.note (.wired b))
          | .error cause => Q (.error cause) t
      | _ => Q (.error (.notResolved id)) a := by
  unfold Injector.standard
  rw [runProcedure, after_bind, after_get, continues_ok, status_view hb]
  cases a.registry.status b with
  | resolved =>
    simp only [Procedure.created, runProcedure, after_bind, after_modify, continues_ok,
      after_observe, after_reaching_own hb]
    refine iff_of_eq (congrArg (After _ _) (funext fun r => funext fun t => ?_))
    cases r <;> rfl
  | _ => rfl

/-- Of the beans of other containers the standard procedure says that they are not resolved. -/
theorem shuns_standard (hstd : plan.injector = .standard) : plan.Shuns := by
  intro wire s a
  have hstatus : ∀ a : Assembly, (plan.view a).status plan.beans.length = .deleted := fun a =>
    if_neg (Nat.lt_irrefl _)
  refine outcome_congr (x := plan.meet wire s) (y := throw (.notResolved s.id)) fun Q => ?_
  unfold meet
  rw [hstd, Injector.standard, after_bind, after_modify, continues_ok, runProcedure, after_bind,
    after_get, continues_ok, hstatus]
  rfl

/-- What handing a bean to the standard injector comes to, by the bean's status. -/
theorem after_hand_standard (hstd : plan.injector = .standard) {bean : Bean}
    (hb : plan.beans[b]? = some bean) {Q : Except WireError Unit → Assembly → Prop} :
    After (plan.hand wire b) a Q ↔
      match a.registry.status b with
      | .wired => Q (.ok ()) ((a.note (.handed b)).note (.answered b none))
      | .creating =>
        Q (.error (.cycle (a.path plan ++ [bean.id])))
          ((a.note (.handed b)).note (.answered b (some (.cycle (a.path plan ++ [bean.id])))))
      | .resolved =>
        After (plan.create wire b) { a.note (.handed b) with stack := b :: a.stack } fun r t =>
          match r with
          | .ok () =>
            Q (.ok ()) (({ t.keepDestroyer plan b with
              stack := (t.keepDestroyer plan b).stack.tail }.note (.wired b)).note
                (.answered b none))
          | .error cause => Q (.error cause) (t.note (.answered b (some cause)))
      | _ =>
        Q (.error (.notResolved bean.id))
          ((a.note (.handed b)).note (.answered b (some (.notResolved bean.id)))) := by
  unfold hand
  simp only [hb, hstd, after_bind, after_modify, continues_ok, after_noting]
  have hlt : b < plan.beans.length := (List.getElem?_eq_some_iff.mp hb).1
  have hr : (a.note (.handed b)).registry.status b = a.registry.status b := rfl
  simp only [after_standard hlt, hr]
  cases a.registry.status b with
  | resolved =>
    refine iff_of_eq (congrArg (After _ _) (funext fun r => funext fun t => ?_))
    cases r <;> rfl
  | _ => rfl

/-! ### Steps of a creation -/

theorem obtain_reaches {bean : Bean} (hb : plan.beans[b]? = some bean) {s : Scene}
    (hs : Reaches plan s (.creation b .gathering :: us, a))
    (hgather : ∀ args : List Arg, Keeps (fun t => Reaches plan s (.creation b .gathering :: us, t))
      (args.mapM (plan.gather wire (.bean b)))) :
    After (plan.obtain wire b bean) a fun r t => ∃ stage, (∀ i, r = .ok i → stage = .built) ∧
      Reaches plan s (.creation b stage :: us, t) := by
  unfold obtain
  cases hsource : bean.source with
  | object i => exact ⟨.built, fun _ _ => rfl, hs.tail (.take hb hsource)⟩
  | window =>
    rw [after_bind, after_modify, continues_ok, after_pure]
    exact ⟨.built, fun _ _ => rfl, hs.tail (.openWindow hb hsource)⟩
  | constructor recipe =>
    unfold build
    rw [after_bind]
    refine ((hgather recipe.args).after hs).mono fun r t ht => ?_
    cases r with
    | error cause => exact ⟨.gathering, fun _ h => (by cases h), ht⟩
    | ok values =>
      rw [continues_ok]
      cases recipe.failure with
      | some cause =>
        rw [after_bind, after_modify, continues_ok, after_throw]
        exact ⟨.failed, fun _ h => (by cases h), ht.tail (.buildFailed hb hsource)⟩
      | none =>
        rw [after_bind, after_get, continues_ok, after_bind, after_modify, continues_ok, after_pure]
        exact ⟨.built, fun _ _ => rfl, ht.tail (.build hb hsource)⟩

theorem initialise_reaches {bean : Bean} (hb : plan.beans[b]? = some bean) {s : Scene}
    (hs : Reaches plan s (.creation b .built :: us, a)) (i : Instance) :
    After (initialise b bean i) a fun r t => ∃ stage,
      (r = .ok () → stage = .initialised ∨ stage = .built ∧ bean.init = none) ∧
      Reaches plan s (.creation b stage :: us, t) := by
  unfold initialise
  cases hinit : bean.init with
  | none => exact ⟨.built, fun _ => .inr ⟨rfl, rfl⟩, hs⟩
  | some hook =>
    rw [after_bind, after_modify, continues_ok]
    have hm : Reaches plan s (.creation b (if hook.failure.isSome then .failed else .initialised) :: us,
        a.note (.initialised b bean.type i.briefText)) := hs.tail (.initialise hb hinit)
    cases hf : hook.failure with
    | none =>
      rw [hf] at hm
      exact ⟨.initialised, fun _ => .inl rfl, hm⟩
    | some cause =>
      rw [hf] at hm
      exact ⟨.failed, fun h => (by cases h), hm⟩

/-! ### Wirings -/

/-- With `n` creations still allowed for, wirings are runs after which the bean is
wired. -/
def Served (plan : Plan) (wire : Nat → Wiring Unit) (n : Nat) : Prop :=
  ∀ b us a, a.registry.Calm → a.registry.unbuilt.card < n → b < plan.beans.length →
    After (wire b) a fun r t => Reaches plan (us, a) (us, t) ∧
      (r = .ok () → t.registry.status b = .wired)

theorem receive_reaches (h : plan.Served wire n) {s : Scene} (hc : s.2.registry.Calm)
    (hn : s.2.registry.unbuilt.card < n) {u : Activity} {asker : Asker} (hu : u.asker? = some asker)
    (t : TypeName) (hb : b < plan.beans.length) :
    Keeps (fun x => Reaches plan s (u :: us, x)) (plan.receive wire asker t b) := by
  intro x hx
  unfold receive demand
  rw [after_bind, after_bind]
  refine (h b (u :: us) x (hx.calm hc) (hx.unbuilt.trans_lt hn) hb).mono fun r y ⟨hy, hw⟩ => ?_
  have hxy := hx.trans hy
  cases r with
  | error cause => exact hxy
  | ok _ =>
    have hwired := hw rfl
    rw [continues_ok, after_modify, continues_ok, after_bind, after_get, continues_ok, after_bind,
      after_ofExcept]
    cases plan.instanceOf (y.connect b).progress.registry t b with
    | error cause => exact hxy.tail (.connect hwired)
    | ok i =>
      rw [continues_ok, after_bind, after_modify, continues_ok, after_pure]
      exact hxy.tail (.receive hu hwired)

theorem Served.gathers (h : plan.Served wire n) (hstd : plan.injector = .standard) {s : Scene}
    (hc : s.2.registry.Calm) (hn : s.2.registry.unbuilt.card < n) {u : Activity} {asker : Asker}
    (hu : u.asker? = some asker) :
    plan.Gathers wire wire asker (fun x => Reaches plan s (u :: us, x)) (· < plan.beans.length) where
  find sel x hx := by
    rw [after_ofResolving]
    refine (find_of_calm (hx.calm hc) sel).mono fun r p ⟨hp, hr⟩ => ⟨hx.remarked hp, ?_⟩
    subst hr
    intro bs hbs b hb
    cases hbs
    exact lt_of_mem_present hb
  receive t b hb := (receive_reaches h hc hn hu t hb).agrees
  denied x cause hx := hx.note (by trivial)
  meet := (shuns_standard hstd).meet_agrees fun x id hx => hx.note (by trivial)

theorem gatherAll_reaches (h : plan.Served wire n) (hstd : plan.injector = .standard) {s : Scene}
    (hc : s.2.registry.Calm) (hn : s.2.registry.unbuilt.card < n) {u : Activity} {asker : Asker}
    (hu : u.asker? = some asker) (args : List Arg) :
    Keeps (fun x => Reaches plan s (u :: us, x)) (args.mapM (plan.gather wire asker)) :=
  (gatherAll_agrees (h.gathers hstd hc hn hu) args).keeps

/-- The creation of a resolved bean, which has been entered. -/
theorem create_reaches (hstd : plan.injector = .standard) (us : List Activity)
    (h : plan.Served wire n) {bean : Bean} (hb : plan.beans[b]? = some bean)
    (hr : a.registry.status b = .resolved) (hc : a.registry.Calm)
    (hn : a.registry.unbuilt.card < n + 1) :
    After (plan.create wire b) { a with stack := b :: a.stack } fun r t =>
      match r with
      | .ok () => ∃ stage i x, (stage = .initialised ∨ stage = .built ∧ bean.init = none) ∧
          Reaches plan (us, a) (.creation b stage :: us, x) ∧
          t = (x.hold b i).note (.creationEnded b none)
      | .error _ => Reaches plan (us, a) (us, t) := by
  have hbegin : Moves plan (us, a) (.creation b .gathering :: us, a.begin b) := .begin hb hr
  have hlt : (a.begin b).registry.unbuilt.card < n := by
    have := Moves.unbuilt_begin hr
    omega
  rw [after_create hb]
  refine (obtain_reaches hb (.refl : Reaches plan _ (.creation b .gathering :: us, a.begin b))
    fun args => gatherAll_reaches h hstd (hbegin.calm hc) hlt rfl args).mono fun r x ⟨stage, hbuilt, hx⟩ => ?_
  have hx := ReflTransGen.head hbegin hx
  cases r with
  | error cause => exact hx.tail .fail
  | ok i =>
    rw [hbuilt i rfl] at hx
    refine (initialise_reaches hb hx i).mono fun r y ⟨stage, hready, hy⟩ => ?_
    cases r with
    | error cause => exact hy.tail .fail
    | ok _ => exact ⟨stage, i, y, hready rfl, hy, rfl⟩

theorem hand_served (hstd : plan.injector = .standard) (h : plan.Served wire n) :
    plan.Served (plan.hand wire) (n + 1) := by
  intro b us a hc hn hlt
  have hb : plan.beans[b]? = some plan.beans[b] := List.getElem?_eq_getElem hlt
  have handed : Reaches plan (us, a) (us, a.note (.handed b)) :=
    .single (.note (by trivial))
  rw [after_hand_standard hstd hb]
  cases hr : a.registry.status b with
  | wired => exact ⟨handed.note (by trivial), fun _ => hr⟩
  | resolved =>
    refine (create_reaches hstd us h (a := a.note (.handed b)) hb hr hc hn).mono fun r t ht => ?_
    cases r with
    | error cause => exact ⟨Reaches.note (handed.trans ht) (by trivial), fun h => (by cases h)⟩
    | ok _ =>
      obtain ⟨stage, i, x, hready, hx, rfl⟩ := ht
      have hfin : Reaches plan (us, a) (us, x.finish plan b i) :=
        (handed.trans hx).tail (.finish hb hready)
      refine ⟨hfin.note (by trivial), fun _ => Assembly.status_finish_self ?_⟩
      have hlen : x.registry.marks.length = a.registry.marks.length := hx.length
      rw [hlen]
      exact Registry.lt_length_of_status_eq hr (by decide)
  | _ => exact ⟨handed.note (by trivial), fun h => (by cases h)⟩

/-- Every wiring is a run, after which the bean is wired if the wiring succeeds. -/
theorem wire_served (hstd : plan.injector = .standard) : ∀ n, plan.Served (plan.wire n) n
  | 0 => fun _ _ _ _ h => absurd h (Nat.not_lt_zero _)
  | n + 1 => hand_served hstd (wire_served hstd n)

/-- The standard injector needs no more wirings inside one another than one for each bean. -/
theorem wireBean_standard (hstd : plan.injector = .standard) :
    plan.wireBean = plan.wire (plan.beans.length + 1) := by
  funext b
  rw [wireBean, hstd, Injector.standard, Nat.add_zero]

theorem wireBean_served (hstd : plan.injector = .standard) :
    plan.Served plan.wireBean (plan.beans.length + 1) :=
  wireBean_standard hstd ▸ wire_served hstd _

end Plan
end Inversion
