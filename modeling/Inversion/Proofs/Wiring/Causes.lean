/-
# Why a wiring fails

Once the beans are resolved, a wiring with the standard injector fails for few causes: there
is no bean or more than one, beans ask for one another, or a constructor or a hook fails
(`isExpected`). A lookup fails no more, what it finds is settled, a bean whose wiring
succeeds is wired, and a wired bean can be had as each type that it provides. The induction
is on the bound of the nesting, and the invariant says that besides creations nothing has
changed since the resolution, that the wired beans hold their instances, and that no event tells
of another cause (`Regular`).
-/
import Inversion.Proofs.Wiring.Graph

namespace Inversion

/-- What can go wrong with beans that are resolved. -/
def WireError.isExpected : WireError → Bool
  | noBean _ | ambiguous _ _ | cycle _ | instantiate _ _ | init _ _ => true
  | notResolved _ | notWired _ | incorrectType _ _ | resolve _ => false

/-- If a wiring has failed, it is for an expected cause. -/
def RefreshError.isExpected : RefreshError → Bool
  | wire _ cause => cause.isExpected
  | _ => true

/-- The failure that the event tells of: of one who asks for beans, of the injector, or of a
creation. -/
def Event.cause? : Event → Option WireError
  | denied _ cause => some cause
  | answered _ failure => failure
  | creationEnded _ failure => failure
  | _ => none

theorem Event.IsOfResolution.cause?_eq {e : Event} (h : e.IsOfResolution) : e.cause? = none := by
  cases e <;> first | rfl | exact h.elim

/-- The argument does not reach into another container. -/
def Arg.isLocal : Arg → Bool
  | stranger _ => false
  | attempt arg => arg.isLocal
  | _ => true

namespace Plan

/-- What wirings by the standard injector rely on, once all beans are resolved. -/
structure Grounded (plan : Plan) (r : Registry) : Prop where
  standard : plan.injector = .standard
  resolved : plan.Resolved r
  insular : ∀ bean ∈ plan.beans, ∀ arg ∈ bean.args, arg.isLocal

/-- The registry looks as it did when the beans were resolved, the wired beans hold their
instances, fewer than `n` are still to be built, and all failures have an expected cause. -/
structure Regular (r : Registry) (n : Nat) (a : Assembly) : Prop where
  steady : r.Steady a.registry
  held : ∀ b, a.registry.status b = .wired → (a.registry.held b).isSome
  room : a.registry.unbuilt.card < n
  causes : ∀ e ∈ a.events, ∀ cause, e.cause? = some cause → cause.isExpected

/-- A wiring of a settled bean wires it, or fails for an expected cause. -/
def Obliges (r : Registry) (n : Nat) (wire : Nat → Wiring Unit) : Prop :=
  ∀ b a, (r.status b).isSettled → Regular r n a → After (wire b) a fun x t =>
    Regular r n t ∧ (x = .ok () → t.registry.status b = .wired) ∧
      ∀ cause, x = .error cause → cause.isExpected

variable {plan : Plan} {r : Registry} {n b c : Nat} {a : Assembly} {wire : Nat → Wiring Unit}
  {asker : Asker} {sel : Selector} {t : TypeName} {bean : Bean} {arg : Arg} {α : Type}

/-! ### On the way -/

theorem Regular.congr (h : Regular r n a) {a' : Assembly} (hr : a'.registry = a.registry)
    (he : a'.events = a.events) : Regular r n a' := by
  obtain ⟨steady, held, room, causes⟩ := h
  rw [← hr] at steady held room
  rw [← he] at causes
  exact ⟨steady, held, room, causes⟩

theorem Regular.note (h : Regular r n a) {e : Event}
    (he : ∀ cause, e.cause? = some cause → cause.isExpected) : Regular r n (a.note e) :=
  ⟨h.steady, h.held, h.room, List.forall_mem_cons.mpr ⟨he, h.causes⟩⟩

theorem Regular.build (h : Regular r n a) (b : Nat) (t : TypeName) :
    Regular r n (a.build b t) := by
  have hcounted : Regular r n
      { a with progress := { a.progress with made := a.progress.made + 1 } } := h.congr rfl rfl
  have hbuilt := hcounted.note (e := .built b t (a.progress.made + 1)) nofun
  exact hbuilt.note nofun

theorem Regular.begin (h : Regular r (n + 1) a) (hb : a.registry.status b = .resolved) :
    Regular r n (a.setStatus b .creating) := by
  refine ⟨h.steady.trans (.setStatus (by rw [hb]; rfl) rfl), fun c hc => ?_, ?_,
    List.forall_mem_cons.mpr ⟨nofun, h.causes⟩⟩
  · have hc : (a.registry.setStatus b .creating).status c = .wired := hc
    rw [Registry.status_setStatus] at hc
    show ((a.registry.setStatus b .creating).held c).isSome
    rw [Registry.held_setStatus]
    split at hc
    · cases hc
    · exact h.held c hc
  · have hlt : (a.begin b).registry.unbuilt.card < a.registry.unbuilt.card := Moves.unbuilt_begin hb
    have hroom := h.room
    show (a.begin b).registry.unbuilt.card < n
    omega

theorem Regular.hold (h : Regular r n a) (hb : (r.status b).isSettled) (i : Instance) :
    Regular r (n + 1) (a.hold b i) ∧ (a.hold b i).registry.status b = .wired := by
  have hsettled : (a.registry.status b).isSettled := h.steady.isSettled b ▸ hb
  have hlt : b < a.registry.marks.length := by
    refine Registry.lt_length_of_status fun hd => ?_
    rw [hd] at hsettled
    cases hsettled
  have hheld : a.registry.Steady (a.registry.setHeld b i) := .setHeld _ b i
  refine ⟨⟨h.steady.trans (hheld.trans (.setStatus ?_ rfl)), fun c hc => ?_, ?_,
    List.forall_mem_cons.mpr ⟨nofun, h.causes⟩⟩, ?_⟩
  · rwa [hheld.isSettled]
  · show (((a.registry.setHeld b i).setStatus b .wired).held c).isSome
    rw [Registry.held_setStatus]
    by_cases hcb : c = b
    · rw [hcb, Registry.held_setHeld_self _ _ _ hlt]
      rfl
    · have hc : ((a.registry.setHeld b i).setStatus b .wired).status c = .wired := hc
      rw [Registry.status_setStatus_of_ne _ _ _ _ hcb, Registry.status_setHeld] at hc
      rw [Registry.held_setHeld_of_ne _ _ _ _ hcb]
      exact h.held c hc
  · show ((a.registry.setHeld b i).setStatus b .wired).unbuilt.card < n + 1
    rw [Registry.unbuilt_setStatus rfl, Registry.unbuilt_setHeld]
    exact Finset.card_erase_le.trans_lt (h.room.trans n.lt_succ_self)
  · exact Registry.status_setStatus_self _ _ _ (by rwa [Registry.length_setHeld])

theorem Regular.weaken (h : Regular r n a) : Regular r (n + 1) a :=
  ⟨h.steady, h.held, h.room.trans n.lt_succ_self, h.causes⟩

/-! ### Arguments -/

theorem confines_orDenied {x : Wiring α} (hx : Confines (Regular r n) (·.isExpected) x) :
    Confines (Regular r n) (·.isExpected) (orDenied asker x) := by
  intro a ha
  unfold orDenied
  rw [after_noting]
  refine (hx a ha).mono fun y t ⟨ht, he⟩ => ⟨?_, he⟩
  cases y with
  | ok v => exact ht
  | error cause =>
    refine ht.note fun e h => ?_
    cases h
    exact he cause rfl

theorem Regular.remarked (h : Regular r n a) {q : Progress} (hq : a.progress.Remarked q) :
    Regular r n { a with progress := q } := by
  induction hq with
  | refl => exact h
  | note _ he ih =>
    refine ih.note fun cause hcause => ?_
    rw [he.isOfResolution.cause?_eq] at hcause
    cases hcause

/-- A lookup finds the beans that are present, and does not fail. -/
theorem confines_find (hcalm : r.Calm) {f : List Nat → Wiring α}
    (hf : Confines (Regular r n) (·.isExpected) (f (plan.present r sel))) :
    Confines (Regular r n) (·.isExpected) (Wiring.ofResolving (plan.find sel) >>= f) := by
  intro a ha
  rw [after_bind, after_ofResolving]
  refine (find_of_calm (ha.steady.calm hcalm) sel).mono fun x q ⟨hq, hx⟩ => ?_
  subst hx
  rw [ha.steady.present]
  exact hf _ (ha.remarked hq)

section
variable (h : plan.Grounded r) (hwire : Obliges r n wire)
include h hwire

/-- A bean that is found is wired, and then had as one of the types that it provides. -/
theorem receive_confined (hsel : sel = .type t ∨ ∃ name, sel = .typedName t name)
    (hc : c ∈ plan.present r sel) :
    Confines (Regular r n) (·.isExpected) (plan.receive wire asker t c) := by
  obtain ⟨hresolving, hdeleted, hselects⟩ := of_decide_eq_true (List.mem_filter.mp hc).2
  have hsettled : (r.status c).isSettled :=
    (isSettled_of_decided (h.resolved.calm c) hresolving).resolve_right hdeleted
  have hprovides : plan.Provides r sel c := ⟨hdeleted, hselects⟩
  intro a ha
  unfold receive demand
  rw [after_bind, after_bind]
  refine (hwire c a hsettled ha).mono fun x y ⟨hy, hwired, hcause⟩ => ?_
  cases x with
  | error cause => exact ⟨hy, fun e he => hcause e (by cases he; rfl)⟩
  | ok _ =>
    have hwired := hwired rfl
    have hsound : plan.Sound y.registry := (h.resolved.steady hy.steady).toSound
    have hoffers := hprovides.offers hsel
    rw [← hy.steady.exports] at hoffers
    obtain ⟨i, hi⟩ := exists_instanceOf hsound hwired (hy.held c hwired) hoffers
    simp only [continues_ok, after_bind, after_modify, after_get, Assembly.progress_connect,
      after_ofExcept, hi, after_pure]
    have hkept : (y.connect c).progress = y.progress := Assembly.progress_connect
    have hconnected : Regular r n (y.connect c) :=
      hy.congr (congrArg Progress.registry hkept) (congrArg Progress.events hkept)
    refine ⟨hconnected.note fun _ he => ?_, fun _ he => ?_⟩ <;> cases he

theorem receiveOne_confined (hsel : sel = .type t ∨ ∃ name, sel = .typedName t name) :
    Confines (Regular r n) (·.isExpected) (plan.receiveOne wire asker t sel) := by
  refine confines_orDenied (confines_find h.resolved.calm ?_)
  match hp : plan.present r sel with
  | [] => exact confines_throw rfl
  | [c] => exact receive_confined h hwire hsel (hp ▸ List.mem_singleton_self c)
  | _ :: _ :: _ => exact confines_throw rfl

theorem receiveAll_confined :
    Confines (Regular r n) (·.isExpected) (plan.receiveAll wire asker t) :=
  confines_orDenied (confines_find h.resolved.calm
    (Confines.mapM fun _ hc => receive_confined h hwire (.inl rfl) hc))

theorem gather_confined : ∀ arg : Arg, arg.isLocal →
    Confines (Regular r n) (·.isExpected) (plan.gather wire asker arg)
  | .one t, _ => (receiveOne_confined h hwire (.inl rfl)).bind fun _ => confines_pure _
  | .every t, _ => (receiveAll_confined h hwire).bind fun _ => confines_pure _
  | .named t n, _ => (receiveOne_confined h hwire (.inr ⟨n, rfl⟩)).bind fun _ => confines_pure _
  | .properties _, _ => confines_pure _
  | .token, _ => confines_pure _
  | .attempt arg, harg => by
    intro a ha
    rw [gather, after_attempt]
    exact (gather_confined arg harg a ha).mono fun _ _ ht => ⟨ht.1, fun _ he => by cases he⟩
  | .find sel, _ => confines_find h.resolved.calm (confines_pure _)
  | .surroundings, _ => confines_get_bind fun a ha => ⟨ha, nofun⟩
  | .stranger _, harg => by cases harg
  | .window questions, _ =>
    (receiveOne_confined h hwire (.inl rfl)).bind fun _ =>
      confines_get_bind fun a ha => ⟨ha, nofun⟩

theorem gatherAll_confined {args : List Arg} (hargs : ∀ arg ∈ args, arg.isLocal) :
    Confines (Regular r n) (·.isExpected) (args.mapM (plan.gather wire asker)) :=
  Confines.mapM fun arg harg => gather_confined h hwire arg (hargs arg harg)

/-! ### Creations -/

theorem obtain_confined (hbean : bean ∈ plan.beans) :
    Confines (Regular r n) (·.isExpected) (plan.obtain wire b bean) := by
  have hinsular := h.insular bean hbean
  unfold Bean.args at hinsular
  unfold obtain
  cases hsource : bean.source with
  | object i => exact confines_pure i
  | window => exact (confines_modify fun a ha => ha.note nofun).bind fun _ => confines_pure _
  | constructor recipe =>
    rw [hsource] at hinsular
    unfold build
    refine (gatherAll_confined h hwire hinsular).bind fun values => ?_
    cases recipe.failure with
    | some cause =>
      exact (confines_modify fun a ha => ha.note nofun).bind fun _ => confines_throw rfl
    | none =>
      exact confines_get_bind fun a ha => ⟨ha.build b bean.type, nofun⟩

end

theorem initialise_confined (b : Nat) (bean : Bean) (i : Instance) :
    Confines (Regular r n) (·.isExpected) (initialise b bean i) := by
  unfold initialise
  cases bean.init with
  | none => exact confines_pure ()
  | some hook =>
    refine (confines_modify fun a ha => ha.note nofun).bind fun _ => ?_
    cases hook.failure with
    | none => exact confines_pure ()
    | some cause => exact confines_throw rfl

/-- The creation of a resolved bean, when what its constructor asks for is wired. -/
theorem create_confined (h : plan.Grounded r) (hwire : Obliges r n wire)
    (hbean : plan.beans[b]? = some bean) (ha : Regular r (n + 1) a)
    (hb : a.registry.status b = .resolved) :
    After (plan.create wire b) a fun x t =>
      Regular r (n + 1) t ∧ (x = .ok () → t.registry.status b = .wired) ∧
        ∀ cause, x = .error cause → cause.isExpected := by
  have hsettled : (r.status b).isSettled := by
    rw [← ha.steady.isSettled, hb]
    rfl
  have hfails : ∀ {t : Assembly} {cause : WireError}, Regular r n t → cause.isExpected →
      Regular r (n + 1) (t.note (.creationEnded b (some cause))) ∧
        ((.error cause : Except WireError Unit) = .ok () →
          (t.note (.creationEnded b (some cause))).registry.status b = .wired) ∧
        ∀ e, (.error cause : Except WireError Unit) = .error e → e.isExpected := by
    intro t cause ht hcause
    refine ⟨ht.weaken.note fun e he => ?_, nofun, fun e he => ?_⟩
    · cases he
      exact hcause
    · cases he
      exact hcause
  rw [after_create hbean]
  refine (obtain_confined h hwire (List.mem_of_getElem? hbean) _ (ha.begin hb)).mono
    fun x t ⟨ht, hcause⟩ => ?_
  cases x with
  | error cause => exact hfails ht (hcause cause rfl)
  | ok i =>
    refine (initialise_confined b bean i t ht).mono fun x y ⟨hy, hcause⟩ => ?_
    cases x with
    | error cause => exact hfails hy (hcause cause rfl)
    | ok _ =>
      obtain ⟨hheld, hwired⟩ := hy.hold hsettled i
      exact ⟨hheld.note nofun, fun _ => hwired, nofun⟩

theorem hand_obliges (h : plan.Grounded r) (hwire : Obliges r n wire) :
    Obliges r (n + 1) (plan.hand wire) := by
  intro b a hb ha
  have hlt : b < plan.beans.length := by
    rw [← h.resolved.length]
    refine Registry.lt_length_of_status fun hd => ?_
    rw [hd] at hb
    cases hb
  have hbean : plan.beans[b]? = some plan.beans[b] := List.getElem?_eq_getElem hlt
  have hsettled : (a.registry.status b).isSettled := ha.steady.isSettled b ▸ hb
  have hhanded : Regular r (n + 1) (a.note (.handed b)) := ha.note nofun
  rw [after_hand_standard h.standard hbean]
  cases hs : a.registry.status b with
  | wired => exact ⟨hhanded.note nofun, fun _ => hs, nofun⟩
  | creating =>
    refine ⟨hhanded.note fun e he => ?_, nofun, fun e he => ?_⟩
    · cases he
      rfl
    · cases he
      rfl
  | resolved =>
    have hentered : Regular r (n + 1) { a.note (.handed b) with stack := b :: a.stack } :=
      hhanded.congr rfl rfl
    refine (create_confined h hwire hbean hentered hs).mono fun x t ⟨ht, hwired, hcause⟩ => ?_
    cases x with
    | error cause =>
      refine ⟨ht.note fun e he => ?_, nofun, hcause⟩
      cases he
      exact hcause cause rfl
    | ok _ =>
      have hkept : (t.keepDestroyer plan b).progress = t.progress := Assembly.progress_keepDestroyer
      have hleft : Regular r (n + 1) { t.keepDestroyer plan b with
          stack := (t.keepDestroyer plan b).stack.tail } :=
        ht.congr (congrArg Progress.registry hkept) (congrArg Progress.events hkept)
      have hreported := hleft.note (e := .wired b) nofun
      refine ⟨hreported.note nofun, fun _ => ?_, nofun⟩
      show (t.keepDestroyer plan b).registry.status b = .wired
      rw [Assembly.registry, hkept]
      exact hwired rfl
  | _ =>
    rw [hs] at hsettled
    cases hsettled

/-- Every wiring of a settled bean wires it, or fails for an expected cause. -/
theorem wire_obliges (h : plan.Grounded r) : ∀ n, Obliges r n (plan.wire n)
  | 0 => fun _ _ _ ha => absurd ha.room (Nat.not_lt_zero _)
  | n + 1 => hand_obliges h (wire_obliges h n)

theorem wireBean_obliges (h : plan.Grounded r) : Obliges r (plan.beans.length + 1) plan.wireBean :=
  wireBean_standard h.standard ▸ wire_obliges h _

/-! ### Refreshes -/

theorem confines_ofResolving {x : Resolving α}
    (h : Keeps (Regular r n) (Refreshing.ofResolving x)) :
    Confines (Regular r n) (·.isExpected) (Refreshing.ofResolving x) := by
  intro a ha
  have hkept := h.after ha
  rw [Refreshing.after_ofResolving] at hkept ⊢
  refine hkept.mono fun y q hq => ⟨hq, fun e he => ?_⟩
  cases y with
  | ok v => cases he
  | error cause =>
    cases he
    rfl

theorem confines_ofSorted {J : Assembly → Prop} (x : Except SortError α) :
    Confines J (·.isExpected) (Refreshing.ofSorted x) := by
  intro a ha
  rw [Refreshing.after_ofSorted]
  refine ⟨ha, fun e he => ?_⟩
  cases x with
  | ok v => cases he
  | error cause =>
    cases he
    rfl

theorem admitted_confined (hr : r.Calm) (cs : List (Configuration × Nat)) :
    Confines (Regular r n) (·.isExpected) (Refreshing.ofResolving (plan.admitted cs)) := by
  refine confines_ofResolving (ofAdmitted_keeps (fun a e he _ ha => ?_) (fun sel => ?_) cs)
  · refine ha.note fun cause hcause => ?_
    rw [he.isOfResolution.cause?_eq] at hcause
    cases hcause
  · have hfind := confines_find (n := n) hr (confines_pure (plan.present r sel))
    rw [bind_pure] at hfind
    exact hfind.keeps

/-- What is local of all configurations is local of those that are admitted. -/
theorem admitted_local {configurations : List Configuration}
    (hlocal : ∀ configuration ∈ configurations, ∀ arg ∈ configuration.args, arg.isLocal)
    (a : Assembly) : After (Refreshing.ofResolving (plan.admitted configurations.zipIdx)) a fun x _ =>
      ∀ admitted, x = .ok admitted → ∀ c ∈ admitted, ∀ arg ∈ c.1.args, arg.isLocal := by
  rw [Refreshing.after_ofResolving]
  refine (admitted_sublist configurations.zipIdx _).mono fun x _ hx admitted hadmitted c hc => ?_
  cases x with
  | error e => cases hadmitted
  | ok cs =>
    cases hadmitted
    exact hlocal c.1 (List.fst_mem_of_mem_zipIdx ((hx _ rfl).subset hc))

theorem configure_confined (h : plan.Grounded r) {configuration : Configuration}
    (hlocal : ∀ arg ∈ configuration.args, arg.isLocal) (c : Nat) :
    Confines (Regular r (plan.beans.length + 1)) (·.isExpected)
      (plan.configure configuration c) := by
  have hgathered : Confines (Regular r (plan.beans.length + 1)) (·.isExpected)
      (configuration.args.mapM (plan.gather plan.wireBean (.configuration c))) :=
    gatherAll_confined h (wireBean_obliges h) hlocal
  unfold configure
  refine (confines_modify fun a ha => ha.note nofun).bind fun _ => ?_
  refine (hgathered.adapt fun cause hcause => ?_).bind fun values => ?_
  · exact hcause
  refine (confines_modify fun a ha => ha.note nofun).bind fun _ => ?_
  cases configuration.failure with
  | some cause => exact confines_throw rfl
  | none => exact confines_modify fun a ha => ha.note nofun

theorem wireActive_confined (h : plan.Grounded r) (hb : (r.status b).isSettled) :
    Confines (Regular r (plan.beans.length + 1)) (·.isExpected) (plan.wireActive b) := by
  intro a ha
  rw [after_wireActive]
  refine (wireBean_obliges h b a hb ha).mono fun x t ⟨ht, _, hcause⟩ => ?_
  cases x with
  | ok _ => exact ⟨ht, nofun⟩
  | error cause =>
    refine ⟨ht.note nofun, fun e he => ?_⟩
    cases he
    exact hcause cause rfl

/-- Nothing has changed when the beans have just been resolved. -/
theorem regular_start {p : Progress} (hp : p.Idle) (hlen : p.registry.marks.length = n)
    (hcauses : ∀ e ∈ p.events, e.cause? = none) : Regular p.registry (n + 1) (.start p) := by
  refine ⟨.refl _, fun b hb => absurd hb (hp.1 b).2, ?_, fun e he cause hcause => ?_⟩
  · exact Nat.lt_succ_of_le (Registry.card_having_le.trans (Nat.le_of_eq hlen))
  · rw [hcauses e he] at hcause
    cases hcause

/-- What follows the resolution, with the configurations that were admitted. -/
theorem wiring_confined (h : plan.Grounded r) (hdecided : r.Decided)
    {admitted : List (Configuration × Nat)} (hlocal : ∀ c ∈ admitted, ∀ arg ∈ c.1.args, arg.isLocal) :
    Confines (Regular r (plan.beans.length + 1)) (·.isExpected) (do
      let sorted ←
        Refreshing.ofSorted
          (Precedence.arrange (fun c => c.1.title) (fun c d => c.1.runsAfter d.1) admitted)
      sorted.forM fun c => plan.configure c.1 c.2
      modify (·.note .configurationsApplied)
      (← get).progress.registry.active.forM plan.wireActive
      modify (·.note .beansWired)
      Refreshing.ofSorted ((← get).teardownOrder plan)) := by
  cases harranged : Precedence.arrange (fun c : Configuration × Nat => c.1.title)
      (fun c d => c.1.runsAfter d.1) admitted with
  | error cause => exact confines_throw rfl
  | ok sorted =>
    have hperm := (Precedence.arrange_ok harranged).1
    show Confines _ _ (sorted.forM (fun c => plan.configure c.1 c.2) >>= fun _ => _)
    refine (Confines.forM fun c hc => ?_).bind fun _ => ?_
    · exact configure_confined h (hlocal c (hperm.mem_iff.mp hc)) c.2
    refine (confines_modify fun a ha => ha.note nofun).bind fun _ => ?_
    refine confines_get_bind fun a ha => ?_
    refine Confines.bind (Confines.forM fun b hb => ?_) (fun _ => ?_) a ha
    · have hdeleted : r.status b ≠ .deleted := by
        rw [ha.steady.active] at hb
        exact Registry.mem_active.mp hb
      exact wireActive_confined h ((hdecided b).resolve_right hdeleted)
    · exact (confines_modify fun a ha => ha.note nofun).bind fun _ =>
        confines_get_bind fun t ht => confines_ofSorted _ t ht

/-- However a refresh ends, all failures have an expected cause. -/
theorem refresh_confined {p : Progress} (hfrozen : Container.Frozen plan p)
    (hstd : plan.injector = .standard)
    (hpropagate : ∀ bean ∈ plan.beans, Condition.AllPropagate bean.conditions)
    (hinsular : ∀ bean ∈ plan.beans, ∀ arg ∈ bean.args, arg.isLocal)
    {configurations : List Configuration}
    (hlocal : ∀ configuration ∈ configurations, ∀ arg ∈ configuration.args, arg.isLocal) :
    After (plan.refresh configurations) (.start p) fun x t =>
      (∀ e ∈ t.events, ∀ cause, e.cause? = some cause → cause.isExpected) ∧
        ∀ e, x = .error e → e.isExpected := by
  have hquiet : plan.Persists fun q => q.Idle ∧ q.registry.marks.length = plan.beans.length ∧
      ∀ e ∈ q.events, e.cause? = none :=
    Progress.persists_idle.and ((persists_length plan.beans.length).and
      (persists_events (P := fun es => ∀ e ∈ es, e.cause? = none) fun e es he hes =>
        List.forall_mem_cons.mpr ⟨he.cause?_eq, hes⟩))
  have hbefore : ∀ e ∈ p.events, e.cause? = none := by
    intro e he
    have haside := hfrozen.aside e he
    cases e <;> first | rfl | exact haside.elim
  have hkept := (resolveAll_keeps hquiet).after ⟨hfrozen.idle, hfrozen.length, hbefore⟩
  unfold refresh
  rw [after_bind, Refreshing.after_ofResolving]
  refine (hkept.and (resolveAll_resolved hfrozen)).mono
    fun x q ⟨⟨hidle, hlen, hcauses⟩, _, hresolved⟩ => ?_
  have hnone : ∀ e ∈ q.events, ∀ cause, e.cause? = some cause → cause.isExpected := by
    intro e he cause hcause
    rw [hcauses e he] at hcause
    cases hcause
  cases x with
  | error cause =>
    refine ⟨hnone, fun e he => ?_⟩
    cases he
    rfl
  | ok _ =>
    have hresolved := hresolved rfl
    have hgrounded : plan.Grounded q.registry := ⟨hstd, hresolved, hinsular⟩
    have hstart := (regular_start hidle hlen hcauses).note (e := .beansResolved) nofun
    simp only [Except.mapError, continues_ok, after_bind, after_modify]
    refine ((admitted_confined hresolved.calm configurations.zipIdx _ hstart).and
      (admitted_local hlocal _)).mono fun x t hadmitted => ?_
    obtain ⟨⟨ht, hcause⟩, hlocal⟩ := hadmitted
    cases x with
    | error e => exact ⟨ht.causes, fun d hd => hcause d (by cases hd; rfl)⟩
    | ok admitted =>
      rw [continues_ok]
      exact After.mono (wiring_confined hgrounded (hresolved.decided hpropagate)
        (hlocal admitted rfl) t ht) fun _ _ hu => ⟨hu.1.causes, hu.2⟩

/-! ### Lookups in a refreshed container -/

theorem allInstances_ok {bs : List Nat} (h : ∀ b ∈ bs, ∃ i, plan.instanceOf r t b = .ok i) :
    ∃ is, plan.allInstances r t bs = .ok is := by
  unfold allInstances
  induction bs with
  | nil => exact ⟨[], rfl⟩
  | cons b bs ih =>
    obtain ⟨i, hi⟩ := h b List.mem_cons_self
    obtain ⟨is, his⟩ := ih fun c hc => h c (List.mem_cons_of_mem b hc)
    rw [List.mapM_cons, hi]
    exact ⟨i :: is, by rw [show bs.mapM (plan.instanceOf r t) = .ok is from his]; rfl⟩

/-- If all instances can be had, only the number of beans can be wrong. -/
theorem singleInstance_error {bs : List Nat} {cause : WireError}
    (h : ∀ b ∈ bs, ∃ i, plan.instanceOf r t b = .ok i)
    (hcause : plan.singleInstance r t bs = .error cause) :
    cause = .noBean t ∨ ∃ ids, cause = .ambiguous t ids := by
  match bs with
  | [] =>
    cases hcause
    exact .inl rfl
  | [b] =>
    obtain ⟨i, hi⟩ := h b List.mem_cons_self
    have hcause : plan.instanceOf r t b = .error cause := hcause
    rw [hi] at hcause
    cases hcause
  | b :: c :: rest =>
    cases hcause
    exact .inr ⟨_, rfl⟩

end Plan

namespace Container

/-- Beans whose conditions do not go on after a failed lookup, and whose arguments stay inside the
container. -/
structure Suits (bean : Bean) : Prop where
  propagates : Condition.AllPropagate bean.conditions
  insular : ∀ arg ∈ bean.args, arg.isLocal

/-- The failures that the events tell of have expected causes. -/
def Excused (es : List Event) : Prop :=
  ∀ e ∈ es, ∀ cause, e.cause? = some cause → cause.isExpected

theorem Excused.cons {es : List Event} (h : Excused es) {e : Event} (he : e.cause? = none) :
    Excused (e :: es) := by
  refine List.forall_mem_cons.mpr ⟨fun cause hcause => ?_, h⟩
  rw [he] at hcause
  cases hcause

variable {c c' : Container}

theorem complete_excused (hs : Stocked Suits (fun d => ∀ arg ∈ d.args, arg.isLocal) c)
    (hstd : c.injector = .standard) (hf : Frozen c.plan c.progress) :
    Excused c.complete.2.events ∧ ∀ e, c.complete.1 = .ok (.error e) → e.isExpected := by
  obtain ⟨hevents, herror⟩ := Plan.refresh_confined hf hstd
    (fun bean hbean => (hs.beans bean hbean).propagates)
    (fun bean hbean => (hs.beans bean hbean).insular) hs.configurations
  have hevents : Excused c.course.2.events := hevents
  refine ⟨?_, fun e he => herror e (course_of_complete he)⟩
  rcases complete_spec c with ⟨ds, -, hc⟩ | ⟨e, p, -, hp, hc⟩
  · rw [hc]
    exact hevents.cons (e := .refreshed) rfl
  · rw [hc]
    rcases hp with rfl | rfl
    · exact hevents
    · exact hevents.cons (e := .refreshFailed e.message) rfl

/-- Every operation excuses what it notes. -/
theorem excused_undergoes (hs : Stocked Suits (fun d => ∀ arg ∈ d.args, arg.isLocal) c)
    (ho : Orderly c) (hf : Has (fun _ _ => True) c) (h : Excused c.events) (hu : Undergoes c c') :
    Excused c'.events := by
  cases hu with
  | nothing alike progress =>
    rw [events, progress]
    exact h
  | noted alike e aside progress =>
    rw [events, progress]
    exact h.cons (by cases e <;> first | rfl | exact aside.elim)
  | refused new _ _ =>
    rw [c.freeze_spec]
    exact h
  | refreshed new _ =>
    exact (complete_excused hs.freeze (ho.freeze new).1 (hf.frozen new)).1
  | found refreshing sel =>
    have hpersists : c.plan.Persists fun p => Excused p.events :=
      Plan.persists_events (P := Excused) fun e es he hes => hes.cons he.cause?_eq
    exact (Plan.find_keeps hpersists sel).after h
  | closed refreshed =>
    refine close_keeps (P := fun p => Excused p.events) (fun he hp => hp.cons ?_) refreshed h
    rename_i e
    cases e <;> first | rfl | exact he.elim

/-- With the standard injector, where no condition goes on after a failed lookup and no argument
reaches into another container: whoever is denied a bean, every wiring and every creation that
fails, and so a refresh that fails with a wiring, has one of the expected causes. Once the container
is refreshed, whatever the conditions and the arguments, a lookup of an instance fails only if there
is no bean or more than one, and a lookup of all instances never. -/
theorem wiring_causes (compositions : Compositions) (ops : List Operation) :
    let c := ((empty .standard compositions).performAll ops).2
    ((∀ bean, .register bean ∈ ops →
        Condition.AllPropagate bean.conditions ∧ ∀ arg ∈ bean.args, arg.isLocal) →
      (∀ configuration, .configure configuration ∈ ops →
        ∀ arg ∈ configuration.args, arg.isLocal) →
      (∀ e ∈ c.events, ∀ cause, e.cause? = some cause → cause.isExpected) ∧
        ∀ e, c.refresh.1 = .ok (.error e) → e.isExpected) ∧
    (c.phase = .refreshed →
      (∀ t cause, c.get t = .ok (.error cause) →
        cause = .noBean t ∨ ∃ ids, cause = .ambiguous t ids) ∧
      (∀ t n cause, c.getNamed t n = .ok (.error cause) →
        cause = .noBean t ∨ ∃ ids, cause = .ambiguous t ids) ∧
      ∀ t, ∃ is, c.getAll t = .ok (.ok is)) := by
  intro c
  refine ⟨fun hbeans hlocal => ?_, fun hr => ?_⟩
  · obtain ⟨hs, ho, hf, hexcused⟩ := performAll_keeps_stocked (P := Suits)
      (Q := fun d => ∀ arg ∈ d.args, arg.isLocal)
      (X := fun c => Orderly c ∧ Has (fun _ _ => True) c ∧ Excused c.events)
      (fun _ _ hu hs ⟨ho, hf, he⟩ =>
        ⟨ho.undergoes hu, hf.undergoes lasts_trivial hu, excused_undergoes hs ho hf he hu⟩)
      ops _ (fun bean hin => ⟨(hbeans bean hin).1, (hbeans bean hin).2⟩) hlocal
      (stocked_empty .standard compositions)
      ⟨orderly_empty compositions, performAll_lasts lasts_trivial .standard compositions [], nofun⟩
    refine ⟨hexcused, fun e he => ?_⟩
    have hnew : c.phase = .unrefreshed ∧ c.freeze.1 = none := by
      unfold refresh at he
      cases hp : c.phase with
      | unrefreshed =>
        rw [hp] at he
        cases hd : c.freeze.1 with
        | none => exact ⟨rfl, rfl⟩
        | some panic =>
          rw [show c.freeze = (some panic, c.freeze.2) from Prod.ext hd rfl] at he
          cases he
      | _ =>
        rw [hp] at he
        cases he
    rw [refresh_of_distinct hnew.1 hnew.2] at he
    exact (complete_excused hs.freeze (ho.freeze hnew.1).1 (hf.frozen hnew.1)).2 e he
  · have h : Settled c := performAll_settled compositions ops hr
    have hinstance : ∀ {t : TypeName} {sel : Selector}, sel = .type t ∨ (∃ n, sel = .typedName t n) →
        ∀ b ∈ c.plan.lookup c.registry sel, ∃ i, c.plan.instanceOf c.registry t b = .ok i := by
      intro t sel hsel b hb
      have hprovides := (h.mem_lookup sel b).mp hb
      obtain ⟨hw, hheld⟩ := h.wired b hprovides.1
      exact Plan.exists_instanceOf h.steadfast.indexed.toSound hw hheld (hprovides.offers hsel)
    unfold get getNamed getAll whenRefreshed
    rw [hr]
    refine ⟨fun t cause hcause => ?_, fun t n cause hcause => ?_, fun t => ?_⟩
    · exact Plan.singleInstance_error (hinstance (.inl rfl)) (Except.ok.inj hcause)
    · exact Plan.singleInstance_error (hinstance (.inr ⟨n, rfl⟩)) (Except.ok.inj hcause)
    · obtain ⟨is, his⟩ := Plan.allInstances_ok (hinstance (.inl rfl))
      exact ⟨is, congrArg Except.ok his⟩

/-- A bean that goes on without the one that it asks for. -/
def hardy : List Operation :=
  [.register (.plain (.of "app::Handler") (.main 1)
    (.constructor ⟨[.attempt (.one (.of "app::Pool"))], .part, "handler", none⟩)), .refresh]

theorem wiring_causes_of_hardy :
    let c := ((empty .standard ⟨[]⟩).performAll hardy).2
    (∃ e ∈ c.events, ∃ cause, e.cause? = some cause ∧ cause.isExpected) ∧ c.phase = .refreshed ∧
      ∃ is, c.getAll (.of "app::Handler") = .ok (.ok is) := by
  intro c
  have hphase : c.phase = .refreshed := by decide +kernel
  have hdenied : c.events.any (fun e => e.cause?.isSome) := by decide +kernel
  obtain ⟨e, he, hsome⟩ := List.any_eq_true.mp hdenied
  obtain ⟨cause, hcause⟩ := Option.isSome_iff_exists.mp hsome
  obtain ⟨hexpected, hlookups⟩ := wiring_causes ⟨[]⟩ hardy
  refine ⟨⟨e, he, cause, hcause,
    (hexpected (fun bean hin => ?_) (fun d hin => ?_)).1 e he cause hcause⟩, hphase,
    (hlookups hphase).2.2 _⟩
  · cases hin with
    | head => exact ⟨Condition.allPropagate_of_arePlain _ rfl, by decide⟩
    | tail _ hin => cases hin with | tail _ hin => cases hin
  · cases hin with | tail _ hin => cases hin with | tail _ hin => cases hin

end Container
end Inversion
