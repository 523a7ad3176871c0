/-
# When a refresh succeeds

If constructors and hooks do not fail and arguments are plain, all that can go wrong
with a wiring is in the graph of what beans ask for. A wiring of a bean succeeds only
if the bean can be built (`Buildable`), and does if besides it leads to none of the beans
under way (`wire_wires`). The induction is on the bound of the nesting, and the invariant
says which beans are under way, and that the wired ones could be built (`Partway`).

Outside of any creation nothing is under way, so a refresh wires all beans if and only if
all can be built, which is to say, if the graph is well-formed (`refresh_succeeds_iff`).
-/
import Inversion.Proofs.Wiring.Graph

namespace Inversion

open Relation

namespace Bean

/-- The failure of the bean's constructor. -/
def buildFailure? (bean : Bean) : Option String :=
  match bean.source with
  | .constructor recipe => recipe.failure
  | _ => none

/-- The failure of the hook that follows the creation. -/
def initFailure? (bean : Bean) : Option String :=
  bean.init.bind (·.failure)

/-- Nothing can go wrong with the bean itself. -/
structure Dependable (bean : Bean) : Prop where
  plain : ∀ arg ∈ bean.args, arg.isPlain
  builds : bean.buildFailure? = none
  initialises : bean.initFailure? = none

instance (bean : Bean) : Decidable bean.Dependable :=
  decidable_of_iff ((∀ arg ∈ bean.args, arg.isPlain) ∧ bean.buildFailure? = none ∧
    bean.initFailure? = none)
    ⟨fun h => ⟨h.1, h.2.1, h.2.2⟩, fun h => ⟨h.plain, h.builds, h.initialises⟩⟩

end Bean

namespace Plan

/-- What wirings by the standard injector rely on, once all beans are resolved. -/
structure Reliable (plan : Plan) (r : Registry) : Prop where
  standard : plan.injector = .standard
  indexed : plan.Indexed r
  decided : r.Decided
  dependable : ∀ b bean, plan.beans[b]? = some bean → r.status b ≠ .deleted → bean.Dependable

/-- The beans of `S` are under way, fewer than `n` are still to be built, and those
that are wired could be built. -/
structure Partway (plan : Plan) (r : Registry) (S : List Nat) (n : Nat) (a : Assembly) : Prop where
  steady : r.Steady a.registry
  underway : ∀ b, a.registry.status b = .creating ↔ b ∈ S
  wired : ∀ b, a.registry.status b = .wired → plan.Buildable r b ∧ (a.registry.held b).isSome
  room : a.registry.unbuilt.card < n

/-- The bean can be built, and neither it nor one that it leads to is in `S`. -/
structure Open (plan : Plan) (r : Registry) (S : List Nat) (b : Nat) : Prop where
  buildable : plan.Buildable r b
  clear : ∀ x ∈ S, ¬ ReflTransGen (plan.Asks r) b x

/-- A wiring of a bean that takes part wires it only if it can be built, and does if it
is open. -/
def Wires (plan : Plan) (r : Registry) (S : List Nat) (n : Nat) (wire : Nat → Wiring Unit) : Prop :=
  ∀ b a, r.status b ≠ .deleted → plan.Partway r S n a →
    After (wire b) a (Split (fun t => plan.Partway r S n t ∧ t.registry.status b = .wired)
      fun _ => ¬ plan.Open r S b)

variable {plan : Plan} {r : Registry} {S : List Nat} {n b c : Nat} {a : Assembly}
  {wire : Nat → Wiring Unit} {asker : Asker} {sel : Selector} {t : TypeName} {bean : Bean}
  {arg : Arg} {α : Type} {C D : Prop}

/-! ### On the way -/

theorem Partway.congr (h : plan.Partway r S n a) {a' : Assembly} (ha : a'.registry = a.registry) :
    plan.Partway r S n a' := by
  obtain ⟨steady, underway, wired, room⟩ := h
  rw [← ha] at steady underway wired room
  exact ⟨steady, underway, wired, room⟩

theorem Partway.begin (h : plan.Partway r S (n + 1) a) (hb : a.registry.status b = .resolved) :
    plan.Partway r (b :: S) n (a.setStatus b .creating) := by
  have hlt : b < a.registry.marks.length := Registry.lt_length_of_status_eq hb (by decide)
  have hself : (a.setStatus b .creating).registry.status b = .creating :=
    Registry.status_setStatus_self _ _ _ hlt
  have hother : ∀ c ≠ b, (a.setStatus b .creating).registry.status c = a.registry.status c :=
    fun c hc => Registry.status_setStatus_of_ne _ _ _ _ hc
  refine ⟨h.steady.trans (.setStatus (by rw [hb]; rfl) rfl), fun c => ?_, fun c hc => ?_, ?_⟩
  · by_cases hcb : c = b
    · rw [hcb]
      exact iff_of_true hself List.mem_cons_self
    · rw [hother c hcb, h.underway, List.mem_cons, or_iff_right hcb]
  · by_cases hcb : c = b
    · rw [hcb, hself] at hc
      cases hc
    · rw [hother c hcb] at hc
      show _ ∧ ((a.registry.setStatus b .creating).held c).isSome
      rw [Registry.held_setStatus]
      exact h.wired c hc
  · have hlt : (a.begin b).registry.unbuilt.card < a.registry.unbuilt.card := Moves.unbuilt_begin hb
    have hroom := h.room
    show (a.begin b).registry.unbuilt.card < n
    omega

/-- The bean that was begun last is held, and was not under way before. -/
theorem Partway.hold (h : plan.Partway r (b :: S) n a) (hS : b ∉ S) (hb : plan.Buildable r b)
    (i : Instance) : plan.Partway r S (n + 1) (a.hold b i) ∧
      (a.hold b i).registry.status b = .wired := by
  have hcreating : a.registry.status b = .creating := (h.underway b).mpr List.mem_cons_self
  have hlt : b < a.registry.marks.length := Registry.lt_length_of_status_eq hcreating (by decide)
  have hheld : a.registry.Steady (a.registry.setHeld b i) := .setHeld _ b i
  have hself : (a.hold b i).registry.status b = .wired :=
    Registry.status_setStatus_self _ _ _ (by rwa [Registry.length_setHeld])
  have hother : ∀ c ≠ b, (a.hold b i).registry.status c = a.registry.status c := fun c hc =>
    (Registry.status_setStatus_of_ne _ _ _ _ hc).trans (Registry.status_setHeld ..)
  have hsettled : ((a.registry.setHeld b i).status b).isSettled := by
    rw [hheld.isSettled, hcreating]
    rfl
  refine ⟨⟨h.steady.trans (hheld.trans (.setStatus hsettled rfl)), fun c => ?_, fun c hc => ?_, ?_⟩,
    hself⟩
  · by_cases hcb : c = b
    · rw [hcb, hself]
      exact iff_of_false (by decide) hS
    · rw [hother c hcb, h.underway, List.mem_cons, or_iff_right hcb]
  · show _ ∧ (((a.registry.setHeld b i).setStatus b .wired).held c).isSome
    rw [Registry.held_setStatus]
    by_cases hcb : c = b
    · rw [hcb, Registry.held_setHeld_self _ _ _ hlt]
      exact ⟨hb, rfl⟩
    · rw [hother c hcb] at hc
      rw [Registry.held_setHeld_of_ne _ _ _ _ hcb]
      exact h.wired c hc
  · show ((a.registry.setHeld b i).setStatus b .wired).unbuilt.card < n + 1
    rw [Registry.unbuilt_setStatus rfl, Registry.unbuilt_setHeld]
    exact Finset.card_erase_le.trans_lt (h.room.trans n.lt_succ_self)

/-! ### Arguments -/

theorem hinges_orDenied {x : Wiring α} (hx : Hinges (plan.Partway r S n) C D x) :
    Hinges (plan.Partway r S n) C D (orDenied asker x) := by
  intro a ha
  unfold orDenied
  rw [after_noting]
  refine (hx a ha).mono fun r t ht => ?_
  cases r <;> exact ht

/-- A lookup finds the beans that are present, and changes nothing. -/
theorem hinges_find (hcalm : r.Calm) {f : List Nat → Wiring α}
    (hf : Hinges (plan.Partway r S n) C D (f (plan.present r sel))) :
    Hinges (plan.Partway r S n) C D (Wiring.ofResolving (plan.find sel) >>= f) := by
  intro a ha
  rw [after_bind, after_ofResolving]
  refine (find_of_calm (ha.steady.calm hcalm) sel).mono fun x q ⟨hq, hx⟩ => ?_
  subst hx
  rw [ha.steady.present]
  exact hf { a with progress := q } (ha.congr hq.registry)

theorem single_of_ne (plan : Plan) (t : TypeName) {bs : List Nat} (h : ∀ b, bs ≠ [b]) :
    ∃ e, plan.single t bs = .error e := by
  match bs with
  | [] => exact ⟨_, rfl⟩
  | [b] => exact absurd rfl (h b)
  | _ :: _ :: _ => exact ⟨_, rfl⟩

theorem Reliable.calm (h : plan.Reliable r) : r.Calm := fun b hb => by
  have hd := h.decided b
  rw [hb] at hd
  rcases hd with hd | hd <;> cases hd

section
variable (h : plan.Reliable r) (hwire : plan.Wires r S n wire)
include h hwire

/-- A bean that is wired is received as one of the types that it provides. -/
theorem receive_hinges (hsel : sel = .type t ∨ ∃ name, sel = .typedName t name)
    (hc : plan.Provides r sel c) :
    Hinges (plan.Partway r S n) (plan.Buildable r c) (plan.Open r S c)
      (plan.receive wire asker t c) := by
  intro a ha
  unfold receive demand
  rw [after_bind, after_bind]
  refine (hwire c a hc.1 ha).mono fun x y hy => ?_
  cases x with
  | error cause => exact hy
  | ok _ =>
    obtain ⟨hpartway, hwired⟩ := hy
    obtain ⟨hbuildable, hheld⟩ := hpartway.wired c hwired
    have hsound : plan.Sound y.registry := (h.indexed.steady hpartway.steady).toSound
    have hoffers := hc.offers hsel
    rw [← hpartway.steady.exports] at hoffers
    obtain ⟨i, hi⟩ := exists_instanceOf hsound hwired hheld hoffers
    simp only [continues_ok, after_bind, after_modify, after_get, Assembly.progress_connect,
      after_ofExcept, hi]
    have hkept : (y.connect c).registry = y.registry :=
      congrArg Progress.registry Assembly.progress_connect
    exact ⟨hpartway.congr hkept, hbuildable⟩

theorem receiveOne_hinges (hsel : sel = .type t ∨ ∃ name, sel = .typedName t name) :
    Hinges (plan.Partway r S n)
      ((∃ c, ∀ e, plan.Provides r sel e ↔ e = c) ∧ ∀ c, plan.Provides r sel c → plan.Buildable r c)
      ((∃ c, ∀ e, plan.Provides r sel e ↔ e = c) ∧ ∀ c, plan.Provides r sel c → plan.Open r S c)
      (plan.receiveOne wire asker t sel) := by
  have hpresent : ∀ c, plan.present r sel = [c] ↔ ∀ e, plan.Provides r sel e ↔ e = c := fun c =>
    (eq_singleton_iff nodup_present).trans (forall_congr' fun e =>
      iff_congr (mem_present h.indexed.toSound h.decided sel) Iff.rfl)
  refine hinges_orDenied (hinges_find h.calm ?_)
  by_cases hone : ∃ c, plan.present r sel = [c]
  · obtain ⟨c, hc⟩ := hone
    have hprovides := (hpresent c).mp hc
    rw [hc]
    refine (receive_hinges h hwire hsel ((hprovides c).mpr rfl)).mono (fun hb => ?_) fun ho =>
      ho.2 c ((hprovides c).mpr rfl)
    exact ⟨⟨c, hprovides⟩, fun e he => ((hprovides e).mp he) ▸ hb⟩
  · obtain ⟨e, he⟩ := single_of_ne plan t (not_exists.mp hone)
    rw [he]
    rintro a - ⟨⟨c, hc⟩, -⟩
    exact hone ⟨c, (hpresent c).mpr hc⟩

theorem receiveAll_hinges :
    Hinges (plan.Partway r S n) (∀ c, plan.Provides r (.type t) c → plan.Buildable r c)
      (∀ c, plan.Provides r (.type t) c → plan.Open r S c) (plan.receiveAll wire asker t) := by
  have hmem : ∀ c, c ∈ plan.present r (.type t) ↔ plan.Provides r (.type t) c := fun c =>
    mem_present h.indexed.toSound h.decided (.type t)
  refine hinges_orDenied (hinges_find h.calm ?_)
  refine (Hinges.mapM fun c hc => receive_hinges h hwire (.inl rfl) ((hmem c).mp hc)).mono ?_ ?_
  · exact fun hb c hc => hb c ((hmem c).mpr hc)
  · exact fun ho c hc => ho c ((hmem c).mp hc)

/-- A plain argument can be had only if beans that can be built serve it, and can if
these are open. -/
theorem gather_hinges (harg : arg.isPlain) :
    Hinges (plan.Partway r S n) (plan.Serves r (plan.Buildable r) arg)
      (plan.Serves r (plan.Open r S) arg) (plan.gather wire asker arg) := by
  cases arg with
  | one u =>
    refine ((receiveOne_hinges h hwire (.inl rfl)).andThen fun i => hinges_pure _).mono
      (fun hC => ⟨fun _ sel hsel => ?_, fun sel hsel => ?_⟩) fun hD => ⟨hD.1 rfl _ rfl, hD.2 _ rfl⟩
    · cases hsel
      exact hC.1
    · cases hsel
      exact hC.2
  | named u name =>
    refine ((receiveOne_hinges h hwire (.inr ⟨name, rfl⟩)).andThen fun i => hinges_pure _).mono
      (fun hC => ⟨fun _ sel hsel => ?_, fun sel hsel => ?_⟩) fun hD => ⟨hD.1 rfl _ rfl, hD.2 _ rfl⟩
    · cases hsel
      exact hC.1
    · cases hsel
      exact hC.2
  | every u =>
    refine ((receiveAll_hinges h hwire).andThen fun is => hinges_pure _).mono
      (fun hC => ⟨fun hone => (by cases hone), fun sel hsel => ?_⟩) fun hD => hD.2 _ rfl
    cases hsel
    exact hC
  | properties keys => exact (hinges_pure _).mono (fun _ => .of_none rfl) fun _ => trivial
  | token => exact (hinges_pure _).mono (fun _ => .of_none rfl) fun _ => trivial
  | _ => cases harg

/-! ### Creations -/

theorem obtain_hinges (hbean : bean.Dependable) :
    Hinges (plan.Partway r S n) (∀ arg ∈ bean.args, plan.Serves r (plan.Buildable r) arg)
      (∀ arg ∈ bean.args, plan.Serves r (plan.Open r S) arg) (plan.obtain wire b bean) := by
  obtain ⟨hplain, hbuilds, -⟩ := hbean
  unfold obtain
  unfold Bean.buildFailure? at hbuilds
  unfold Bean.args at hplain ⊢
  cases hsource : bean.source with
  | object i => exact (hinges_pure i).mono (fun _ _ h => absurd h List.not_mem_nil) fun _ => trivial
  | window =>
    refine ((hinges_modify fun a ha => ?_).andThen fun _ => hinges_pure _).mono
      (fun _ _ h => absurd h List.not_mem_nil) fun _ => trivial
    exact ha.congr rfl
  | constructor recipe =>
    rw [hsource] at hplain hbuilds
    have hsucceeds : recipe.failure = none := hbuilds
    unfold build
    have hgather := Hinges.mapM (f := plan.gather wire (.bean b)) fun arg harg =>
      gather_hinges h hwire (hplain arg harg)
    refine hgather.andThen fun values => ?_
    rw [hsucceeds]
    intro a ha
    exact ⟨ha.congr rfl, trivial⟩

end

theorem initialise_hinges (hbean : bean.Dependable) (i : Instance) :
    Hinges (plan.Partway r S n) True True (initialise b bean i) := by
  have hinit := hbean.initialises
  unfold Bean.initFailure? at hinit
  unfold initialise
  cases hhook : bean.init with
  | none => exact hinges_pure ()
  | some hook =>
    rw [hhook] at hinit
    have hsucceeds : hook.failure = none := hinit
    refine (hinges_modify fun a ha => ha.congr rfl).andThen fun _ => ?_
    rw [hsucceeds]
    exact hinges_pure ()

/-- What serves a bean that is open is open beside the bean as well. -/
theorem Open.serves (h : plan.Open r S b) (hb : r.status b ≠ .deleted)
    (hbean : plan.beans[b]? = some bean) (harg : arg ∈ bean.args) :
    plan.Serves r (plan.Open r (b :: S)) arg := by
  refine (h.buildable.serves hb hbean harg).mono fun c ⟨hc, hasks⟩ => ⟨hc, fun x hx hcx => ?_⟩
  -- a way back to the bean itself would close a cycle, any other starts at the bean
  rcases List.mem_cons.mp hx with rfl | hx
  · exact h.buildable.acyclic (.head' hasks hcx)
  · exact h.clear x hx (.head hasks hcx)

/-- The creation of a bean, when those that its constructor asks for are wired beside it. -/
theorem create_wires (h : plan.Reliable r) (hwire : plan.Wires r (b :: S) n wire)
    (hbean : plan.beans[b]? = some bean) (ha : plan.Partway r S (n + 1) a)
    (hb : a.registry.status b = .resolved) :
    After (plan.create wire b) a (Split
      (fun t => plan.Partway r S (n + 1) t ∧ t.registry.status b = .wired)
      fun _ => ¬ plan.Open r S b) := by
  have hactive : r.status b ≠ .deleted := by
    rw [ne_eq, ← ha.steady.status_eq_iff rfl, hb]
    decide
  have hS : b ∉ S := fun hin => by
    have hcreating := (ha.underway b).mpr hin
    rw [hb] at hcreating
    cases hcreating
  have hdependable := h.dependable b bean hbean hactive
  rw [after_create hbean]
  -- only the arguments decide, since neither the constructor nor the hook fails
  refine (obtain_hinges h hwire hdependable _ (ha.begin hb)).mono fun x t ht => ?_
  cases x with
  | error cause => exact fun ho => ht fun arg harg => ho.serves hactive hbean harg
  | ok i =>
    obtain ⟨ht, hserves⟩ := ht
    refine (initialise_hinges hdependable i t ht).mono fun x y hy => ?_
    cases x with
    | error cause => exact absurd trivial hy
    | ok _ =>
      obtain ⟨hheld, hwired⟩ := hy.1.hold hS (.of_serves hbean hserves) i
      exact ⟨hheld.congr rfl, hwired⟩

theorem hand_wires (h : plan.Reliable r) (hwire : ∀ S, plan.Wires r S n wire) :
    plan.Wires r S (n + 1) (plan.hand wire) := by
  intro b a hb ha
  have hlt : b < plan.beans.length := h.indexed.length ▸ Registry.lt_length_of_status hb
  have hbean : plan.beans[b]? = some plan.beans[b] := List.getElem?_eq_getElem hlt
  have hsettled : (a.registry.status b).isSettled :=
    ha.steady.isSettled b ▸ (h.decided b).resolve_right hb
  rw [after_hand_standard h.standard hbean]
  cases hs : a.registry.status b with
  | wired => exact ⟨ha.congr rfl, hs⟩
  | creating => exact fun ho => ho.clear b ((ha.underway b).mp hs) .refl
  | resolved =>
    refine (create_wires h (hwire (b :: S)) hbean
      (a := { a.note (.handed b) with stack := b :: a.stack }) (ha.congr rfl) hs).mono fun x t ht => ?_
    cases x with
    | error cause => exact ht
    | ok _ =>
      have hkept : (t.keepDestroyer plan b).registry = t.registry :=
        congrArg Progress.registry Assembly.progress_keepDestroyer
      refine ⟨ht.1.congr hkept, ?_⟩
      show (t.keepDestroyer plan b).registry.status b = .wired
      rw [hkept]
      exact ht.2
  | _ =>
    rw [hs] at hsettled
    cases hsettled

/-- Every wiring succeeds as the graph has it. -/
theorem wire_wires (h : plan.Reliable r) : ∀ n S, plan.Wires r S n (plan.wire n)
  | 0, _ => fun _ _ _ ha => absurd ha.room (Nat.not_lt_zero _)
  | n + 1, _ => hand_wires h fun S => wire_wires h n S

theorem wireBean_wires (h : plan.Reliable r) (S : List Nat) :
    plan.Wires r S (plan.beans.length + 1) plan.wireBean :=
  wireBean_standard h.standard ▸ wire_wires h _ S

/-! ### Refreshes -/

/-- A wiring from outside of any creation. -/
theorem wireActive_hinges (h : plan.Reliable r) (hb : r.status b ≠ .deleted) :
    Hinges (plan.Partway r [] (plan.beans.length + 1)) (plan.Buildable r b) (plan.Buildable r b)
      (plan.wireActive b) := by
  intro a ha
  rw [after_wireActive]
  refine (wireBean_wires h [] b a hb ha).mono fun x t ht => ?_
  cases x with
  | ok _ => exact ⟨ht.1, (ht.1.wired b ht.2).1⟩
  | error cause => exact fun hbuildable => ht ⟨hbuildable, fun x hx => absurd hx List.not_mem_nil⟩

/-- All active beans are wired only if the graph is well-formed, and are if it is. -/
theorem wireAll_hinges (h : plan.Reliable r) :
    Hinges (plan.Partway r [] (plan.beans.length + 1)) (plan.WellFormed r) (plan.WellFormed r)
      (r.active.forM plan.wireActive) := by
  have hall := buildable_iff h.indexed.length
  refine (Hinges.forM fun b hb => wireActive_hinges h (Registry.mem_active.mp hb)).mono ?_ ?_
  · exact fun hbuildable => hall.mp fun b hb => hbuildable b (Registry.mem_active.mpr hb)
  · exact fun hwell b hb => hall.mpr hwell b (Registry.mem_active.mp hb)

/-- Nothing is under way when the beans have just been resolved. -/
theorem partway_start {p : Progress} (h : plan.Indexed p.registry)
    (hp : ∀ b, p.registry.status b = .resolved ∨ p.registry.status b = .deleted) :
    plan.Partway p.registry [] (plan.beans.length + 1) (.start p) := by
  have hnone : ∀ b s, s ≠ .resolved → s ≠ .deleted → p.registry.status b ≠ s := by
    intro b s hresolved hdeleted hb
    rcases hp b with h | h
    · exact hresolved (hb.symm.trans h)
    · exact hdeleted (hb.symm.trans h)
  refine ⟨.refl _, fun b => ?_, fun b hb => ?_, ?_⟩
  · exact iff_of_false (hnone b _ (by decide) (by decide)) List.not_mem_nil
  · exact absurd hb (hnone b _ (by decide) (by decide))
  · exact Nat.lt_succ_of_le (Registry.card_having_le.trans (Nat.le_of_eq h.length))

/-- Without configurations a refresh goes from the resolution straight to the wiring. -/
theorem refresh_wires {p q : Progress} (hresolved : outcome plan.resolveAll p = (.ok (), q))
    (h : plan.Reliable q.registry)
    (hq : ∀ b, q.registry.status b = .resolved ∨ q.registry.status b = .deleted) :
    After (plan.refresh []) (.start p) fun x t =>
      (plan.WellFormed q.registry → .beansWired ∈ t.events) ∧
        ∀ ds, x = .ok ds → plan.WellFormed q.registry := by
  have hstart : plan.Partway q.registry [] (plan.beans.length + 1)
      (((Assembly.start q).note .beansResolved).note .configurationsApplied) :=
    (partway_start h.indexed hq).congr rfl
  have hpast : After plan.resolveAll p fun x t => x = .ok () ∧ t = q := by
    unfold After
    rw [hresolved]
    exact ⟨rfl, rfl⟩
  unfold refresh
  rw [after_bind, Refreshing.after_ofResolving]
  refine hpast.mono fun x t ⟨hx, ht⟩ => ?_
  rw [hx, ht]
  have hadmitted : plan.admitted ([] : List Configuration).zipIdx = pure [] := rfl
  have harranged : Precedence.arrange (fun c : Configuration × Nat => c.1.title)
      (fun c d => c.1.runsAfter d.1) [] = .ok [] := rfl
  have hconfigured : ([] : List (Configuration × Nat)).forM
      (fun c => plan.configure c.1 c.2) = pure PUnit.unit := rfl
  simp only [Except.mapError, continues_ok, after_bind, after_modify, after_get, hadmitted,
    Refreshing.after_ofResolving, after_pure, harranged, Refreshing.after_ofSorted, hconfigured]
  show After (q.registry.active.forM plan.wireActive) _ _
  refine (wireAll_hinges h _ hstart).mono fun x y hy => ?_
  cases x with
  | error e => exact ⟨fun hwell => absurd hwell hy, fun ds hds => by cases hds⟩
  | ok _ =>
    simp only [continues_ok, after_bind, after_modify, after_get, Refreshing.after_ofSorted]
    exact ⟨fun _ => List.mem_cons_self, fun _ _ => hy.2⟩

/-- What is left behind the wiring, to put the destroyers into order, does not fail. -/
theorem refresh_ok_iff {p q : Progress} (hp : p.Idle)
    (hlen : p.registry.marks.length = plan.beans.length)
    (hresolved : outcome plan.resolveAll p = (.ok (), q)) (h : plan.Reliable q.registry)
    (hq : ∀ b, q.registry.status b = .resolved ∨ q.registry.status b = .deleted) :
    (∃ ds, (outcome (plan.refresh []) (.start p)).1 = .ok ds) ↔ plan.WellFormed q.registry := by
  obtain ⟨hwired, hok⟩ := refresh_wires hresolved h hq
  refine ⟨fun ⟨ds, hds⟩ => hok ds hds, fun hwell => ?_⟩
  have hends : plan.Ends _ _ := refresh_ends h.standard [] hp hlen
  rcases hends.finished with ⟨ds, _, hds, -⟩ | ⟨e, -, hearly⟩
  · exact ⟨ds, hds⟩
  · exact absurd trivial (hearly _ (hwired hwell))

end Plan

namespace Container

/-- A refresh without configurations, whose beans have all been resolved and cannot fail by
themselves, succeeds if and only if each argument that takes one bean has exactly one and no
bean asks for itself, directly or through others. -/
theorem refresh_succeeds_iff (compositions : Compositions) (ops : List Operation) :
    let c := ((empty .standard compositions).performAll ops).2
    let f := c.freeze.2
    c.phase = .unrefreshed → c.freeze.1 = none → c.configurations = [] →
      ∀ q, outcome f.plan.resolveAll f.progress = (.ok (), q) →
        (∀ b, q.registry.status b = .resolved ∨ q.registry.status b = .deleted) →
        (∀ b bean, f.beans[b]? = some bean → q.registry.status b = .resolved → bean.Dependable) →
          (c.refresh.1 = .ok (.ok ()) ↔ f.plan.WellFormed q.registry) := by
  intro c f hnew hdistinct hnone q hresolved hq hdependable
  obtain ⟨hinjector, -, hidle, hlen⟩ := (performAll_orderly compositions ops).freeze hnew
  have hfrozen : Frozen f.plan f.progress :=
    (performAll_lasts lasts_steadfast .standard compositions ops).frozen hnew
  have hindexed : f.plan.Indexed q.registry := by
    have h : After f.plan.resolveAll f.progress _ := Plan.resolveAll_resolved hfrozen
    exact ((h.of_outcome hresolved).2 rfl).toIndexed
  have hreliable : f.plan.Reliable q.registry := by
    refine ⟨hinjector, hindexed, fun b => ?_, fun b bean hbean hb => ?_⟩
    · exact (hq b).imp_left fun h => by rw [h]; rfl
    · exact hdependable b bean hbean ((hq b).resolve_right hb)
  have hconfigurations : f.configurations = [] := by
    show c.freeze.2.configurations = []
    rw [c.freeze_spec]
    exact hnone
  rw [refresh_of_distinct hnew hdistinct, complete_ok_iff]
  show (∃ ds, (outcome (f.plan.refresh f.configurations) (.start f.progress)).1 = .ok ds) ↔ _
  rw [hconfigurations]
  exact Plan.refresh_ok_iff hidle hlen hresolved hreliable hq

/-- A pool, two beans that share it, one by its name, and a hub that takes all readers
and the writer. -/
def diamond : List Operation :=
  let bean (t : TypeName) (n : Nat) (args : List Arg) : Bean :=
    .plain t (.main n) (.constructor ⟨args, .part, t.name, none⟩)
  [.register { bean (.of "app::Pool") 1 [] with name := some "main" },
    .register (bean (.of "app::Reader") 2 [.one (.of "app::Pool"), .properties ["url"]]),
    .register (bean (.of "app::Writer") 3 [.named (.of "app::Pool") "main", .token]),
    .register (bean (.of "app::Hub") 4 [.every (.of "app::Reader"), .one (.of "app::Writer")])]

theorem refresh_succeeds_iff_of_diamond :
    let c := ((empty .standard ⟨[]⟩).performAll diamond).2
    let q := (outcome c.freeze.2.plan.resolveAll c.freeze.2.progress).2
    c.phase = .unrefreshed ∧ c.refresh.1 = .ok (.ok ()) ∧ c.freeze.2.plan.WellFormed q.registry := by
  intro c q
  have hnew : c.phase = .unrefreshed := by decide +kernel
  have hok : c.refresh.1 = .ok (.ok ()) := by decide +kernel
  have hstatus : ∀ b < 4, q.registry.status b = .resolved := by decide +kernel
  have hlength : q.registry.marks.length = 4 := by decide +kernel
  have hdependable : c.freeze.2.beans.all fun bean => bean.Dependable := by decide +kernel
  refine ⟨hnew, hok, ?_⟩
  refine (refresh_succeeds_iff ⟨[]⟩ diamond hnew (by decide +kernel) (by decide +kernel) q
    (Prod.ext (by decide +kernel) rfl) (fun b => ?_) fun b bean hbean _ => ?_).mp hok
  · refine or_iff_not_imp_right.mpr fun hb => hstatus b ?_
    exact hlength ▸ Registry.lt_length_of_status hb
  · exact of_decide_eq_true (List.all_eq_true.mp hdependable bean (List.mem_of_getElem? hbean))

end Container
end Inversion
