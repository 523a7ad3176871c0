/-
# Cycles

The standard injector answers that a bean is in a cycle if the bean is marked as
being created. A creation that fails takes neither this mark nor the bean's place
on the path back, so there are two records besides what is really under way: the
creations that have begun and not ended (`underway`). They agree as long as no
creation fails. `Chained` says how far they agree in any case: the marked beans are
those under way with those whose creation has failed, and every bean under way was
requested by the one around it.

So a cycle is genuine, with the bean's creation under way, unless the creation of
that very bean has failed before, and if none has failed, the path leads from the
bean by requests back to itself (`cycle_genuine_iff`).
-/
import Mathlib.Data.List.Chain
import Mathlib.Data.List.Infix
import Inversion.Proofs.Closing

namespace Inversion

/-! ### What is under way, by the events -/

/-- The beans whose creation has begun and not ended, the innermost first. -/
def underway : List Event → List Nat
  | [] => []
  | .status b .creating :: es => b :: underway es
  | .creationEnded b _ :: es => (underway es).erase b
  | _ :: es => underway es

/-- The beans that were handed to the injector, each with the innermost bean under way
then, which has requested it. -/
def requests : List Event → List (Nat × Nat)
  | [] => []
  | .handed x :: es => ((underway es).head?.map fun y => (x, y)).toList ++ requests es
  | _ :: es => requests es

/-- The creation of the bean has failed. -/
def Failed (es : List Event) (b : Nat) : Prop :=
  ∃ cause, .creationEnded b (some cause) ∈ es

/-- Events that leave alone what is under way and answer no cycle. -/
def Event.IsNeutral : Event → Prop
  | status _ s => s ≠ .creating
  | creationEnded _ _ => False
  | answered _ (some (.cycle _)) => False
  | _ => True

theorem Event.IsOfResolution.isNeutral {e : Event} (h : e.IsOfResolution) : e.IsNeutral := by
  cases e <;> first | trivial | exact h.1

theorem Event.IsAfterword.isNeutral {e : Event} (h : e.IsAfterword) : e.IsNeutral := by
  cases e <;> trivial

section
variable {e : Event} {es : List Event} {b : Nat}

theorem underway_cons (he : e.IsNeutral) : underway (e :: es) = underway es := by
  cases e with
  | status b s => cases s <;> first | rfl | exact absurd rfl he
  | creationEnded b failure => exact he.elim
  | _ => rfl

theorem mem_requests_cons {x y : Nat} (h : (x, y) ∈ requests es) : (x, y) ∈ requests (e :: es) := by
  cases e with
  | handed z => exact List.mem_append_right _ h
  | _ => exact h

/-- The bean handed to the injector is requested by the innermost one. -/
theorem mem_requests_handed {x y : Nat} {ys : List Nat} (h : underway es = y :: ys) :
    (x, y) ∈ requests (.handed x :: es) := by
  refine List.mem_append_left _ ?_
  rw [h]
  simp

theorem failed_cons (he : ∀ cause, e ≠ .creationEnded b (some cause)) :
    Failed (e :: es) b ↔ Failed es b := by
  refine ⟨fun ⟨cause, h⟩ => ⟨cause, ?_⟩, fun ⟨cause, h⟩ => ⟨cause, List.mem_cons_of_mem e h⟩⟩
  exact (List.mem_cons.mp h).resolve_left fun h => he cause h.symm

theorem Event.IsNeutral.failed_cons (he : e.IsNeutral) : Failed (e :: es) b ↔ Failed es b :=
  Inversion.failed_cons fun cause h => by rw [h] at he; exact he

end

/-! ### Genuine cycles -/

/-- The bean is under way unless its creation has failed, and if none has failed, the
path leads by requests from it back to it. -/
structure Encircles (plan : Plan) (earlier : List Event) (b : Nat) (path : List String) : Prop where
  underway_iff : b ∈ underway earlier ↔ ¬ Failed earlier b
  path : (∀ c, ¬ Failed earlier c) → ∃ inner outer, underway earlier = inner ++ b :: outer ∧
    path = (outer.reverse ++ b :: inner.reverse ++ [b]).map plan.idOf ∧
    List.IsChain (fun x y => (x, y) ∈ requests (.handed b :: earlier)) (b :: inner ++ [b])

/-- All cycles that were answered for a bean itself are so. -/
def Genuine (plan : Plan) (es : List Event) : Prop :=
  ∀ later b path earlier,
    es = later ++ .answered b (some (.cycle path)) :: .handed b :: earlier →
      Encircles plan earlier b path

section
variable {plan : Plan} {e : Event} {es : List Event}

theorem Genuine.cons (h : Genuine plan es) (he : ∀ b path earlier,
    e :: es = .answered b (some (.cycle path)) :: .handed b :: earlier →
      Encircles plan earlier b path) : Genuine plan (e :: es) := by
  intro later b path earlier hes
  cases later with
  | nil => exact he b path earlier hes
  | cons e' later =>
    obtain ⟨-, hes⟩ := List.cons.inj hes
    exact h later b path earlier hes

theorem Genuine.cons_of_ne (h : Genuine plan es)
    (he : ∀ b path, e ≠ .answered b (some (.cycle path))) : Genuine plan (e :: es) :=
  h.cons fun b path _ hes => absurd (List.cons.inj hes).1 (he b path)

theorem genuine_of_neutral : ∀ {es : List Event}, (∀ e ∈ es, e.IsNeutral) → Genuine plan es
  | [], _ => by
    intro later b path earlier hes
    simp at hes
  | e :: es, h => by
    have he := h e List.mem_cons_self
    refine (genuine_of_neutral fun e' he' => h e' (List.mem_cons_of_mem e he')).cons_of_ne ?_
    rintro b path rfl
    exact he

theorem Event.IsNeutral.ne_cycle (he : e.IsNeutral) (b : Nat) (path : List String) :
    e ≠ .answered b (some (.cycle path)) := by
  rintro rfl
  exact he

end

/-! ### Chains of creations -/

/-- The beans of `chain` are under way, each requested by the next, and they are marked
as being created, as are those whose creation has failed, and no other. If none has
failed, `chain` is the path. -/
structure Chained (plan : Plan) (chain : List Nat) (a : Assembly) : Prop where
  calm : a.registry.Calm
  underway : underway a.events = chain
  nodup : chain.Nodup
  creating : ∀ b, a.registry.status b = .creating ↔ b ∈ chain ∨ Failed a.events b
  unfailed : ∀ b ∈ chain, ¬ Failed a.events b
  stack : (∀ b, ¬ Failed a.events b) → a.stack = chain
  links : chain.IsChain fun x y => (x, y) ∈ requests a.events
  genuine : Genuine plan a.events

namespace Chained

variable {plan : Plan} {chain : List Nat} {a a' : Assembly} {b : Nat} {e : Event}

theorem congr (h : Chained plan chain a) (hp : a'.progress = a.progress) (hs : a'.stack = a.stack) :
    Chained plan chain a' := by
  obtain ⟨calm, underway, nodup, creating, unfailed, stack, links, genuine⟩ := h
  refine ⟨?_, ?_, nodup, ?_, ?_, ?_, ?_, ?_⟩ <;>
    simpa only [Assembly.registry, Assembly.events, hp, hs]

theorem note (h : Chained plan chain a) (he : e.IsNeutral) : Chained plan chain (a.note e) where
  calm := h.calm
  underway := (underway_cons he).trans h.underway
  nodup := h.nodup
  creating b := (h.creating b).trans (or_congr_right he.failed_cons.symm)
  unfailed b hb hf := h.unfailed b hb (he.failed_cons.mp hf)
  stack hn := h.stack fun b hf => hn b (he.failed_cons.mpr hf)
  links := h.links.imp fun _ _ => mem_requests_cons
  genuine := h.genuine.cons_of_ne he.ne_cycle

theorem remarked (h : Chained plan chain a) {p : Progress} (hp : a.progress.Remarked p) :
    Chained plan chain { a with progress := p } := by
  induction hp with
  | refl => exact h
  | note _ he ih => exact ih.note he.isOfResolution.isNeutral

/-! ### Steps of a creation -/

theorem not_failed (h : Chained plan chain a) (hb : a.registry.status b ≠ .creating) :
    ¬ Failed a.events b := fun hf => hb ((h.creating b).mpr (.inr hf))

/-- A resolved bean is begun, requested by the one whose creation is innermost. -/
theorem begin (h : Chained plan chain a) (hb : a.registry.status b = .resolved) :
    Chained plan (b :: chain)
      ({ a.note (.handed b) with stack := b :: a.stack }.setStatus b .creating) := by
  have hlt : b < a.registry.marks.length := Registry.lt_length_of_status_eq hb (by decide)
  have hne : a.registry.status b ≠ .creating := by
    rw [hb]
    decide
  have hunfailed : ¬ Failed a.events b := h.not_failed hne
  have hout : b ∉ chain := fun hin => hne ((h.creating b).mpr (.inl hin))
  have hfailed : ∀ c, Failed (.status b .creating :: .handed b :: a.events) c ↔ Failed a.events c :=
    fun c => (failed_cons (by simp)).trans (failed_cons (by simp))
  refine ⟨h.calm.setStatus (by decide), congrArg (b :: ·) h.underway, ?_, fun c => ?_, fun c hc => ?_,
    fun hn => ?_, ?_, ?_⟩
  · exact List.nodup_cons.mpr ⟨hout, h.nodup⟩
  · show (a.registry.setStatus b .creating).status c = .creating ↔ _ ∨ Failed (_ :: _ :: a.events) c
    rw [Registry.status_setStatus, hfailed, List.mem_cons, or_assoc, ← h.creating c]
    by_cases hcb : c = b
    · simp [hcb, hlt]
    · simp [hcb]
  · show ¬ Failed (_ :: _ :: a.events) c
    rw [hfailed]
    rcases List.mem_cons.mp hc with rfl | hc
    · exact hunfailed
    · exact h.unfailed c hc
  · exact congrArg (b :: ·) (h.stack fun c hf => hn c ((hfailed c).mpr hf))
  · show List.IsChain (fun x y => (x, y) ∈ requests (.handed b :: a.events)) (b :: chain)
    have hlinks := h.links.imp fun x y => mem_requests_cons (e := .handed b)
    cases chain with
    | nil => exact List.isChain_singleton b
    | cons c rest => exact List.isChain_cons_cons.mpr ⟨mem_requests_handed h.underway, hlinks⟩
  · exact (h.genuine.cons_of_ne (e := .handed b) (by simp)).cons_of_ne (by simp)

/-- A creation that fails leaves its mark, and its place on the path. -/
theorem fail (h : Chained plan (b :: chain) a) (cause : WireError) :
    Chained plan chain (a.note (.creationEnded b (some cause))) := by
  obtain ⟨hout, hnodup⟩ := List.nodup_cons.mp h.nodup
  have hself : Failed (.creationEnded b (some cause) :: a.events) b := ⟨cause, List.mem_cons_self⟩
  have hother : ∀ c, c ≠ b →
      (Failed (.creationEnded b (some cause) :: a.events) c ↔ Failed a.events c) := fun c hc =>
    failed_cons fun cause' he => by cases he; exact hc rfl
  refine ⟨h.calm, ?_, hnodup, fun c => ?_, fun c hc hf => ?_, fun hn => absurd hself (hn b), ?_, ?_⟩
  · show (Inversion.underway a.events).erase b = chain
    rw [h.underway, List.erase_cons_head]
  · show a.registry.status c = .creating ↔ _ ∨ Failed (_ :: a.events) c
    rw [h.creating c, List.mem_cons]
    by_cases hcb : c = b
    · subst hcb
      exact iff_of_true (.inl (.inl rfl)) (.inr hself)
    · rw [hother c hcb]
      simp [hcb]
  · have hcb : c ≠ b := by
      rintro rfl
      exact hout hc
    exact h.unfailed c (List.mem_cons_of_mem b hc) ((hother c hcb).mp hf)
  · exact h.links.tail
  · exact h.genuine.cons_of_ne (by simp)

/-- A creation that succeeds takes its mark back, and the injector the bean's place on
the path. -/
theorem finish (h : Chained plan (b :: chain) a) (i : Instance) :
    Chained plan chain (a.finish plan b i) := by
  obtain ⟨hout, hnodup⟩ := List.nodup_cons.mp h.nodup
  have hunfailed : ¬ Failed a.events b := h.unfailed b List.mem_cons_self
  have hlt : b < a.registry.marks.length :=
    Registry.lt_length_of_status_eq ((h.creating b).mpr (.inl List.mem_cons_self)) (by decide)
  have hevents : (a.finish plan b i).events =
      .wired b :: .creationEnded b none :: .status b .wired :: a.events := Assembly.events_finish
  have hfailed : ∀ c, Failed (a.finish plan b i).events c ↔ Failed a.events c := fun c => by
    rw [hevents]
    exact (failed_cons (by simp)).trans ((failed_cons (by simp)).trans (failed_cons (by simp)))
  have hstack : (a.finish plan b i).stack = a.stack.tail := by
    show (Assembly.keepDestroyer _ _ _).stack.tail = _
    rw [Assembly.stack_keepDestroyer]
    rfl
  refine ⟨?_, ?_, hnodup, fun c => ?_, fun c hc => ?_, fun hn => ?_, ?_, ?_⟩
  · rw [Assembly.registry_finish]
    exact Registry.Calm.setStatus (fun c => by rw [Registry.status_setHeld]; exact h.calm c) (by decide)
  · rw [hevents]
    show (Inversion.underway a.events).erase b = chain
    rw [h.underway, List.erase_cons_head]
  · rw [hfailed]
    by_cases hcb : c = b
    · subst hcb
      rw [Assembly.status_finish_self hlt]
      exact iff_of_false (by decide) (not_or.mpr ⟨hout, hunfailed⟩)
    · rw [Assembly.status_finish_of_ne hcb, h.creating c, List.mem_cons]
      simp [hcb]
  · rw [hfailed]
    exact h.unfailed c (List.mem_cons_of_mem b hc)
  · rw [hstack, h.stack fun c hf => hn c ((hfailed c).mpr hf)]
    rfl
  · rw [hevents]
    exact h.links.tail
  · rw [hevents]
    have hheld : Genuine plan (.status b .wired :: a.events) := h.genuine.cons_of_ne (by simp)
    exact (hheld.cons_of_ne (e := .creationEnded b none) (by simp)).cons_of_ne (by simp)

/-- The cycle that the injector answers for a bean that is marked. -/
theorem encircles (h : Chained plan chain a) {bean : Bean} (hbean : plan.beans[b]? = some bean)
    (hb : a.registry.status b = .creating) :
    Encircles plan a.events b (a.path plan ++ [bean.id]) := by
  have hiff : b ∈ chain ↔ ¬ Failed a.events b :=
    ⟨h.unfailed b, ((h.creating b).mp hb).resolve_right⟩
  refine ⟨by rwa [h.underway], fun hn => ?_⟩
  obtain ⟨inner, outer, hchain⟩ := List.append_of_mem (hiff.mpr (hn b))
  refine ⟨inner, outer, h.underway.trans hchain, ?_, ?_⟩
  · have hid : plan.idOf b = bean.id := by simp [Plan.idOf, hbean]
    rw [Assembly.path, h.stack hn, hchain]
    simp [hid]
  · have hlinks := h.links.imp fun x y => mem_requests_cons (e := .handed b)
    have hround : chain = (inner ++ [b]) ++ outer := by simp [hchain]
    have hinner : (inner ++ [b]).IsChain fun x y => (x, y) ∈ requests (.handed b :: a.events) := by
      rw [hround] at hlinks
      exact hlinks.left_of_append
    have hnow : Inversion.underway a.events = inner ++ b :: outer := h.underway.trans hchain
    cases inner with
    | nil => exact List.isChain_cons_cons.mpr ⟨mem_requests_handed hnow, hinner⟩
    | cons c inner => exact List.isChain_cons_cons.mpr ⟨mem_requests_handed hnow, hinner⟩

/-- An answer leaves what is under way, and a cycle answered at once has to be genuine. -/
theorem answer (h : Chained plan chain a) (b : Nat) (failure : Option WireError)
    (hcycle : ∀ path earlier, failure = some (.cycle path) → a.events = .handed b :: earlier →
      Encircles plan earlier b path) : Chained plan chain (a.note (.answered b failure)) where
  calm := h.calm
  underway := h.underway
  nodup := h.nodup
  creating c := (h.creating c).trans (or_congr_right (failed_cons (by simp)).symm)
  unfailed c hc hf := h.unfailed c hc ((failed_cons (by simp)).mp hf)
  stack hn := h.stack fun c hf => hn c ((failed_cons (by simp)).mpr hf)
  links := h.links
  genuine := by
    refine h.genuine.cons fun b' path earlier hes => ?_
    obtain ⟨he, htail⟩ := List.cons.inj hes
    cases he
    exact hcycle path earlier rfl htail

end Chained

/-! ### Wirings -/

namespace Plan

variable {plan : Plan} {wire : Nat → Wiring Unit} {chain : List Nat}

/-- While arguments are gathered, what is under way stays. -/
theorem gathers_chained (hstd : plan.injector = .standard)
    (hw : ∀ b, Keeps (Chained plan chain) (wire b)) (asker : Asker) :
    plan.Gathers wire wire asker (Chained plan chain) fun _ => True where
  find sel a ha := by
    rw [after_ofResolving]
    exact (find_of_calm ha.calm sel).mono fun r q hq => ⟨ha.remarked hq.1, fun _ _ _ _ => trivial⟩
  receive t b _ := by
    refine Keeps.agrees ?_
    refine Carries.bind ((hw b).bind fun _ => carries_modify fun a ha => ?_) fun _ =>
      carries_get_bind fun a ha => ?_
    · exact ha.congr Assembly.progress_connect Assembly.stack_connect
    · cases plan.instanceOf a.progress.registry t b with
      | error cause => exact ha
      | ok i => exact ha.note trivial
  denied a cause ha := ha.note trivial
  meet := (shuns_standard hstd).meet_agrees fun a id ha => ha.note trivial

theorem obtain_chained (hstd : plan.injector = .standard) {b : Nat}
    (hw : ∀ c, Keeps (Chained plan chain) (wire c)) (bean : Bean) :
    Keeps (Chained plan chain) (plan.obtain wire b bean) := by
  refine ((gathers_chained hstd hw _).obtain_agrees (fun a ha => ha.note trivial)
    (fun a ha => ha.note trivial) ?_).keeps
  intro a ha
  have hcounted : Chained plan chain
      { a with progress := { a.progress with made := a.progress.made + 1 } } :=
    ⟨ha.calm, ha.underway, ha.nodup, ha.creating, ha.unfailed, ha.stack, ha.links, ha.genuine⟩
  exact (hcounted.note (e := .built b bean.type (a.progress.made + 1)) trivial).note trivial

/-- Handing a bean to the standard injector leaves what is under way as it was. -/
theorem hand_chained (hstd : plan.injector = .standard)
    (hw : ∀ chain b, Keeps (Chained plan chain) (wire b)) (chain : List Nat) (b : Nat) :
    Keeps (Chained plan chain) (plan.hand wire b) := by
  intro a ha
  cases hbean : plan.beans[b]? with
  | none =>
    unfold hand
    rw [hbean]
    exact ha
  | some bean =>
    have hhanded : Chained plan chain (a.note (.handed b)) := ha.note trivial
    rw [after_hand_standard hstd hbean]
    cases hs : a.registry.status b with
    | wired => exact hhanded.note trivial
    | creating =>
      refine hhanded.answer b _ fun path earlier hpath hes => ?_
      cases hpath
      obtain ⟨-, rfl⟩ := List.cons.inj hes
      exact ha.encircles hbean hs
    | resolved =>
      -- a failure is handed on behind the end of the creation, so it is no cycle at once
      have hfailed : ∀ {t : Assembly} (cause : WireError), Chained plan (b :: chain) t →
          Chained plan chain ((t.note (.creationEnded b (some cause))).note
            (.answered b (some cause))) := fun cause ht =>
        (ht.fail cause).answer b _ fun _ _ _ hes => by cases hes
      rw [after_create hbean]
      refine ((obtain_chained hstd (hw (b :: chain)) bean).after (ha.begin hs)).mono fun r t ht => ?_
      cases r with
      | error cause => exact hfailed cause ht
      | ok i =>
        have hinitialised : Keeps (Chained plan (b :: chain)) (initialise b bean i) :=
          initialise_keeps b bean i fun x hx => hx.note trivial
        refine (hinitialised.after ht).mono fun r x hx => ?_
        cases r with
        | error cause => exact hfailed cause hx
        | ok _ => exact (hx.finish i).note trivial
    | _ => exact hhanded.note trivial

theorem wire_chained (hstd : plan.injector = .standard) :
    ∀ n chain b, Keeps (Chained plan chain) (plan.wire n b)
  | 0, _, _ => carries_pure ()
  | n + 1, chain, b => hand_chained hstd (fun chain b => wire_chained hstd n chain b) chain b

/-! ### Refreshes -/

/-- Outside of any creation nothing is under way. -/
theorem outlasts_chained (hstd : plan.injector = .standard) : plan.Outlasts (Chained plan []) := by
  have hgathers : ∀ asker,
      plan.Gathers plan.wireBean plan.wireBean asker (Chained plan []) fun _ => True :=
    gathers_chained hstd (wire_chained hstd _ [])
  refine ⟨?_, fun configuration c => ?_, fun a ha => ha.note trivial, fun a _ b _ => ?_,
    fun a ha => ha.note trivial⟩
  · refine ofAdmitted_keeps (fun a e he _ ha => ha.note he.isOfResolution.isNeutral) fun sel => ?_
    exact ((hgathers (.bean 0)).find_agrees sel).keeps
  · exact (hgathers _).configure_keeps (fun a _ ha => ha.note trivial) (fun a ha => ha.note trivial)
      fun a ha => ha.note trivial
  · exact wireActive_keeps (wire_chained hstd _ [] b) fun a path ha => ha.note trivial

/-- Before any creation, nothing is under way and nothing has failed. -/
theorem chained_start {p : Progress} (hcalm : p.registry.Calm)
    (hnone : ∀ b, p.registry.status b ≠ .creating) (hneutral : ∀ e ∈ p.events, e.IsNeutral) :
    Chained plan [] (.start p) := by
  have hunderway : ∀ es : List Event, (∀ e ∈ es, e.IsNeutral) → underway es = [] := by
    intro es
    induction es with
    | nil => exact fun _ => rfl
    | cons e es ih =>
      intro h
      rw [underway_cons (h e List.mem_cons_self)]
      exact ih fun e' he' => h e' (List.mem_cons_of_mem e he')
  have hfailed : ∀ b, ¬ Failed p.events b := fun b ⟨cause, hin⟩ => hneutral _ hin
  refine ⟨hcalm, hunderway p.events hneutral, List.nodup_nil, fun b => ?_, ?_, fun _ => rfl,
    List.isChain_nil, genuine_of_neutral hneutral⟩
  · exact iff_of_false (hnone b) (not_or.mpr ⟨List.not_mem_nil, hfailed b⟩)
  · exact fun b hb => absurd hb List.not_mem_nil

theorem persists_neutral : plan.Persists fun p => ∀ e ∈ p.events, e.IsNeutral :=
  persists_events (P := fun es => ∀ e ∈ es, e.IsNeutral) fun _ _ he hes =>
    List.forall_mem_cons.mpr ⟨he.isNeutral, hes⟩

theorem refresh_genuine (hstd : plan.injector = .standard) {p : Progress}
    (hp : Container.Frozen plan p) (configurations : List Configuration) :
    After (plan.refresh configurations) (.start p) fun _ t => Genuine plan t.events := by
  have hneutral : ∀ e ∈ p.events, e.IsNeutral := fun e he => (hp.aside e he).isAfterword.isNeutral
  have hnone : ∀ b, p.registry.status b ≠ .creating := by
    intro b
    rw [hp.registry, Registry.status_ofBeans]
    split <;> decide
  have hlen : p.registry.marks.length = plan.beans.length := by
    rw [hp.registry]
    exact List.length_map ..
  have hpersists : plan.Persists fun q =>
      (∀ e ∈ q.events, e.IsNeutral) ∧ ∀ b, q.registry.status b ≠ .creating :=
    persists_neutral.and (.all fun b =>
      persists_status (P := (· ≠ .creating)) (by decide) (by decide) (by decide) b)
  refine refresh_keeps configurations ((((resolveAll_keeps hpersists).after ⟨hneutral, hnone⟩).and
    (resolveAll_calm hlen)).mono fun r q ⟨hq, hcalm⟩ => ?_)
  cases r with
  | error cause => exact genuine_of_neutral hq.1
  | ok _ =>
    refine ⟨Chained plan [], outlasts_chained hstd, ?_, fun a ha => ha.genuine⟩
    exact (chained_start (hcalm rfl) hq.2 hq.1).note (e := .beansResolved) trivial

end Plan

/-! ### Containers -/

theorem Genuine.congr {plan plan' : Plan} {es : List Event} (h : Genuine plan es)
    (hb : plan'.beans = plan.beans) : Genuine plan' es := by
  intro later b path earlier hes
  have hid : plan'.idOf = plan.idOf := by
    funext c
    unfold Plan.idOf
    rw [hb]
  obtain ⟨hiff, hpath⟩ := h later b path earlier hes
  exact ⟨hiff, by rwa [hid]⟩

namespace Container

theorem lasts_genuine : Lasts fun plan p => plan.injector = .standard → Genuine plan p.events where
  congr _ _ hb _ hi _ h hstd := (h (hi.symm.trans hstd)).congr hb
  note he h hstd := (h hstd).cons_of_ne he.isNeutral.ne_cycle
  start h _ := genuine_of_neutral fun e he => (h.aside e he).isAfterword.isNeutral
  refresh h configurations hstd := Plan.refresh_genuine hstd h configurations
  find {plan} {p} sel h hstd := by
    have hpersists : plan.Persists fun q => Genuine plan q.events :=
      Plan.persists_events (P := Genuine plan) fun e es he hes => hes.cons_of_ne he.isNeutral.ne_cycle
    exact (Plan.find_keeps hpersists sel).after (h hstd)

/-- With the standard injector, where a bean that is handed to it is answered to be in
a cycle, the creation of that bean is under way if and only if it has not failed before.
And if no creation has failed before, the path leads from the outermost bean under way
to this one, and from there, each bean requested by the one before it, back to it. -/
theorem cycle_genuine_iff (compositions : Compositions) (ops : List Operation) :
    let c := ((empty .standard compositions).performAll ops).2
    ∀ later b path earlier,
      c.events = later ++ .answered b (some (.cycle path)) :: .handed b :: earlier →
        (b ∈ underway earlier ↔ ¬ Failed earlier b) ∧
        ((∀ e, ¬ Failed earlier e) →
          ∃ inner outer, underway earlier = inner ++ b :: outer ∧
            path = (outer.reverse ++ b :: inner.reverse ++ [b]).map c.plan.idOf ∧
            List.IsChain (fun x y => (x, y) ∈ requests (.handed b :: earlier))
              (b :: inner ++ [b])) := by
  intro c later b path earlier hes
  have h : Has _ c := performAll_lasts lasts_genuine .standard compositions ops
  have hinjector : c.injector = .standard := (performAll_orderly compositions ops).injector
  have hgenuine : Genuine c.plan c.events := by
    by_cases hn : c.phase = .unrefreshed
    · exact genuine_of_neutral fun e he => (h.new hn e he).isAfterword.isNeutral
    · exact h.since hn hinjector
  have hencircles := hgenuine later b path earlier hes
  exact ⟨hencircles.underway_iff, hencircles.path⟩

/-- A cycle that was answered at once, looked for in a given history. -/
theorem exists_cycle (es : List Event) (check : Nat → List String → List Event → Bool)
    (h : es.tails.any fun es => match es with
      | .answered b (some (.cycle path)) :: .handed b' :: earlier => b == b' && check b path earlier
      | _ => false) :
    ∃ later b path earlier, es = later ++ .answered b (some (.cycle path)) :: .handed b :: earlier ∧
      check b path earlier := by
  obtain ⟨es', hin, hes⟩ := List.any_eq_true.mp h
  obtain ⟨later, hlater⟩ := (List.mem_tails es' es).mp hin
  split at hes
  · rename_i b path b' earlier
    obtain ⟨hb, hcheck⟩ := (Bool.and_eq_true _ _).mp hes
    rw [← beq_iff_eq.mp hb] at hlater
    exact ⟨later, b, path, earlier, hlater.symm, hcheck⟩
  · cases hes

/-- A bean that asks for a second one, and that one for the first. -/
def loop : List Operation :=
  let bean (t : TypeName) (n : Nat) (args : List Arg) : Bean :=
    .plain t (.main n) (.constructor ⟨args, .part, "", none⟩)
  [.register (bean (.of "app::A") 0 [.one (.of "app::C")]), .register (bean (.of "app::C") 2 [.one (.of "app::A")]),
    .refresh]

theorem cycle_genuine_iff_of_loop :
    let c := ((empty .standard ⟨[]⟩).performAll loop).2
    ∃ later b path earlier,
      c.events = later ++ .answered b (some (.cycle path)) :: .handed b :: earlier ∧ b = 0 ∧
        ¬ Failed earlier b := by
  intro c
  obtain ⟨later, b, path, earlier, hes, hcheck⟩ := exists_cycle c.events
    (fun b _ earlier => b == 0 && (underway earlier).contains b) (by decide +kernel)
  obtain ⟨hb, hin⟩ := (Bool.and_eq_true _ _).mp hcheck
  refine ⟨later, b, path, earlier, hes, beq_iff_eq.mp hb, ?_⟩
  exact (cycle_genuine_iff ⟨[]⟩ loop later b path earlier hes).1.mp (List.contains_iff_mem.mp hin)

/-- A bean that goes on after it has asked for one that cannot be built. -/
def swallowed : List Operation :=
  let bean (t : TypeName) (n : Nat) (args : List Arg) (failure : Option String) : Bean :=
    .plain t (.main n) (.constructor ⟨args, .part, "", failure⟩)
  [.register (bean (.of "app::A") 0 [.attempt (.one (.of "app::B")), .one (.of "app::C")] none),
    .register (bean (.of "app::B") 1 [] (some "boom")),
    .register (bean (.of "app::C") 2 [.one (.of "app::A")] none), .refresh]

/-- The path goes through the bean that could not be built, which is not under way and
has requested nothing. -/
theorem cycle_of_swallowed :
    let c := ((empty .standard ⟨[]⟩).performAll swallowed).2
    ∃ later b path earlier,
      c.events = later ++ .answered b (some (.cycle path)) :: .handed b :: earlier ∧
        b = 0 ∧ path = [0, 1, 2, 0].map c.plan.idOf ∧ underway earlier = [2, 0] ∧
        (2, 1) ∉ requests (.handed 0 :: earlier) := by
  intro c
  obtain ⟨later, b, path, earlier, hes, hcheck⟩ := exists_cycle c.events
    (fun b path earlier => decide (b = 0 ∧ path = [0, 1, 2, 0].map c.plan.idOf ∧
      underway earlier = [2, 0] ∧ (2, 1) ∉ requests (.handed 0 :: earlier))) (by decide +kernel)
  exact ⟨later, b, path, earlier, hes, of_decide_eq_true hcheck⟩

end Container
end Inversion
