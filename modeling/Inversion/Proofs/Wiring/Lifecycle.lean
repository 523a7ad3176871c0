/-
# The life of a bean in a wiring

Along every run of the wiring machine a bean waits, then its creation is under way,
and then it is wired or, after a failure, abandoned (`Comes`). The milestones of a
bean, the calls of its constructor and of its hook, follow its state: they are
always a beginning of those that its registration calls for, and all of them once
the bean is wired. So no constructor runs twice, in any run (`Reaches.life`).

Whoever receives a bean receives it wired, before its own constructor is called
(`Reaches.inTurn`), and a bean whose creation has failed stays abandoned
(`Reaches.failures`).
-/
import Inversion.Proofs.Wiring.Machine

namespace Inversion

open Relation

/-! ### Milestones -/

inductive Milestone where
  | invoked
  | instantiated
  | initialised
  deriving DecidableEq

/-- The milestones of a bean that an event tells of. -/
def Event.milestones (b : Nat) : Event → List Milestone
  | built c _ _ => if c = b then [.invoked] else []
  | buildFailed c _ => if c = b then [.invoked] else []
  | instantiated c => if c = b then [.instantiated] else []
  | initialised c _ _ => if c = b then [.initialised] else []
  | _ => []

/-- The milestones of a bean in their order, by a history whose latest event is
the first. -/
def milestones (b : Nat) : List Event → List Milestone
  | [] => []
  | e :: es => milestones b es ++ e.milestones b

def Source.milestones : Source → List Milestone
  | object _ => []
  | constructor _ => [.invoked, .instantiated]
  | window => [.instantiated]

/-- The milestones that a bean's registration calls for. -/
def Bean.milestones (bean : Bean) : List Milestone :=
  bean.source.milestones ++ if bean.init.isSome then [.initialised] else []

theorem Event.IsQuiet.milestones {e : Event} (h : e.IsQuiet) (b : Nat) : e.milestones b = [] := by
  cases e <;> first | rfl | exact h.elim

theorem milestones_of_quiet {b : Nat} : ∀ {es : List Event}, (∀ e ∈ es, e.IsQuiet) →
    milestones b es = []
  | [], _ => rfl
  | e :: es, h => by
    rw [milestones, milestones_of_quiet fun e' he' => h e' (List.mem_cons_of_mem _ he'),
      (h e List.mem_cons_self).milestones]
    rfl

/-! ### The states of a bean -/

/-- What the milestones are at a stage of the creation. -/
def Stage.Fits (bean : Bean) (ms : List Milestone) : Stage → Prop
  | gathering => ms = []
  | built => ms = bean.source.milestones
  | initialised => ms = bean.milestones
  | failed => ms <+: bean.milestones

theorem Stage.Fits.begins {bean : Bean} {ms : List Milestone} {stage : Stage}
    (h : stage.Fits bean ms) : ms <+: bean.milestones := by
  cases stage with
  | gathering => exact h ▸ List.nil_prefix
  | built => exact h ▸ List.prefix_append _ _
  | initialised => exact h ▸ List.prefix_refl _
  | failed => exact h

/-- How far a bean has come in a scene. -/
inductive Comes (plan : Plan) (s : Scene) (b : Nat) : Prop
  | waiting (creating : s.2.registry.status b ≠ .creating) (wired : s.2.registry.status b ≠ .wired)
    (apart : b ∉ creations s.1) (none : milestones b s.2.events = [])
  | underway (stage : Stage) (bean : Bean) (creating : s.2.registry.status b = .creating)
    (under : .creation b stage ∈ s.1) (registered : plan.beans[b]? = some bean)
    (fits : stage.Fits bean (milestones b s.2.events))
  | abandoned (creating : s.2.registry.status b = .creating) (apart : b ∉ creations s.1)
    (begins : ∀ bean, plan.beans[b]? = some bean → milestones b s.2.events <+: bean.milestones)
  | wired (wired : s.2.registry.status b = .wired) (apart : b ∉ creations s.1)
    (all : ∀ bean, plan.beans[b]? = some bean → milestones b s.2.events = bean.milestones)
    (held : (s.2.registry.held b).isSome)

/-- No bean is created inside its own creation, and each has come as far as its
milestones say. -/
structure Life (plan : Plan) (s : Scene) : Prop where
  nodup : (creations s.1).Nodup
  comes : ∀ b, Comes plan s b

theorem mem_creations {us : List Activity} {b : Nat} :
    b ∈ creations us ↔ ∃ stage, .creation b stage ∈ us := by
  unfold creations
  rw [List.mem_filterMap]
  constructor
  · rintro ⟨u, hu, hb⟩
    cases u with
    | configuration c => cases hb
    | creation c stage =>
      cases hb
      exact ⟨stage, hu⟩
  · rintro ⟨stage, h⟩
    exact ⟨_, h, rfl⟩

section
variable {plan : Plan} {s t : Scene} {b : Nat}

theorem Comes.begins (h : Comes plan s b) {bean : Bean} (hb : plan.beans[b]? = some bean) :
    milestones b s.2.events <+: bean.milestones := by
  cases h with
  | waiting _ _ _ none => exact none ▸ List.nil_prefix
  | underway _ _ _ _ registered fits =>
    cases Option.some.inj (hb.symm.trans registered)
    exact fits.begins
  | abandoned _ _ begins => exact begins bean hb
  | wired _ _ all _ => exact all bean hb ▸ List.prefix_refl _

theorem Comes.all (h : Comes plan s b) (hw : s.2.registry.status b = .wired) {bean : Bean}
    (hb : plan.beans[b]? = some bean) : milestones b s.2.events = bean.milestones := by
  cases h with
  | waiting _ wired _ _ => exact absurd hw wired
  | underway _ _ creating _ _ _ => rw [hw] at creating; cases creating
  | abandoned creating _ _ => rw [hw] at creating; cases creating
  | wired _ _ all _ => exact all bean hb

theorem Comes.held (h : Comes plan s b) (hw : s.2.registry.status b = .wired) :
    (s.2.registry.held b).isSome := by
  cases h with
  | waiting _ wired _ _ => exact absurd hw wired
  | underway _ _ creating _ _ _ => rw [hw] at creating; cases creating
  | abandoned creating _ _ => rw [hw] at creating; cases creating
  | wired _ _ _ held => exact held

theorem Comes.none (h : Comes plan s b) (hc : s.2.registry.status b ≠ .creating)
    (hw : s.2.registry.status b ≠ .wired) : milestones b s.2.events = [] := by
  cases h with
  | waiting _ _ _ none => exact none
  | underway _ _ creating _ _ _ => exact absurd creating hc
  | abandoned creating _ _ => exact absurd creating hc
  | wired wired _ _ _ => exact absurd wired hw

/-- The creation of a bean is at one stage only. -/
theorem stage_unique : ∀ {us : List Activity}, (creations us).Nodup → ∀ {b : Nat} {i j : Stage},
    .creation b i ∈ us → .creation b j ∈ us → i = j
  | [], _, _, _, _, hi, _ => absurd hi List.not_mem_nil
  | .configuration c :: us, hn, b, i, j, hi, hj => by
    have hn : (creations us).Nodup := hn
    have hi : .creation b i ∈ us := by simpa using hi
    have hj : .creation b j ∈ us := by simpa using hj
    exact stage_unique hn hi hj
  | .creation c k :: us, hn, b, i, j, hi, hj => by
    rw [creations_creation, List.nodup_cons] at hn
    have hout : ∀ l, c = b → .creation b l ∈ us → False := fun l hc hl =>
      hn.1 (mem_creations.mpr ⟨l, hc ▸ hl⟩)
    rcases List.mem_cons.mp hi with hi | hi <;> rcases List.mem_cons.mp hj with hj | hj
    · cases hi
      cases hj
      rfl
    · cases hi
      exact (hout j rfl hj).elim
    · cases hj
      exact (hout i rfl hi).elim
    · exact stage_unique hn.2 hi hj

theorem Life.creating (h : Life plan s) (hb : b ∈ creations s.1) :
    s.2.registry.status b = .creating := by
  cases h.comes b with
  | waiting _ _ apart _ => exact absurd hb apart
  | underway _ _ creating _ _ _ => exact creating
  | abandoned creating _ _ => exact creating
  | wired _ apart _ _ => exact absurd hb apart

/-- The stage of a creation under way says what its milestones are. -/
theorem Life.fits (h : Life plan s) {stage : Stage} (hb : .creation b stage ∈ s.1) {bean : Bean}
    (hbean : plan.beans[b]? = some bean) : stage.Fits bean (milestones b s.2.events) := by
  have hin : b ∈ creations s.1 := mem_creations.mpr ⟨stage, hb⟩
  cases h.comes b with
  | waiting _ _ apart _ => exact absurd hin apart
  | underway stage' bean' _ under registered fits =>
    rw [stage_unique h.nodup hb under]
    cases Option.some.inj (hbean.symm.trans registered)
    exact fits
  | abandoned _ apart _ => exact absurd hin apart
  | wired _ apart _ _ => exact absurd hin apart

/-- A bean that gathers its arguments has no milestone yet. -/
theorem Life.gathering (h : Life plan s) (hb : .creation b .gathering ∈ s.1) :
    milestones b s.2.events = [] := by
  have hin : b ∈ creations s.1 := mem_creations.mpr ⟨.gathering, hb⟩
  cases h.comes b with
  | waiting _ _ apart _ => exact absurd hin apart
  | underway stage bean _ _ registered _ => exact h.fits hb registered
  | abandoned _ apart _ => exact absurd hin apart
  | wired _ apart _ _ => exact absurd hin apart

/-! ### Steps -/

/-- A step does not concern a bean that it leaves as it is. -/
theorem Comes.frame (h : Comes plan s b)
    (hstatus : t.2.registry.status b = s.2.registry.status b)
    (hheld : t.2.registry.held b = s.2.registry.held b)
    (hunder : ∀ stage, .creation b stage ∈ t.1 ↔ .creation b stage ∈ s.1)
    (hms : milestones b t.2.events = milestones b s.2.events) : Comes plan t b := by
  have hapart : b ∉ creations s.1 → b ∉ creations t.1 := by
    simp only [mem_creations, hunder]
    exact id
  cases h with
  | waiting creating wired apart none =>
    exact .waiting (hstatus ▸ creating) (hstatus ▸ wired) (hapart apart) (hms ▸ none)
  | underway stage bean creating under registered fits =>
    exact .underway stage bean (hstatus ▸ creating) ((hunder stage).mpr under) registered (hms ▸ fits)
  | abandoned creating apart begins =>
    exact .abandoned (hstatus ▸ creating) (hapart apart) (hms ▸ begins)
  | wired wired apart all held =>
    exact .wired (hstatus ▸ wired) (hapart apart) (hms ▸ all) (hheld ▸ held)

/-- A step inside the creation of a bean. -/
theorem Life.advance {us : List Activity} {a a' : Assembly} {i j : Stage}
    (h : Life plan (.creation b i :: us, a)) (hr : a'.registry = a.registry)
    (hms : ∀ c, c ≠ b → milestones c a'.events = milestones c a.events)
    (hfits : ∀ bean, plan.beans[b]? = some bean → j.Fits bean (milestones b a'.events)) :
    Life plan (.creation b j :: us, a') where
  nodup := h.nodup
  comes c := by
    by_cases hc : c = b
    · rw [hc]
      have hcreating : a.registry.status b = .creating := h.creating List.mem_cons_self
      cases h.comes b with
      | waiting creating _ _ _ => exact absurd hcreating creating
      | underway _ bean _ _ registered _ =>
        exact .underway j bean (by rwa [hr]) List.mem_cons_self registered (hfits bean registered)
      | abandoned _ apart _ => exact absurd List.mem_cons_self apart
      | wired _ apart _ _ => exact absurd List.mem_cons_self apart
    · refine (h.comes c).frame (by rw [hr]) (by rw [hr]) (fun stage => ?_) (hms c hc)
      simp [hc]

theorem Assembly.events_finish {a : Assembly} {i : Instance} :
    (a.finish plan b i).events = .wired b :: .creationEnded b none :: .status b .wired :: a.events := by
  have h : (((a.hold b i).note (.creationEnded b none)).keepDestroyer plan b).progress.history =
      ((a.hold b i).note (.creationEnded b none)).progress.history := by
    rw [progress_keepDestroyer]
  show _ :: List.map Moment.event
    (((a.hold b i).note (.creationEnded b none)).keepDestroyer plan b).progress.history = _
  rw [h]
  rfl

theorem Life.begin {us : List Activity} {a : Assembly} {bean : Bean} (h : Life plan (us, a))
    (hb : plan.beans[b]? = some bean) (hr : a.registry.status b = .resolved) :
    Life plan (.creation b .gathering :: us, a.begin b) := by
  have hlt : b < a.registry.marks.length := Registry.lt_length_of_status_eq hr (by decide)
  have hout : b ∉ creations us := by
    intro hb
    have hc : a.registry.status b = .creating := h.creating hb
    rw [hr] at hc
    cases hc
  refine ⟨List.nodup_cons.mpr ⟨hout, h.nodup⟩, fun c => ?_⟩
  by_cases hc : c = b
  · rw [hc]
    have hnone : milestones b a.events = [] :=
      (h.comes b).none (by rw [hr]; decide) (by rw [hr]; decide)
    refine .underway .gathering bean (Registry.status_setStatus_self _ b _ hlt) List.mem_cons_self
      hb ?_
    show milestones b a.events ++ [] = []
    rw [hnone]
    rfl
  · refine (h.comes c).frame (Registry.status_setStatus_of_ne _ b c _ hc)
      (Registry.held_setStatus _ b c _) (fun stage => ?_) (List.append_nil _)
    simp [hc]

theorem Life.finish {us : List Activity} {a : Assembly} {stage : Stage} {bean : Bean} {i : Instance}
    (h : Life plan (.creation b stage :: us, a)) (hb : plan.beans[b]? = some bean)
    (hready : stage = .initialised ∨ stage = .built ∧ bean.init = none) :
    Life plan (us, a.finish plan b i) := by
  have hnodup := List.nodup_cons.mp h.nodup
  have hcreating : a.registry.status b = .creating := h.creating List.mem_cons_self
  have hlt : b < a.registry.marks.length := Registry.lt_length_of_status_eq hcreating (by decide)
  have hms : ∀ c, milestones c (a.finish plan b i).events = milestones c a.events := by
    intro c
    rw [Assembly.events_finish]
    simp [milestones, Event.milestones]
  refine ⟨hnodup.2, fun c => ?_⟩
  by_cases hc : c = b
  · rw [hc]
    refine .wired (Assembly.status_finish_self hlt) hnodup.1 (fun bean' hb' => ?_) ?_
    · rw [hms]
      cases Option.some.inj (hb.symm.trans hb')
      have hfits := h.fits List.mem_cons_self hb
      rcases hready with rfl | ⟨rfl, hinit⟩
      · exact hfits
      · show milestones b a.events = _
        rw [show milestones b a.events = bean.source.milestones from hfits, Bean.milestones, hinit]
        exact (List.append_nil _).symm
    · show ((a.finish plan b i).registry.held b).isSome
      rw [Assembly.registry_finish, Registry.held_setStatus, Registry.held_setHeld_self _ b i hlt]
      rfl
  · refine (h.comes c).frame (Assembly.status_finish_of_ne hc) ?_ (fun stage => ?_) (hms c)
    · show (a.finish plan b i).registry.held c = _
      rw [Assembly.registry_finish, Registry.held_setStatus, Registry.held_setHeld_of_ne _ b c i hc]
    · simp [hc]

/-- Every step takes the beans from one state to another. -/
theorem Moves.life (hm : Moves plan s t) (h : Life plan s) : Life plan t := by
  cases hm with
  | note quiet =>
    refine ⟨h.nodup, fun c => (h.comes c).frame rfl rfl (fun _ => Iff.rfl) ?_⟩
    show milestones c _ ++ _ = _
    rw [quiet.milestones]
    exact List.append_nil _
  | @connect us a b wired =>
    refine ⟨h.nodup, fun c => (h.comes c).frame ?_ ?_ (fun _ => Iff.rfl) ?_⟩ <;>
      simp only [Assembly.registry, Assembly.events, Assembly.progress_connect]
  | @receive u us a asker b asks wired =>
    have hp : (a.connect b).progress = a.progress := Assembly.progress_connect
    refine ⟨h.nodup, fun c => (h.comes c).frame ?_ ?_ (fun _ => Iff.rfl) ?_⟩
    · show (a.connect b).progress.registry.status c = a.progress.registry.status c
      rw [hp]
    · show (a.connect b).progress.registry.held c = a.progress.registry.held c
      rw [hp]
    · show milestones c ((a.connect b).progress.history.map Moment.event) ++ [] = _
      rw [hp]
      exact List.append_nil _
  | begin registered resolved => exact h.begin registered resolved
  | @take us a b bean i registered object =>
    refine h.advance rfl (fun c _ => rfl) fun bean' hb' => ?_
    cases Option.some.inj (registered.symm.trans hb')
    show milestones b a.events = bean.source.milestones
    rw [object]
    exact h.fits List.mem_cons_self registered
  | @build us a b bean recipe registered constructor =>
    refine h.advance rfl (fun c hc => ?_) fun bean' hb' => ?_
    · show milestones c a.events ++ _ ++ _ = _
      simp [Event.milestones, hc.symm]
    · cases Option.some.inj (registered.symm.trans hb')
      have hnone : milestones b a.events = [] := h.fits List.mem_cons_self registered
      show milestones b a.events ++ _ ++ _ = bean.source.milestones
      rw [hnone, constructor]
      simp [Event.milestones, Source.milestones]
  | @buildFailed us a b bean recipe registered constructor =>
    refine h.advance rfl (fun c hc => ?_) fun bean' hb' => ?_
    · show milestones c a.events ++ _ = _
      simp [Event.milestones, hc.symm]
    · cases Option.some.inj (registered.symm.trans hb')
      have hnone : milestones b a.events = [] := h.fits List.mem_cons_self registered
      show milestones b a.events ++ _ <+: bean.milestones
      rw [hnone, Bean.milestones, constructor]
      simp [Event.milestones, Source.milestones]
  | @openWindow us a b bean registered window =>
    refine h.advance rfl (fun c hc => ?_) fun bean' hb' => ?_
    · show milestones c a.events ++ _ = _
      simp [Event.milestones, hc.symm]
    · cases Option.some.inj (registered.symm.trans hb')
      have hnone : milestones b a.events = [] := h.fits List.mem_cons_self registered
      show milestones b a.events ++ _ = bean.source.milestones
      rw [hnone, window]
      simp [Event.milestones, Source.milestones]
  | @initialise us a b bean hook brief registered hooked =>
    refine h.advance rfl (fun c hc => ?_) fun bean' hb' => ?_
    · show milestones c a.events ++ _ = _
      simp [Event.milestones, hc.symm]
    · cases Option.some.inj (registered.symm.trans hb')
      have hbuilt : milestones b a.events = bean.source.milestones :=
        h.fits List.mem_cons_self registered
      have hall : milestones b (a.note (.initialised b bean.type brief)).events = bean.milestones := by
        show milestones b a.events ++ _ = _
        rw [hbuilt, Bean.milestones, hooked]
        simp [Event.milestones]
      rw [hall]
      cases hook.failure with
      | none => rfl
      | some cause => exact List.prefix_refl _
  | finish registered ready => exact h.finish registered ready
  | @fail us a b stage cause =>
    have hnodup := List.nodup_cons.mp h.nodup
    refine ⟨hnodup.2, fun c => ?_⟩
    by_cases hc : c = b
    · rw [hc]
      refine .abandoned (h.creating List.mem_cons_self) hnodup.1 fun bean hb => ?_
      show milestones b a.events ++ [] <+: _
      rw [List.append_nil]
      exact (h.comes b).begins hb
    · refine (h.comes c).frame rfl rfl (fun stage => ?_) (List.append_nil _)
      simp [hc]
  | configure => exact ⟨h.nodup, fun c => (h.comes c).frame rfl rfl (fun _ => by simp) rfl⟩
  | leave => exact ⟨h.nodup, fun c => (h.comes c).frame rfl rfl (fun _ => by simp) rfl⟩

theorem Reaches.life (h : Reaches plan s t) (hs : Life plan s) : Life plan t :=
  h.keeps (fun _ _ hm hs => hm.life hs) hs

/-! ### Statuses along a run -/

/-- The statuses that a step may change. -/
theorem Moves.status (hm : Moves plan s t) (b : Nat) :
    t.2.registry.status b = s.2.registry.status b ∨
      s.2.registry.status b = .resolved ∧ t.2.registry.status b = .creating ∨
      b ∈ creations s.1 ∧ t.2.registry.status b = .wired := by
  rcases hm.registry with hr | ⟨c, hc, hr⟩ | ⟨c, stage, us, i, hus, hr⟩
  · exact .inl (by rw [hr])
  · rw [hr, Registry.status_setStatus]
    split
    · rename_i hb
      exact .inr (.inl ⟨hb.1 ▸ hc, rfl⟩)
    · exact .inl rfl
  · rw [hr, Registry.status_setStatus, Registry.status_setHeld]
    split
    · rename_i hb
      refine .inr (.inr ⟨?_, rfl⟩)
      rw [hus, hb.1]
      exact List.mem_cons_self
    · exact .inl rfl

/-- How the statuses of a run differ from those before it. -/
def Advanced (r r' : Registry) : Prop :=
  ∀ b, (r.status b = .wired → r'.status b = .wired) ∧ (r.status b = .deleted ↔ r'.status b = .deleted)

theorem Moves.advanced (hm : Moves plan s t) (h : Life plan s) :
    Advanced s.2.registry t.2.registry := by
  intro b
  rcases hm.status b with hb | ⟨hs, ht⟩ | ⟨hc, ht⟩
  · rw [hb]
    exact ⟨id, Iff.rfl⟩
  · rw [hs, ht]
    decide
  · rw [h.creating hc, ht]
    decide

theorem Reaches.advanced (h : Reaches plan s t) (hs : Life plan s) :
    Advanced s.2.registry t.2.registry := by
  have hboth : Life plan t ∧ Advanced s.2.registry t.2.registry :=
    h.keeps (P := fun t => Life plan t ∧ Advanced s.2.registry t.2.registry)
      (fun u v hm hu => ⟨hm.life hu.1, fun b =>
        ⟨fun hw => (hm.advanced hu.1 b).1 ((hu.2 b).1 hw),
          (hu.2 b).2.trans (hm.advanced hu.1 b).2⟩⟩)
      ⟨hs, fun _ => ⟨id, Iff.rfl⟩⟩
  exact hboth.2

/-! ### Abandoned beans -/

/-- The creation of the bean was begun, and is not under way any more. -/
def Abandoned (s : Scene) (b : Nat) : Prop :=
  s.2.registry.status b = .creating ∧ b ∉ creations s.1

/-- The creations that a step leaves under way. -/
theorem Moves.underway (hm : Moves plan s t) : creations t.1 = creations s.1 ∨
    (∃ b, s.2.registry.status b = .resolved ∧ creations t.1 = b :: creations s.1) ∨
    ∃ b, creations s.1 = b :: creations t.1 := by
  cases hm with
  | begin _ resolved => exact .inr (.inl ⟨_, resolved, rfl⟩)
  | finish => exact .inr (.inr ⟨_, rfl⟩)
  | fail => exact .inr (.inr ⟨_, rfl⟩)
  | _ => exact .inl rfl

theorem Moves.abandoned (hm : Moves plan s t) (hb : Abandoned s b) : Abandoned t b := by
  constructor
  · rcases hm.status b with ht | ⟨hs, -⟩ | ⟨hc, -⟩
    · rw [ht, hb.1]
    · rw [hb.1] at hs
      cases hs
    · exact absurd hc hb.2
  · rcases hm.underway with ht | ⟨c, hc, ht⟩ | ⟨c, hs⟩
    · rw [ht]
      exact hb.2
    · rw [ht, List.mem_cons]
      rintro (rfl | hin)
      · rw [hb.1] at hc
        cases hc
      · exact hb.2 hin
    · exact fun hin => hb.2 (hs ▸ List.mem_cons_of_mem _ hin)

/-! ### Receipts and failures -/

/-- Events that tell neither of a receipt, nor of the end of a creation. -/
def Event.IsPlain : Event → Prop
  | received _ _ => False
  | creationEnded _ _ => False
  | wired _ => False
  | beansWired => False
  | refreshed => False
  | teardown _ _ _ => False
  | closed => False
  | _ => True

theorem Event.IsQuiet.isPlain {e : Event} (h : e.IsQuiet) : e.IsPlain := by
  cases e <;> trivial

/-- What a step tells. -/
inductive Tells (plan : Plan) (s t : Scene) : Prop
  | plain (es : List Event) (plain : ∀ e ∈ es, e.IsPlain) (events : t.2.events = es ++ s.2.events)
  | received (u : Activity) (us : List Activity) (asker : Asker) (b : Nat) (asks : u.asker? = some asker)
    (under : s.1 = u :: us) (wired : s.2.registry.status b = .wired)
    (events : t.2.events = .received asker b :: s.2.events)
  | finished (b : Nat) (stage : Stage) (under : s.1 = .creation b stage :: t.1)
    (events : t.2.events = .wired b :: .creationEnded b none :: .status b .wired :: s.2.events)
  | failed (b : Nat) (stage : Stage) (cause : WireError) (under : s.1 = .creation b stage :: t.1)
    (registry : t.2.registry = s.2.registry)
    (events : t.2.events = .creationEnded b (some cause) :: s.2.events)

theorem Moves.tells (hm : Moves plan s t) : Tells plan s t := by
  cases hm with
  | @note us a e quiet => exact .plain [e] (by simpa using quiet.isPlain) rfl
  | connect wired =>
    refine .plain [] (by simp) ?_
    simp only [Assembly.events, Assembly.progress_connect, List.nil_append]
  | @receive u us a asker b asks wired =>
    refine .received u us asker b asks rfl wired ?_
    show _ :: List.map Moment.event (a.connect b).progress.history = _
    rw [Assembly.progress_connect]
    rfl
  | @begin us a b bean _ _ => exact .plain [.status b .creating] (by simp [Event.IsPlain]) rfl
  | take => exact .plain [] (by simp) rfl
  | @build us a b bean recipe _ _ =>
    exact .plain [.instantiated b, .built b bean.type (a.progress.made + 1)] (by simp [Event.IsPlain])
      rfl
  | @buildFailed us a b bean recipe _ _ =>
    exact .plain [.buildFailed b bean.type] (by simp [Event.IsPlain]) rfl
  | @openWindow us a b bean _ _ => exact .plain [.instantiated b] (by simp [Event.IsPlain]) rfl
  | @initialise us a b bean hook brief _ _ =>
    exact .plain [.initialised b bean.type brief] (by simp [Event.IsPlain]) rfl
  | finish => exact .finished _ _ rfl Assembly.events_finish
  | fail => exact .failed _ _ _ rfl rfl rfl
  | configure => exact .plain [] (by simp) rfl
  | leave => exact .plain [] (by simp) rfl

/-- Events that only follow a wiring. -/
def Event.IsLate : Event → Prop
  | beansWired => True
  | refreshed => True
  | teardown _ _ _ => True
  | closed => True
  | _ => False

theorem Event.IsPlain.not_isLate {e : Event} (h : e.IsPlain) : ¬ e.IsLate := by
  cases e <;> first | exact id | exact fun _ => h

theorem Moves.early (hm : Moves plan s t) (h : ∀ e ∈ s.2.events, ¬ e.IsLate) :
    ∀ e ∈ t.2.events, ¬ e.IsLate := by
  intro e he
  cases hm.tells with
  | plain es plain events =>
    rw [events] at he
    rcases List.mem_append.mp he with he | he
    · exact (plain e he).not_isLate
    · exact h e he
  | received u us asker b asks under wired events =>
    rw [events] at he
    rcases List.mem_cons.mp he with rfl | he
    · exact id
    · exact h e he
  | finished b stage under events =>
    rw [events] at he
    simp only [List.mem_cons] at he
    rcases he with rfl | rfl | rfl | he
    · exact id
    · exact id
    · exact id
    · exact h e he
  | failed b stage cause under registry events =>
    rw [events] at he
    rcases List.mem_cons.mp he with rfl | he
    · exact id
    · exact h e he

theorem Reaches.early (h : Reaches plan s t) (hs : ∀ e ∈ s.2.events, ¬ e.IsLate) :
    ∀ e ∈ t.2.events, ¬ e.IsLate :=
  h.keeps (P := fun s => ∀ e ∈ s.2.events, ¬ e.IsLate) (fun _ _ hm hu => hm.early hu) hs

/-- Whoever receives a bean finds all its milestones, and has none yet. -/
def InTurn (beans : List Bean) : List Event → Prop
  | [] => True
  | e :: es => InTurn beans es ∧ ∀ y x, e = .received (.bean y) x →
      (∀ bean, beans[x]? = some bean → milestones x es = bean.milestones) ∧ milestones y es = []

theorem InTurn.append {beans : List Bean} : ∀ {es fs : List Event},
    (∀ e ∈ es, ∀ y x, e ≠ .received (.bean y) x) →
    InTurn beans fs → InTurn beans (es ++ fs)
  | [], _, _, h => h
  | e :: _, _, hes, h =>
    ⟨InTurn.append (fun e' he' => hes e' (List.mem_cons_of_mem _ he')) h,
      fun y x hx => absurd hx (hes e List.mem_cons_self y x)⟩

theorem InTurn.at {beans : List Bean} : ∀ {es fs : List Event} {x y : Nat},
    InTurn beans (es ++ .received (.bean y) x :: fs) →
      (∀ bean, beans[x]? = some bean → milestones x fs = bean.milestones) ∧ milestones y fs = []
  | [], _, x, y, h => h.2 y x rfl
  | _ :: _, _, _, _, h => InTurn.at h.1

theorem Moves.inTurn (hm : Moves plan s t) (h : Life plan s) (hs : InTurn plan.beans s.2.events) :
    InTurn plan.beans t.2.events := by
  cases hm.tells with
  | plain es plain events =>
    rw [events]
    refine hs.append fun e he y x hx => ?_
    have := plain e he
    rw [hx] at this
    exact this
  | received u us asker b asks under wired events =>
    rw [events]
    refine ⟨hs, fun y x hx => ?_⟩
    cases hx
    refine ⟨fun bean hb => (h.comes b).all wired hb, ?_⟩
    -- the one who asks gathers arguments
    match u, asks, under with
    | .creation _ .gathering, rfl, under =>
      exact h.gathering (by rw [under]; exact List.mem_cons_self)
  | finished b stage under events =>
    rw [events]
    exact @InTurn.append plan.beans [_, _, _] _ (by simp) hs
  | failed b stage cause under _ events =>
    rw [events]
    exact @InTurn.append plan.beans [_] _ (by simp) hs

/-- A failed creation leaves its bean abandoned. -/
def Failures (s : Scene) : Prop :=
  ∀ b cause, .creationEnded b (some cause) ∈ s.2.events → Abandoned s b

theorem Moves.failures (hm : Moves plan s t) (h : Life plan s) (hs : Failures s) : Failures t := by
  intro b cause hb
  cases hm.tells with
  | plain es plain events =>
    rw [events] at hb
    rcases List.mem_append.mp hb with hb | hb
    · exact (plain _ hb).elim
    · exact hm.abandoned (hs b cause hb)
  | received u us asker c asks under wired events =>
    rw [events] at hb
    exact hm.abandoned (hs b cause (by simpa using hb))
  | finished c stage under events =>
    rw [events] at hb
    exact hm.abandoned (hs b cause (by simpa using hb))
  | failed c stage cause' under registry events =>
    rw [events] at hb
    rcases List.mem_cons.mp hb with hb | hb
    · cases hb
      have hn : (creations (.creation b stage :: t.1)).Nodup := under ▸ h.nodup
      have hc : b ∈ creations s.1 := by
        rw [under]
        exact List.mem_cons_self
      exact ⟨registry ▸ h.creating hc, (List.nodup_cons.mp hn).1⟩
    · exact hm.abandoned (hs b cause hb)

theorem Reaches.inTurn (h : Reaches plan s t) (hl : Life plan s) (hs : InTurn plan.beans s.2.events) :
    InTurn plan.beans t.2.events := by
  have hboth : Life plan t ∧ InTurn plan.beans t.2.events :=
    h.keeps (P := fun t => Life plan t ∧ InTurn plan.beans t.2.events)
      (fun _ _ hm hu => ⟨hm.life hu.1, hm.inTurn hu.1 hu.2⟩) ⟨hl, hs⟩
  exact hboth.2

theorem Reaches.failures (h : Reaches plan s t) (hl : Life plan s) (hs : Failures s) :
    Failures t := by
  have hboth : Life plan t ∧ Failures t :=
    h.keeps (P := fun t => Life plan t ∧ Failures t)
      (fun _ _ hm hu => ⟨hm.life hu.1, hm.failures hu.1 hu.2⟩) ⟨hl, hs⟩
  exact hboth.2

end
end Inversion
