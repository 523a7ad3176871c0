/-
# What a wiring keeps

To create a bean is to begin it, to gather its arguments, to run its constructor
and its hook, and to hold its instance. Around this a wiring only looks at the
registry, notes what it does and keeps its path. `Endures` collects this for a
property, and a property that endures is kept by every wiring, whatever the
injector does (`wire_keeps`).

Where no bean is fresh, a wiring resolves none, and so what its own notes keep of the history
endures (`endures_history`).
-/
import Inversion.Proofs.Wiring.Gathering

namespace Inversion

namespace Assembly

abbrev registry (a : Assembly) : Registry :=
  a.progress.registry

/-- The assembly with the instance of a bean, which is wired then. -/
def hold (b : Nat) (i : Instance) (a : Assembly) : Assembly :=
  { a with progress :=
    { a.progress with registry := a.progress.registry.setHeld b i } }.setStatus b .wired

/-- Counts an instance and notes that it was built. -/
def build (b : Nat) (t : TypeName) (a : Assembly) : Assembly :=
  let serial := a.progress.made + 1
  ({ a with progress := { a.progress with made := serial } }.note (.built b t serial)).note
    (.instantiated b)

variable {plan : Plan} {b : Nat} {a : Assembly}

@[simp] theorem progress_connect : (a.connect b).progress = a.progress := by
  unfold connect
  split
  · rfl
  · split <;> rfl

@[simp] theorem progress_keepDestroyer :
    (a.keepDestroyer plan b).progress = a.progress := by
  unfold keepDestroyer
  split <;> rfl

end Assembly

/-- Events that tell nothing of resolutions, nor of a bean that it is handed to the injector
or received. -/
def Event.IsReport : Event → Prop
  | lookedUp _ _ _ => False
  | status _ _ => False
  | walked _ => False
  | beansResolved => False
  | handed _ => False
  | received _ _ => False
  | _ => True

/-- The reports of a wiring. -/
def Event.IsOfWiring : Event → Prop
  | noted _ => True
  | met _ => True
  | answered _ _ => True
  | denied _ _ => True
  | built _ _ _ => True
  | buildFailed _ _ => True
  | instantiated _ => True
  | initialised _ _ _ => True
  | creationEnded _ _ => True
  | wired _ => True
  | _ => False

/-- What is noted of lookups and wirings where no bean is fresh. -/
def Event.FollowsResolution : Event → Prop
  | skipped _ _ => True
  | lookedUp _ _ _ => True
  | handed _ => True
  | received _ _ => True
  | status _ s => s = .creating ∨ s = .wired
  | e => e.IsOfWiring

theorem Event.IsOfWiring.followsResolution {e : Event} (h : e.IsOfWiring) :
    e.FollowsResolution := by
  cases e <;> trivial

theorem Event.IsOfWiring.isReport {e : Event} (h : e.IsOfWiring) : e.IsReport := by
  cases e <;> trivial

namespace Registry

variable {r : Registry} {b : Nat}

theorem Calm.setStatus (h : r.Calm) {s : Status} (hs : s ≠ .fresh) : (r.setStatus b s).Calm := by
  intro c
  rw [status_setStatus]
  split
  · exact hs
  · exact h c

theorem Calm.setHeld (h : r.Calm) (i : Instance) : (r.setHeld b i).Calm := by
  intro c
  rw [status_setHeld]
  exact h c

end Registry

namespace Plan

variable {plan : Plan} {wire wire' : Nat → Wiring Unit} {b : Nat} {a : Assembly}
  {P : Assembly → Prop} {F : Nat → Prop}

theorem after_create {bean : Bean} (hb : plan.beans[b]? = some bean)
    {Q : Except WireError Unit → Assembly → Prop} :
    After (plan.create wire b) a Q ↔
      After (plan.obtain wire b bean) (a.setStatus b .creating) fun r t =>
        match r with
        | .error cause => Q (.error cause) (t.note (.creationEnded b (some cause)))
        | .ok i => After (initialise b bean i) t fun r t =>
          match r with
          | .error cause => Q (.error cause) (t.note (.creationEnded b (some cause)))
          | .ok () => Q (.ok ()) ((t.hold b i).note (.creationEnded b none)) := by
  unfold create
  simp only [hb, after_bind, after_modify, continues_ok, after_noting]
  refine iff_of_eq (congrArg (After _ _) (funext fun r => funext fun t => ?_))
  cases r with
  | error cause => rfl
  | ok i =>
    rw [continues_ok, after_bind]
    refine congrArg (After _ _) (funext fun r => funext fun t => ?_)
    cases r <;> rfl

/-- What a property has to bear so that wirings of the beans with `F` keep it. -/
structure Endures (plan : Plan) (P : Assembly → Prop) (F : Nat → Prop) : Prop where
  progress : ∀ a a' : Assembly, a'.progress = a.progress → P a → P a'
  note : ∀ a e, e.IsOfWiring → P a → P (a.note e)
  handed : ∀ a b, F b → P a → P (a.note (.handed b))
  received : ∀ a asker b, F b → P a → P (a.note (.received asker b))
  count : ∀ a n, P a → P { a with progress := { a.progress with made := n } }
  begin : ∀ a b, F b → P a → P (a.setStatus b .creating)
  hold : ∀ a b i, F b → P a → P (a.hold b i)
  find : ∀ sel a, P a → After (Wiring.ofResolving (plan.find sel)) a fun r t =>
    P t ∧ ∀ bs, r = .ok bs → ∀ b ∈ bs, F b
  /-- The injector gets hold of no other beans. -/
  reach : ∀ a b, (a.registry.status b).isSettled → P a → F b

theorem Endures.fetches (h : plan.Endures P F) (hw : ∀ b, F b → Agrees P (wire b) (wire' b))
    (asker : Asker) : plan.Fetches wire wire' asker P F where
  find := h.find
  receive _ b hb := receive_agrees (hw b hb)
    (fun a ha => h.progress a _ Assembly.progress_connect ha) fun a ha => h.received a asker b hb ha
  denied a _ ha := h.note a _ (by trivial) ha

/-! ### Injectors at work -/

theorem status_view (hb : b < plan.beans.length) : (plan.view a).status b = a.registry.status b :=
  if_pos hb

/-- The injector gets hold of the bean in hand. -/
theorem after_reaching_own {act : Nat → Wiring Unit} (hb : b < plan.beans.length)
    {Q : Except WireError Unit → Assembly → Prop} :
    After (plan.reaching b act b) a Q ↔ After (act b) a Q := by
  unfold reaching
  rw [after_bind, after_get, continues_ok, if_neg (Nat.not_le_of_lt hb), if_pos (.inl rfl)]

/-- The injector turns away the beans of other containers. -/
def Shuns (plan : Plan) : Prop :=
  ∀ (wire : Nat → Wiring Unit) (s : Stranger) (a : Assembly),
    outcome (plan.meet wire s) a = (.error (.notResolved s.id), a.note (.met s.id))

theorem Shuns.meet_agrees (h : plan.Shuns) (hmet : ∀ a id, P a → P (a.note (.met id)))
    (s : Stranger) : Agrees P (plan.meet wire s) (plan.meet wire' s) := by
  intro a ha
  unfold After
  rw [h wire, h wire']
  exact ⟨rfl, hmet a s.id ha⟩

theorem Endures.reaching_agrees (h : plan.Endures P F) {act act' : Nat → Wiring Unit}
    (hact : ∀ b, F b → Agrees P (act b) (act' b)) {own : Nat} (hown : own < plan.beans.length → F own)
    (b : Nat) : Agrees P (plan.reaching own act b) (plan.reaching own act' b) := by
  refine agrees_get_bind fun a ha => ?_
  by_cases hlt : plan.beans.length ≤ b
  · simp only [if_pos hlt]
    exact ⟨trivial, ha⟩
  · simp only [if_neg hlt]
    by_cases hreach : b = own ∨ (a.progress.registry.status b).isSettled
    · simp only [if_pos hreach]
      refine hact b ?_ a ha
      rcases hreach with rfl | hsettled
      · exact hown (Nat.lt_of_not_le hlt)
      · exact h.reach a b hsettled ha
    · simp only [if_neg hreach]
      exact ⟨trivial, ha⟩

/-- An injector only looks, fetches beans, acts on those that it gets hold of, and takes notes. -/
theorem Endures.runProcedure_agrees (h : plan.Endures P F)
    (hw : ∀ b, F b → Agrees P (wire b) (wire' b)) {create create' : Nat → Wiring Unit}
    (hc : ∀ b, F b → Agrees P (create b) (create' b)) {own : Nat}
    (hown : own < plan.beans.length → F own) : ∀ procedure : Procedure,
      Agrees P (plan.runProcedure wire create own procedure)
        (plan.runProcedure wire' create' own procedure)
  | .done => agrees_pure ()
  | .refuse cause => agrees_throw cause
  | .look next => agrees_get_bind fun a ha => h.runProcedure_agrees hw hc hown (next _) a ha
  | .find sel next =>
    (agrees_observe ((h.fetches hw (.injector own)).find_agrees sel)).bind fun found =>
      h.runProcedure_agrees hw hc hown (next found)
  | .get t name next =>
    (agrees_observe (receiveOne_agrees (h.fetches hw (.injector own)) t _)).bind fun i =>
      h.runProcedure_agrees hw hc hown (next i)
  | .getAll t next =>
    (agrees_observe (receiveAll_agrees (h.fetches hw (.injector own)) t)).bind fun is =>
      h.runProcedure_agrees hw hc hown (next is)
  | .wire b next => (agrees_observe (h.reaching_agrees hw hown b)).bind fun r =>
    h.runProcedure_agrees hw hc hown (next r)
  | .create b next => (agrees_observe (h.reaching_agrees hc hown b)).bind fun r =>
    h.runProcedure_agrees hw hc hown (next r)
  | .enter b next => by
    rw [runProcedure, runProcedure]
    exact Agrees.bind (agrees_modify fun a ha => h.progress a _ rfl ha) fun _ =>
      h.runProcedure_agrees hw hc hown next
  | .leave next => by
    rw [runProcedure, runProcedure]
    exact Agrees.bind (agrees_modify fun a ha => h.progress a _ rfl ha) fun _ =>
      h.runProcedure_agrees hw hc hown next
  | .keepDestroyer b next =>
    (agrees_modify fun a ha => h.progress a _ Assembly.progress_keepDestroyer ha).bind fun _ =>
      h.runProcedure_agrees hw hc hown next
  | .note entry next => (agrees_modify fun a ha => h.note a _ (by trivial) ha).bind fun _ =>
    h.runProcedure_agrees hw hc hown next
  | .report b next => (agrees_modify fun a ha => h.note a _ (by trivial) ha).bind fun _ =>
    h.runProcedure_agrees hw hc hown next

theorem Endures.gathers (h : plan.Endures P F) (hw : ∀ b, F b → Agrees P (wire b) (wire' b))
    (asker : Asker) : plan.Gathers wire wire' asker P F where
  toFetches := h.fetches hw asker
  meet s := (agrees_modify fun a ha => h.note a _ (by trivial) ha).bind fun _ =>
    h.runProcedure_agrees hw hw (fun hlt => absurd hlt (Nat.lt_irrefl _)) _

/-! ### Creations and wirings -/

theorem Endures.build (h : plan.Endures P F) {a : Assembly} (ha : P a) (b : Nat) (t : TypeName) :
    P (a.build b t) :=
  h.note _ _ (by trivial) (h.note _ _ (by trivial) (h.count a _ ha))

/-- To obtain an instance is to gather arguments, and to note what is made of them. -/
theorem Gathers.obtain_agrees {bean : Bean} (h : plan.Gathers wire wire' (.bean b) P F)
    (hopened : ∀ a, P a → P (a.note (.instantiated b)))
    (hfailed : ∀ a, P a → P (a.note (.buildFailed b bean.type)))
    (hbuilt : ∀ a, P a → P (a.build b bean.type)) :
    Agrees P (plan.obtain wire b bean) (plan.obtain wire' b bean) := by
  unfold obtain
  cases bean.source with
  | object i => exact agrees_pure i
  | window => exact (agrees_modify hopened).bind fun _ => agrees_pure _
  | constructor recipe =>
    refine (gatherAll_agrees h recipe.args).bind fun values => ?_
    cases recipe.failure with
    | some cause => exact (agrees_modify hfailed).bind fun _ => agrees_throw _
    | none => exact agrees_get_bind fun a ha => ⟨rfl, hbuilt a ha⟩

theorem initialise_keeps (b : Nat) (bean : Bean) (i : Instance)
    (hnote : ∀ a, P a → P (a.note (.initialised b bean.type i.briefText))) :
    Keeps P (initialise b bean i) := by
  unfold initialise
  cases bean.init with
  | none => exact carries_pure ()
  | some hook =>
    refine (carries_modify hnote).bind fun _ => ?_
    cases hook.failure with
    | none => exact carries_pure ()
    | some cause => exact carries_throw (fun _ ha => ha) _

theorem Endures.obtain_agrees (h : plan.Endures P F)
    (hw : ∀ b, F b → Agrees P (wire b) (wire' b)) (b : Nat) (bean : Bean) :
    Agrees P (plan.obtain wire b bean) (plan.obtain wire' b bean) :=
  (h.gathers hw _).obtain_agrees (fun a ha => h.note a _ (by trivial) ha)
    (fun a ha => h.note a _ (by trivial) ha) fun _ ha => h.build ha b bean.type

theorem Endures.initialise_keeps (h : plan.Endures P F) (b : Nat) (bean : Bean) (i : Instance) :
    Keeps P (initialise b bean i) :=
  Plan.initialise_keeps b bean i fun a ha => h.note a _ (by trivial) ha

theorem Endures.create_keeps (h : plan.Endures P F) (hw : ∀ b, F b → Keeps P (wire b))
    (hb : F b) : Keeps P (plan.create wire b) := by
  cases hbean : plan.beans[b]? with
  | none =>
    unfold create
    rw [hbean]
    exact carries_pure ()
  | some bean =>
    intro a ha
    rw [after_create hbean]
    have hobtain := (h.obtain_agrees (fun b hb => (hw b hb).agrees) b bean).keeps
    refine (hobtain _ (h.begin a b hb ha)).mono fun r t ht => ?_
    cases r with
    | error cause => exact h.note t _ (by trivial) ht
    | ok i =>
      refine (h.initialise_keeps b bean i t ht).mono fun r x hx => ?_
      cases r with
      | error cause => exact h.note x _ (by trivial) hx
      | ok _ => exact h.note _ _ (by trivial) (h.hold x b i hb hx)

theorem Endures.hand_keeps (h : plan.Endures P F) (hw : ∀ b, F b → Keeps P (wire b)) (hb : F b) :
    Keeps P (plan.hand wire b) := by
  unfold hand
  cases plan.beans[b]? with
  | none => exact carries_pure ()
  | some bean =>
    refine (carries_modify fun a ha => h.handed a b hb ha).bind fun _ =>
      Keeps.of_after fun a ha => ?_
    rw [after_noting]
    have hrun := h.runProcedure_agrees (fun c hc => (hw c hc).agrees)
      (fun c hc => (h.create_keeps hw hc).agrees) (fun _ => hb)
      (plan.injector.procedure b bean.id bean.type)
    exact (hrun.keeps.after ha).mono fun r t ht => h.note t _ (by trivial) ht

/-- A property that endures is kept by wirings with any injector. -/
theorem Endures.wire_keeps (h : plan.Endures P F) : ∀ n b, F b → Keeps P (plan.wire n b)
  | 0, _, _ => carries_pure ()
  | n + 1, _, hb => h.hand_keeps (fun b hb => h.wire_keeps n b hb) hb

/-- Where no bean is fresh, wirings keep of the history what their own notes keep. -/
theorem endures_history {P : List Moment → Prop}
    (h : ∀ m ms, m.event.FollowsResolution → P ms → P (m :: ms)) :
    plan.Endures (fun a => a.registry.Calm ∧ P a.progress.history) fun _ => True where
  progress a a' hp ha := by rwa [Assembly.registry, hp]
  note a e he ha := ⟨ha.1, h _ _ he.followsResolution ha.2⟩
  handed a b _ ha := ⟨ha.1, h _ _ trivial ha.2⟩
  received a asker b _ ha := ⟨ha.1, h _ _ trivial ha.2⟩
  count a n ha := ha
  begin a b _ ha := ⟨ha.1.setStatus (by decide), h _ _ (.inl rfl) ha.2⟩
  hold a b i _ ha := ⟨(ha.1.setHeld i).setStatus (by decide), h _ _ (.inr rfl) ha.2⟩
  find sel a ha := by
    have hfind : Keeps (fun p : Progress => p.registry.Calm ∧ P p.history) (plan.find sel) :=
      find_keeps_of_calm (P := fun p => P p.history) (fun _ _ hp => h _ _ trivial hp)
        fun _ _ _ hp => h _ _ trivial hp
    rw [after_ofResolving]
    exact (hfind.after (s := a.progress) ha).mono fun _ _ hq => ⟨hq, fun _ _ _ _ => trivial⟩
  reach _ _ _ _ := trivial

end Plan
end Inversion
