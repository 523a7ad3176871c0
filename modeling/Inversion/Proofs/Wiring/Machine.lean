/-
# The wiring machine

With the standard injector a wiring takes few kinds of steps. `Moves` lists them
for a scene: what is under way, the innermost activity first, and the assembly.
The creation of a bean is begun, its constructor and its hook run, and it is
finished or fails; whoever is gathering arguments receives beans that are wired;
all else is quiet.

What is under way is the real nesting of the calls. It is not the path of the
assembly, which keeps the beans whose creation has failed.
-/
import Mathlib.Logic.Relation
import Inversion.Proofs.Wiring.Creation

namespace Inversion

open Relation

namespace Assembly

abbrev events (a : Assembly) : List Event :=
  a.progress.events

/-- Enters a bean and begins its creation. -/
def begin (b : Nat) (a : Assembly) : Assembly :=
  { a with stack := b :: a.stack }.setStatus b .creating

/-- Finishes the creation of a bean, keeps its destroyer and leaves it. -/
def finish (plan : Plan) (b : Nat) (i : Instance) (a : Assembly) : Assembly :=
  let a := ((a.hold b i).note (.creationEnded b none)).keepDestroyer plan b
  { a with stack := a.stack.tail }.note (.wired b)

end Assembly

/-- How far the creation of a bean has come. -/
inductive Stage where
  | gathering
  | built
  | initialised
  | failed
  deriving DecidableEq

/-- What is under way. -/
inductive Activity where
  | configuration (c : Nat)
  | creation (b : Nat) (stage : Stage)

namespace Activity

/-- The one who gathers arguments. -/
def asker? : Activity → Option Asker
  | configuration c => some (.configuration c)
  | creation b .gathering => some (.bean b)
  | creation _ _ => none

def bean? : Activity → Option Nat
  | configuration _ => none
  | creation b _ => some b

end Activity

/-- The beans whose creation is under way. -/
def creations (us : List Activity) : List Nat :=
  us.filterMap Activity.bean?

@[simp] theorem creations_creation (b : Nat) (stage : Stage) (us : List Activity) :
    creations (.creation b stage :: us) = b :: creations us := rfl

abbrev Scene : Type :=
  List Activity × Assembly

/-- The steps of a wiring. -/
inductive Moves (plan : Plan) : Scene → Scene → Prop
  | note {us : List Activity} {a : Assembly} {e : Event} (quiet : e.IsQuiet) :
    Moves plan (us, a) (us, a.note e)
  /-- A bean is wired for the one who asks, who may still be denied it. -/
  | connect {us : List Activity} {a : Assembly} {b : Nat} (wired : a.registry.status b = .wired) :
    Moves plan (us, a) (us, a.connect b)
  | receive {u : Activity} {us : List Activity} {a : Assembly} {asker : Asker} {b : Nat}
    (asks : u.asker? = some asker) (wired : a.registry.status b = .wired) :
    Moves plan (u :: us, a) (u :: us, (a.connect b).note (.received asker b))
  | begin {us : List Activity} {a : Assembly} {b : Nat} {bean : Bean}
    (registered : plan.beans[b]? = some bean) (resolved : a.registry.status b = .resolved) :
    Moves plan (us, a) (.creation b .gathering :: us, a.begin b)
  /-- An object bean has its instance already. -/
  | take {us : List Activity} {a : Assembly} {b : Nat} {bean : Bean} {i : Instance}
    (registered : plan.beans[b]? = some bean) (object : bean.source = .object i) :
    Moves plan (.creation b .gathering :: us, a) (.creation b .built :: us, a)
  | build {us : List Activity} {a : Assembly} {b : Nat} {bean : Bean} {recipe : Recipe}
    (registered : plan.beans[b]? = some bean) (constructor : bean.source = .constructor recipe) :
    Moves plan (.creation b .gathering :: us, a) (.creation b .built :: us, a.build b bean.type)
  | buildFailed {us : List Activity} {a : Assembly} {b : Nat} {bean : Bean} {recipe : Recipe}
    (registered : plan.beans[b]? = some bean) (constructor : bean.source = .constructor recipe) :
    Moves plan (.creation b .gathering :: us, a)
      (.creation b .failed :: us, a.note (.buildFailed b bean.type))
  | openWindow {us : List Activity} {a : Assembly} {b : Nat} {bean : Bean}
    (registered : plan.beans[b]? = some bean) (window : bean.source = .window) :
    Moves plan (.creation b .gathering :: us, a)
      (.creation b .built :: us, a.note (.instantiated b))
  | initialise {us : List Activity} {a : Assembly} {b : Nat} {bean : Bean} {hook : Hook}
    {brief : String} (registered : plan.beans[b]? = some bean) (hooked : bean.init = some hook) :
    Moves plan (.creation b .built :: us, a)
      (.creation b (if hook.failure.isSome then .failed else .initialised) :: us,
        a.note (.initialised b bean.type brief))
  | finish {us : List Activity} {a : Assembly} {b : Nat} {bean : Bean} {stage : Stage}
    {i : Instance} (registered : plan.beans[b]? = some bean)
    (ready : stage = .initialised ∨ stage = .built ∧ bean.init = none) :
    Moves plan (.creation b stage :: us, a) (us, a.finish plan b i)
  | fail {us : List Activity} {a : Assembly} {b : Nat} {stage : Stage} {cause : WireError} :
    Moves plan (.creation b stage :: us, a) (us, a.note (.creationEnded b (some cause)))
  | configure {a : Assembly} {c : Nat} : Moves plan ([], a) ([.configuration c], a)
  | leave {a : Assembly} {c : Nat} : Moves plan ([.configuration c], a) ([], a)

abbrev Reaches (plan : Plan) : Scene → Scene → Prop :=
  ReflTransGen (Moves plan)

/-! ### Registries along a run -/

/-- The bean takes part, or may, and its creation has not begun. -/
def Status.isUnbuilt : Status → Bool
  | fresh | resolving | resolved => true
  | creating | wired | deleted => false

namespace Registry

/-- The beans whose creation is still to come. -/
abbrev unbuilt (r : Registry) : Finset Nat :=
  r.having Status.isUnbuilt

theorem unbuilt_setStatus {r : Registry} {b : Nat} {s : Status} (hs : s.isUnbuilt = false) :
    (r.setStatus b s).unbuilt = r.unbuilt.erase b :=
  having_setStatus rfl hs

theorem unbuilt_setHeld {r : Registry} {b : Nat} {i : Instance} :
    (r.setHeld b i).unbuilt = r.unbuilt := by
  ext c
  rw [mem_having rfl, mem_having rfl, status_setHeld]

end Registry

section
variable {plan : Plan} {b : Nat} {a : Assembly}

@[simp] theorem Assembly.registry_finish {i : Instance} :
    (a.finish plan b i).registry = (a.registry.setHeld b i).setStatus b .wired := by
  show (keepDestroyer _ _ _).progress.registry = _
  rw [progress_keepDestroyer]
  rfl

theorem Assembly.status_finish_self {i : Instance} (hb : b < a.registry.marks.length) :
    (a.finish plan b i).registry.status b = .wired := by
  rw [registry_finish, Registry.status_setStatus_self]
  rwa [Registry.length_setHeld]

theorem Assembly.status_finish_of_ne {i : Instance} {c : Nat} (hc : c ≠ b) :
    (a.finish plan b i).registry.status c = a.registry.status c := by
  rw [registry_finish, Registry.status_setStatus_of_ne _ b c _ hc, Registry.status_setHeld]

variable {s t : Scene}

/-- The ways in which a step may change the registry. -/
theorem Moves.registry (h : Moves plan s t) : t.2.registry = s.2.registry ∨
    (∃ b, s.2.registry.status b = .resolved ∧
      t.2.registry = s.2.registry.setStatus b .creating) ∨
    ∃ b stage us i, s.1 = .creation b stage :: us ∧
      t.2.registry = (s.2.registry.setHeld b i).setStatus b .wired := by
  cases h with
  | connect => exact .inl (by rw [Assembly.registry, Assembly.progress_connect])
  | @receive u us a asker b =>
    left
    show (a.connect b).progress.registry = a.progress.registry
    rw [Assembly.progress_connect]
  | begin registered resolved => exact .inr (.inl ⟨_, resolved, rfl⟩)
  | finish => exact .inr (.inr ⟨_, _, _, _, rfl, Assembly.registry_finish⟩)
  | _ => exact .inl rfl

theorem Moves.calm (h : Moves plan s t) (hc : s.2.registry.Calm) : t.2.registry.Calm := by
  rcases h.registry with h | ⟨b, -, h⟩ | ⟨b, stage, us, i, -, h⟩
  · rwa [h]
  · rw [h]
    exact hc.setStatus (by decide)
  · rw [h]
    refine Registry.Calm.setStatus (fun c => ?_) (by decide)
    rw [Registry.status_setHeld]
    exact hc c

theorem Moves.unbuilt (h : Moves plan s t) : t.2.registry.unbuilt ⊆ s.2.registry.unbuilt := by
  rcases h.registry with h | ⟨b, -, h⟩ | ⟨b, stage, us, i, -, h⟩
  · rw [h]
  · rw [h, Registry.unbuilt_setStatus rfl]
    exact Finset.erase_subset _ _
  · rw [h, Registry.unbuilt_setStatus rfl, Registry.unbuilt_setHeld]
    exact Finset.erase_subset _ _

theorem Moves.length (h : Moves plan s t) :
    t.2.registry.marks.length = s.2.registry.marks.length := by
  rcases h.registry with h | ⟨b, -, h⟩ | ⟨b, stage, us, i, -, h⟩ <;> rw [h] <;> simp

/-- What a step keeps, a run keeps. -/
theorem Reaches.keeps {P : Scene → Prop} (hstep : ∀ s t, Moves plan s t → P s → P t)
    (h : Reaches plan s t) (hs : P s) : P t := by
  induction h with
  | refl => exact hs
  | tail _ hm ih => exact hstep _ _ hm ih

theorem Reaches.calm (h : Reaches plan s t) (hc : s.2.registry.Calm) : t.2.registry.Calm :=
  h.keeps (P := fun s => s.2.registry.Calm) (fun _ _ hm hs => hm.calm hs) hc

theorem Reaches.unbuilt (h : Reaches plan s t) :
    t.2.registry.unbuilt.card ≤ s.2.registry.unbuilt.card := by
  have hsub : t.2.registry.unbuilt ⊆ s.2.registry.unbuilt :=
    h.keeps (P := fun t => t.2.registry.unbuilt ⊆ s.2.registry.unbuilt)
      (fun _ _ hm hs => hm.unbuilt.trans hs) (Finset.Subset.refl _)
  exact Finset.card_le_card hsub

theorem Reaches.length (h : Reaches plan s t) :
    t.2.registry.marks.length = s.2.registry.marks.length :=
  h.keeps (P := fun t => t.2.registry.marks.length = s.2.registry.marks.length)
    (fun _ _ hm hs => hm.length.trans hs) rfl

/-- A creation that begins makes one less to come. -/
theorem Moves.unbuilt_begin (h : a.registry.status b = .resolved) :
    (a.begin b).registry.unbuilt.card < a.registry.unbuilt.card := by
  show (a.registry.setStatus b .creating).unbuilt.card < _
  rw [Registry.unbuilt_setStatus rfl]
  exact Finset.card_erase_lt_of_mem ((Registry.mem_having rfl).mpr (by rw [h]; rfl))

/-- A run that leaves what is under way as it is, seen from the assembly. -/
theorem Reaches.note {us : List Activity} {t : Assembly} (h : Reaches plan s (us, t)) {e : Event}
    (he : e.IsQuiet) : Reaches plan s (us, t.note e) :=
  h.tail (.note he)

theorem Reaches.remarked {us : List Activity} {t : Assembly} (h : Reaches plan s (us, t))
    {p : Progress} (hp : t.progress.Remarked p) : Reaches plan s (us, { t with progress := p }) := by
  induction hp with
  | refl => exact h
  | @note q e _ he ih => exact ih.note he.isQuiet

end
end Inversion
