/-
# Wirings do not read conditions

Once the beans are resolved, nobody looks at their conditions but by way of lookups. So plans
that differ in the words of the conditions have the same wirings, argument by argument
and step by step. As far as no bean is handed to it, the injector does not matter either
(`Plan.Reworded.gather`, `Plan.Reworded.create`, `Plan.Reworded.runProcedure`); with the same
injector all wirings are the same (`Plan.Reworded.wireBean`).
-/
import Inversion.Proofs.Lookup.Independence
import Inversion.Wiring

namespace Inversion
namespace Plan.Reworded

variable {plan plan' : Plan} (h : plan.Reworded plan')
include h

/-! ### Instances -/

theorem single : plan'.single = plan.single := by
  funext t bs
  unfold Plan.single
  rw [h.idOf]

theorem instance? (r : Registry) (b : Nat) (t : TypeName) :
    plan'.instance? r b t = plan.instance? r b t := by
  unfold Plan.instance?
  rw [h.read (·.bind (·.castTo? t)) (fun _ _ => rfl) b]

theorem instanceOf : plan'.instanceOf = plan.instanceOf := by
  funext r t b
  unfold Plan.instanceOf
  rw [h.idOf, h.instance?]

theorem singleInstance : plan'.singleInstance = plan.singleInstance := by
  funext r t bs
  unfold Plan.singleInstance
  rw [h.single, h.instanceOf]

theorem allInstances : plan'.allInstances = plan.allInstances := by
  funext r t bs
  unfold Plan.allInstances
  rw [h.instanceOf]

theorem lookup : plan'.lookup = plan.lookup := by
  funext r sel
  unfold Plan.lookup
  rw [h.selects]

theorem answer : plan'.answer = plan.answer := by
  funext r properties question
  unfold Plan.answer
  rw [h.lookup, h.idOf, h.singleInstance, h.allInstances, h.cancelled]

/-! ### Arguments -/

theorem path : Assembly.path plan' = Assembly.path plan := by
  funext a
  unfold Assembly.path
  rw [h.idOf]

theorem receive : plan'.receive = plan.receive := by
  funext wire asker t b
  unfold Plan.receive
  rw [h.instanceOf]

theorem receiveOne : plan'.receiveOne = plan.receiveOne := by
  funext wire asker t sel
  unfold Plan.receiveOne
  rw [h.find, h.single, h.receive]

theorem receiveAll : plan'.receiveAll = plan.receiveAll := by
  funext wire asker t
  unfold Plan.receiveAll
  rw [h.find, h.receive]

theorem keepDestroyer (b : Nat) : Assembly.keepDestroyer plan' b = Assembly.keepDestroyer plan b := by
  funext a
  unfold Assembly.keepDestroyer
  rw [h.read (·.any (·.destroy.isSome)) (fun _ _ => rfl) b]

/-! ### Injectors at work -/

theorem labels : plan'.beans.map Bean.label = plan.beans.map Bean.label :=
  List.ext_getElem? fun b => by
    rw [List.getElem?_map, List.getElem?_map]
    exact h.read (·.map Bean.label) (fun _ _ => rfl) b

theorem view : plan'.view = plan.view := by
  funext a
  unfold Plan.view
  rw [h.labels, ← h.beans.length_eq, h.path, h.properties, h.cancelled,
    show plan'.instance? = plan.instance? from funext fun r => funext fun b => funext (h.instance? r b)]

theorem reaching : plan'.reaching = plan.reaching := by
  funext own act b
  unfold Plan.reaching
  rw [← h.beans.length_eq, h.idOf]

theorem runProcedure (wire create : Nat → Wiring Unit) (own : Nat) : ∀ procedure : Procedure,
    plan'.runProcedure wire create own procedure = plan.runProcedure wire create own procedure
  | .done => rfl
  | .refuse _ => rfl
  | .look next => by
    simp only [Plan.runProcedure, h.view]
    exact bind_congr fun a => runProcedure wire create own (next _)
  | .find sel next => by
    simp only [Plan.runProcedure, h.find]
    exact bind_congr fun found => runProcedure wire create own (next found)
  | .get t name next => by
    simp only [Plan.runProcedure, h.receiveOne]
    exact bind_congr fun i => runProcedure wire create own (next i)
  | .getAll t next => by
    simp only [Plan.runProcedure, h.receiveAll]
    exact bind_congr fun is => runProcedure wire create own (next is)
  | .wire b next => by
    simp only [Plan.runProcedure, h.reaching]
    exact bind_congr fun r => runProcedure wire create own (next r)
  | .create b next => by
    simp only [Plan.runProcedure, h.reaching]
    exact bind_congr fun r => runProcedure wire create own (next r)
  | .enter b next => by simp only [Plan.runProcedure, runProcedure wire create own next]
  | .leave next => by simp only [Plan.runProcedure, runProcedure wire create own next]
  | .keepDestroyer b next => by
    simp only [Plan.runProcedure, runProcedure wire create own next, h.keepDestroyer]
  | .note entry next => by simp only [Plan.runProcedure, runProcedure wire create own next]
  | .report b next => by simp only [Plan.runProcedure, runProcedure wire create own next]

theorem meet (hinjector : plan'.injector = plan.injector) : plan'.meet = plan.meet := by
  funext wire s
  unfold Plan.meet
  rw [hinjector, ← h.beans.length_eq]
  simp only [h.runProcedure]

/-! ### Gathering arguments -/

section
variable (hmeet : plan'.meet = plan.meet)
include hmeet

/-- Arguments are the same if the injectors do the same with beans of another container. -/
theorem gather (wire : Nat → Wiring Unit) (asker : Asker) :
    ∀ arg : Arg, plan'.gather wire asker arg = plan.gather wire asker arg
  | .one t => by simp only [Plan.gather, h.receiveOne]
  | .every t => by simp only [Plan.gather, h.receiveAll]
  | .named t n => by simp only [Plan.gather, h.receiveOne]
  | .properties keys => by simp only [Plan.gather, h.properties]
  | .token => by simp only [Plan.gather, h.cancelled]
  | .attempt arg => by simp only [Plan.gather, gather wire asker arg]
  | .find sel => by simp only [Plan.gather, h.find, h.idOf]
  | .surroundings => by simp only [Plan.gather, h.path, h.properties, h.cancelled]
  | .stranger s => by simp only [Plan.gather, hmeet]
  | .window questions => by simp only [Plan.gather, h.receiveOne, h.answer]

/-! ### Creations -/

theorem obtain (wire : Nat → Wiring Unit) (b : Nat) (bean : Bean) (cs : List Condition) :
    plan'.obtain wire b { bean with conditions := cs } = plan.obtain wire b bean := by
  unfold Plan.obtain Plan.build
  rw [h.properties, show plan'.gather wire (.bean b) = plan.gather wire (.bean b) from
    funext (h.gather hmeet wire _)]
  rfl

theorem create (wire : Nat → Wiring Unit) (b : Nat) : plan'.create wire b = plan.create wire b := by
  unfold Plan.create
  rcases h.getElem? b with ⟨hb, hb'⟩ | ⟨bean, cs, hb, hb', -⟩
  · rw [hb, hb']
  · rw [hb, hb']
    simp only [h.obtain hmeet]
    rfl

end

/-! ### Wirings -/

section
variable (hinjector : plan'.injector = plan.injector)
include hinjector

theorem hand (wire : Nat → Wiring Unit) (b : Nat) : plan'.hand wire b = plan.hand wire b := by
  unfold Plan.hand
  rcases h.getElem? b with ⟨hb, hb'⟩ | ⟨bean, cs, hb, hb', -⟩
  · rw [hb, hb']
  · rw [hb, hb', hinjector, show plan'.create wire = plan.create wire from
      funext (h.create (h.meet hinjector) wire)]
    simp only [h.runProcedure]
    rfl

theorem wire : ∀ n b, plan'.wire n b = plan.wire n b
  | 0, _ => rfl
  | n + 1, b => by
    rw [Plan.wire, Plan.wire, h.hand hinjector, show plan'.wire n = plan.wire n from funext (wire n)]

theorem wireBean : plan'.wireBean = plan.wireBean := by
  funext b
  unfold Plan.wireBean
  rw [← h.beans.length_eq, h.wire hinjector, hinjector]

theorem configure (configuration : Configuration) (cs : List Condition) (c : Nat) :
    plan'.configure { configuration with conditions := cs } c = plan.configure configuration c := by
  unfold Plan.configure
  rw [h.wireBean hinjector, show plan'.gather plan.wireBean (.configuration c) =
    plan.gather plan.wireBean (.configuration c) from
      funext (h.gather (h.meet hinjector) plan.wireBean _)]
  rfl

end
end Plan.Reworded
end Inversion
