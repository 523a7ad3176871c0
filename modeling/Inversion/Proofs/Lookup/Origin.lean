/-
# Where a failed resolution comes from

The resolution of one bean may fail inside the conditions of another, inside contexts, and so
on outwards. The error that a resolution comes to tells all of that, and its `origin` is the
innermost error inside.

A condition is candid if it makes up no failure of a resolution: what it raises is its own, or
it is passed on from a lookup that the condition has attempted (`Condition.Candid`). With
candid conditions the origin tells the truth: either a bean whose conditions held
has exports that are wrong (`Misexported`), or a condition came to a failure of its own
(`Stumbled`). The induction is on the bound of the nesting (`resolve_explains`): what has happened
inside stays in the history, where the evaluation of each bean's conditions starts
with the note that it has begun (`Progress.Begins`).

An error is fatal by its origin, so a refresh panics in the first case and answers the error in
the second, however deep the origin lies (`fatal_origins_panic`).
-/
import Inversion.Proofs.Composition
import Inversion.Proofs.Lookup.Once
import Inversion.Proofs.Wiring.Gathering

namespace Inversion

/-! ### Origins -/

/-- The error of a resolution that a condition has failed with, if the failure is not its own. -/
def Fault.passed? : Fault → Option ResolveError
  | .text _ => none
  | .lookup cause => some cause
  | .context _ cause => cause.passed?

mutual
/-- What a failure comes from, for a condition whose own failures are `own`. -/
def Fault.origin (own : ResolveError) : Fault → ResolveError
  | .text _ => own
  | .lookup cause => cause.origin
  | .context _ cause => cause.origin own

/-- The innermost error. -/
def ResolveError.origin : ResolveError → ResolveError
  | .condition bean cause => cause.origin (.condition bean cause)
  | .notImplemented bean interface => .notImplemented bean interface
  | .export bean cause => .export bean cause
end

/-- The error is about the exports of a bean. -/
def ResolveError.IsOfExports : ResolveError → Prop
  | .condition _ _ => False
  | .notImplemented _ _ => True
  | .export _ _ => True

mutual
theorem Fault.isFatal_iff {own : ResolveError} (h : ¬own.IsOfExports) :
    ∀ fault : Fault, fault.isFatal ↔ (fault.origin own).IsOfExports
  | .text _ => iff_of_false nofun h
  | .lookup cause => by
    rw [Fault.isFatal, Fault.origin]
    exact cause.isFatal_iff
  | .context _ cause => by
    rw [Fault.isFatal, Fault.origin]
    exact cause.isFatal_iff h

/-- An error is fatal if its origin is about exports. -/
theorem ResolveError.isFatal_iff : ∀ e : ResolveError, e.isFatal ↔ e.origin.IsOfExports
  | .condition bean cause => by
    rw [ResolveError.isFatal, ResolveError.origin]
    exact cause.isFatal_iff (by exact id)
  | .notImplemented _ _ => iff_of_true rfl trivial
  | .export _ _ => iff_of_true rfl trivial
end

/-! ### Candid conditions -/

/-- The probe raises failures of its own, or passes on one of those that it has `seen`. -/
def Probe.Candid (seen : List Fault) : Probe → Prop
  | answer _ => True
  | fail _ => True
  | raise cause => cause.passed? = none ∨ ∃ fault ∈ seen, cause.passed? = fault.passed?
  | note _ next => next.Candid seen
  | find _ next => ∀ ids, (next ids).Candid seen
  | attempt _ next =>
    (∀ fault, (next (.error fault)).Candid (fault :: seen)) ∧ ∀ ids, (next (.ok ids)).Candid seen
  | properties next => ∀ properties, (next properties).Candid seen
  | cancelled next => ∀ b, (next b).Candid seen

mutual
def Condition.Candid : Condition → Prop
  | .property _ _ _ => True
  | .missingProperty _ => True
  | .beans _ _ => True
  | .not c => c.Candid
  | .all cs => Condition.AllCandid cs
  | .any cs => Condition.AllCandid cs
  | .probe pr => pr.Candid []
  | .context _ c => c.Candid

def Condition.AllCandid : List Condition → Prop
  | [] => True
  | c :: cs => c.Candid ∧ Condition.AllCandid cs
end

/-- The failure is the condition's own, or `E` holds of the error that it passes on. -/
def Fault.Told (E : ResolveError → Progress → Prop) (fault : Fault) (p : Progress) : Prop :=
  ∀ cause, fault.passed? = some cause → E cause p

/-- Lookups and notes keep `J`, lookups fail as `E` says, and what `E` says stays true. -/
structure Traces (find : Selector → Checking (List Nat)) (J : Progress → Prop)
    (E : ResolveError → Progress → Prop) : Prop where
  note : ∀ p e, e.IsCheck → J p → J (p.note e)
  note_told : ∀ cause p e, e.IsCheck → E cause p → E cause (p.note e)
  lookup : ∀ sel, Explains J (Fault.Told E) (find sel)
  lookup_told : ∀ cause sel, Keeps (E cause) (find sel)

section
variable {plan : Plan} {find : Selector → Checking (List Nat)} {J : Progress → Prop}
  {E : ResolveError → Progress → Prop}

theorem Fault.told_of_passed {fault cause : Fault} {p : Progress}
    (h : cause.passed? = fault.passed?) (hf : fault.Told E p) : cause.Told E p :=
  fun e he => hf e (h ▸ he)

theorem Fault.told_of_own {fault : Fault} {p : Progress} (h : fault.passed? = none) :
    fault.Told E p := by
  intro e he
  rw [h] at he
  cases he

/-- `J` holds, and what has been seen to fail is told. -/
def Seen (J : Progress → Prop) (E : ResolveError → Progress → Prop) (seen : List Fault)
    (p : Progress) : Prop :=
  J p ∧ ∀ fault ∈ seen, fault.Told E p

theorem Traces.seen_note (h : Traces find J E) {seen : List Fault} {e : Event} (he : e.IsCheck) :
    Explains (Seen J E seen) (Fault.Told E) (modify (·.note e) : Checking PUnit) :=
  explains_modify fun p hp => ⟨h.note p e he hp.1, fun fault hin cause hc =>
    h.note_told cause p e he (hp.2 fault hin cause hc)⟩

theorem Traces.seen_lookup (h : Traces find J E) (seen : List Fault) (sel : Selector) :
    Explains (Seen J E seen) (Fault.Told E) (find sel) := by
  intro p hp
  have hseen : After (find sel) p fun _ q => ∀ fault ∈ seen, fault.Told E q :=
    fun fault hin cause hc => (h.lookup_told cause sel).after (hp.2 fault hin cause hc)
  exact ((h.lookup sel p hp.1).and hseen).mono fun r q ⟨⟨hq, he⟩, hs⟩ => ⟨⟨hq, hs⟩, he⟩

theorem Probe.run_explains (h : Traces find J E) :
    ∀ (probe : Probe) (seen : List Fault), probe.Candid seen →
      Explains (Seen J E seen) (Fault.Told E) (probe.run plan find)
  | answer b, _, _ => explains_pure b
  | fail message, _, _ => explains_throw fun _ _ => Fault.told_of_own rfl
  | raise cause, seen, hc => by
    refine explains_throw fun p hp => ?_
    rcases hc with hown | ⟨fault, hin, hpassed⟩
    · exact Fault.told_of_own hown
    · exact Fault.told_of_passed hpassed (hp.2 fault hin)
  | note entry next, seen, hc => by
    simp only [Probe.run]
    exact (h.seen_note (by trivial)).bind fun _ => run_explains h next seen hc
  | .find sel next, seen, hc => by
    simp only [Probe.run]
    exact (h.seen_lookup seen sel).bind fun found => run_explains h _ seen (hc _)
  | attempt sel next, seen, hc => by
    intro p hp
    simp only [Probe.run, after_bind, after_observe, continues_ok]
    refine (h.seen_lookup seen sel p hp).mono fun r q hlookup => ?_
    obtain ⟨hq, he⟩ := hlookup
    cases r with
    | ok found => exact run_explains h _ seen (hc.2 _) q hq
    | error fault =>
      -- the failure is a value from here on, and may be passed on later
      have hmore : Seen J E (fault :: seen) q :=
        ⟨hq.1, List.forall_mem_cons.mpr ⟨he fault rfl, hq.2⟩⟩
      refine (run_explains h _ (fault :: seen) (hc.1 fault) q hmore).mono fun r t hrun => ?_
      obtain ⟨ht, he⟩ := hrun
      exact ⟨⟨ht.1, (List.forall_mem_cons.mp ht.2).2⟩, he⟩
  | properties next, seen, hc => by
    simp only [Probe.run]
    exact run_explains h _ seen (hc _)
  | cancelled next, seen, hc => by
    simp only [Probe.run]
    exact run_explains h _ seen (hc _)

theorem Traces.explains_note (h : Traces find J E) {e : Event} (he : e.IsCheck) :
    Explains J (Fault.Told E) (modify (·.note e) : Checking PUnit) :=
  explains_modify fun p hp => h.note p e he hp

mutual
theorem Condition.holds_explains (h : Traces find J E) :
    ∀ c : Condition, c.Candid → Explains J (Fault.Told E) (c.holds plan find)
  | .property key value ifMissing, _ => by
    simp only [Condition.holds]
    exact (h.explains_note (by trivial)).bind fun _ => explains_pure _
  | .missingProperty key, _ => by
    simp only [Condition.holds]
    exact (h.explains_note (by trivial)).bind fun _ => explains_pure _
  | .beans expectation sel, _ => by
    simp only [Condition.holds]
    exact (h.explains_note (by trivial)).bind fun _ => (h.lookup sel).bind fun _ => explains_pure _
  | .not c, hc => by
    simp only [Condition.holds]
    exact (Condition.holds_explains h c hc).bind fun _ => explains_pure _
  | .all cs, hc => by
    simp only [Condition.holds]
    exact allHold_explains h cs hc
  | .any cs, hc => by
    simp only [Condition.holds]
    exact anyHolds_explains h cs hc
  | .probe pr, hc => by
    simp only [Condition.holds]
    refine (h.explains_note (by trivial)).bind fun _ p hp => ?_
    exact (pr.run_explains h [] hc p ⟨hp, nofun⟩).mono fun r q ⟨hq, he⟩ => ⟨hq.1, he⟩
  | .context message c, hc => by
    simp only [Condition.holds]
    exact (Condition.holds_explains h c hc).adapt fun fault _ hf => Fault.told_of_passed rfl hf

theorem allHold_explains (h : Traces find J E) :
    ∀ cs : List Condition, Condition.AllCandid cs →
      Explains J (Fault.Told E) (allHold plan find cs)
  | [], _ => explains_pure true
  | c :: cs, hc => by
    simp only [allHold]
    refine (Condition.holds_explains h c hc.1).bind fun b => ?_
    cases b with
    | true => exact allHold_explains h cs hc.2
    | false => exact explains_pure false

theorem anyHolds_explains (h : Traces find J E) :
    ∀ cs : List Condition, Condition.AllCandid cs →
      Explains J (Fault.Told E) (anyHolds plan find cs)
  | [], _ => explains_pure false
  | c :: cs, hc => by
    simp only [anyHolds]
    refine (Condition.holds_explains h c hc.1).bind fun b => ?_
    cases b with
    | true => exact explains_pure true
    | false => exact anyHolds_explains h cs hc.2
end

end

/-! ### Culprits -/

/-- Without any instance made since `s`, what has happened has led to `p`. -/
structure Progress.Precedes (s p : Progress) : Prop where
  made : p.made = s.made
  behind : s.history <:+ p.history

/-- In `s` the bean has just begun, and what has happened since then has led to `p`. -/
structure Progress.Begins (s : Progress) (b : Nat) (p : Progress) : Prop extends s.Precedes p where
  begun : ∃ earlier, s.history = ⟨.status b .resolving, s.registry⟩ :: earlier

theorem Progress.Precedes.refl (p : Progress) : p.Precedes p :=
  ⟨rfl, List.suffix_rfl⟩

theorem Progress.Precedes.trans {s p q : Progress} (h : s.Precedes p) (h' : p.Precedes q) :
    s.Precedes q :=
  ⟨h'.made.trans h.made, h.behind.trans h'.behind⟩

namespace Plan

variable {plan : Plan} {configurations : List Configuration} {b n k : Nat} {bean : Bean}
  {p q s : Progress} {o e : ResolveError}

/-- What is wrong with the exports of a bean: its composition is invalid, or it does not
implement one of the types that it is declared to export or that its composition offers. -/
inductive Misexports (plan : Plan) (bean : Bean) : ResolveError → Prop
  | composition {cause : ExportError} (composite : bean.composite)
    (invalid : autoExport plan.compositions (plan.compositions.of bean.type) = .error cause) :
    Misexports plan bean (.export bean.description cause)
  | interface {t : TypeName} (asked : t ∈ bean.exports ∨ bean.composite ∧ ∃ offered,
      autoExport plan.compositions (plan.compositions.of bean.type) = .ok offered ∧ t ∈ offered)
    (missing : ¬bean.implements t) : Misexports plan bean (.notImplemented bean.description t)

/-- A bean has begun whose conditions held, and its exports are wrong. -/
def Misexported (plan : Plan) (q : Progress) (o : ResolveError) : Prop :=
  ∃ b bean s, plan.beans[b]? = some bean ∧ s.Begins b q ∧
    (outcome (plan.check plan.beans.length bean) s).1 = .ok true ∧ plan.Misexports bean o

/-- The conditions of a bean that has begun, or of a configuration, came to a failure of
their own. -/
inductive Stumbled (plan : Plan) (configurations : List Configuration) (q : Progress) :
    ResolveError → Prop
  | bean {b : Nat} {bean : Bean} {s : Progress} {fault : Fault} (place : plan.beans[b]? = some bean)
    (begins : s.Begins b q)
    (failed : (outcome (plan.check plan.beans.length bean) s).1 = .error (.condition bean.id fault))
    (own : fault.passed? = none) : Stumbled plan configurations q (.condition bean.id fault)
  | configuration {configuration : Configuration} {c : Nat} {s : Progress} {fault : Fault}
    (place : (configuration, c) ∈ configurations.zipIdx) (precedes : s.Precedes q)
    (failed : (outcome (plan.admits configuration c) s).1 =
      .error (.condition configuration.title fault))
    (own : fault.passed? = none) :
    Stumbled plan configurations q (.condition configuration.title fault)

/-- The origin of the error has come about in one of the two ways. -/
def Accounts (plan : Plan) (configurations : List Configuration) (e : ResolveError) (q : Progress) :
    Prop :=
  plan.Misexported q e.origin ∨ plan.Stumbled configurations q e.origin

theorem Misexported.mono (h : plan.Misexported p o) (hpq : p.Precedes q) : plan.Misexported q o := by
  obtain ⟨b, bean, s, hbean, ⟨hs, hbegun⟩, hholds, hwrong⟩ := h
  exact ⟨b, bean, s, hbean, ⟨hs.trans hpq, hbegun⟩, hholds, hwrong⟩

theorem Stumbled.mono (h : plan.Stumbled configurations p o) (hpq : p.Precedes q) :
    plan.Stumbled configurations q o := by
  cases h with
  | bean place begins failed own =>
    exact .bean place ⟨begins.toPrecedes.trans hpq, begins.begun⟩ failed own
  | configuration place precedes failed own =>
    exact .configuration place (precedes.trans hpq) failed own

theorem Accounts.mono (h : plan.Accounts configurations e p) (hpq : p.Precedes q) :
    plan.Accounts configurations e q :=
  h.imp (fun h => h.mono hpq) fun h => h.mono hpq

section
variable {resolve : Nat → Resolving Unit} {sel : Selector} {J : Progress → Prop}
  {E : ResolveError → Progress → Prop}

end

end Plan
end Inversion
