/-
# The registry

A plan is what a refresh starts from and never changes: the registered beans in
the order of their registration, the properties, the compositions, the injector,
and whether the context is cancelled. Beans are meant by their places in that
order.

The registry records how far each bean has come: its status, the exports it was
resolved with and its instance. Three indices are built along the way: by identity,
over the beans that are not deleted, and by name and by type over those that
were resolved. `Registry.lookup` answers a selector from the indices.

A progress is a registry with the number of instances made so far and the
history, which keeps every event together with the registry behind it, the latest
event first.
-/
import Inversion.Injector

namespace Inversion

structure Plan where
  beans : List Bean
  properties : Properties
  compositions : Compositions
  injector : Injector
  cancelled : Bool

def Plan.idOf (plan : Plan) (b : Nat) : String :=
  (plan.beans[b]?).elim "" Bean.id

/-- How far a bean has come. -/
structure Mark where
  status : Status
  exports : List TypeName
  held : Option Instance
  deriving Inhabited

structure Registry where
  marks : List Mark
  byId : List (String × Nat)
  byName : List (String × Nat)
  byType : List (TypeName × Nat)
  deriving Inhabited

/-! ### Identities -/

/-- The beans up to the first one whose identity is taken, and that one with the
bean that took it. -/
def enroll (accepted : List Bean) : List Bean → List Bean × Option (Bean × Bean)
  | [] => (accepted, none)
  | b :: bs =>
    match accepted.find? (fun a => a.id == b.id) with
    | some a => (accepted, some (a, b))
    | none => enroll (accepted ++ [b]) bs

namespace Registry

/-- The registry of beans of which none is resolved yet. -/
def ofBeans (beans : List Bean) : Registry where
  marks := beans.map fun _ => ⟨.fresh, [], none⟩
  byId := beans.zipIdx.map fun (b, i) => (b.id, i)
  byName := []
  byType := []

/-! ### Statuses, exports and instances -/

/-- The status of a bean. What is not registered counts as deleted. -/
def status (r : Registry) (b : Nat) : Status :=
  (r.marks[b]?).elim .deleted (·.status)

def exports (r : Registry) (b : Nat) : List TypeName :=
  (r.marks[b]?).elim [] (·.exports)

def held (r : Registry) (b : Nat) : Option Instance :=
  (r.marks[b]?).bind (·.held)

/-- The beans that are not deleted, in the order of registration. -/
def active (r : Registry) : List Nat :=
  (List.range r.marks.length).filter fun b => r.status b ≠ .deleted

/-- The beans that are being resolved. -/
def resolving (r : Registry) : List Nat :=
  (List.range r.marks.length).filter fun b => r.status b = .resolving

def setStatus (b : Nat) (s : Status) (r : Registry) : Registry :=
  { r with marks := r.marks.modify b fun m => { m with status := s } }

def setExports (b : Nat) (exports : List TypeName) (r : Registry) : Registry :=
  { r with marks := r.marks.modify b fun m => { m with exports := exports } }

def setHeld (b : Nat) (i : Instance) (r : Registry) : Registry :=
  { r with marks := r.marks.modify b fun m => { m with held := some i } }

section
variable (r : Registry) (b c : Nat)

@[simp] theorem length_setStatus (s : Status) : (r.setStatus b s).marks.length = r.marks.length := by
  simp [setStatus]

@[simp] theorem length_setExports (es : List TypeName) :
    (r.setExports b es).marks.length = r.marks.length := by
  simp [setExports]

@[simp] theorem length_setHeld (i : Instance) : (r.setHeld b i).marks.length = r.marks.length := by
  simp [setHeld]

theorem mark_setStatus_of_ne (s : Status) (h : c ≠ b) :
    (r.setStatus b s).marks[c]? = r.marks[c]? := by
  simp [setStatus, h.symm]

theorem mark_setExports_of_ne (es : List TypeName) (h : c ≠ b) :
    (r.setExports b es).marks[c]? = r.marks[c]? := by
  simp [setExports, h.symm]

theorem lt_length_of_status {r : Registry} {b : Nat} (h : r.status b ≠ .deleted) :
    b < r.marks.length := by
  apply Decidable.byContradiction
  intro hb
  exact h (by simp [status, List.getElem?_eq_none (Nat.le_of_not_lt hb)])

theorem lt_length_of_status_eq {r : Registry} {b : Nat} {s : Status} (h : r.status b = s)
    (hs : s ≠ .deleted) : b < r.marks.length := by
  refine lt_length_of_status ?_
  rwa [h]

theorem mem_active {r : Registry} {b : Nat} : b ∈ r.active ↔ r.status b ≠ .deleted := by
  unfold active
  rw [List.mem_filter, List.mem_range, decide_eq_true_eq]
  exact ⟨fun h => h.2, fun h => ⟨lt_length_of_status h, h⟩⟩

/-- Beans that are not registered count as deleted, all others are fresh. -/
theorem status_ofBeans (beans : List Bean) (b : Nat) :
    (ofBeans beans).status b = if b < beans.length then .fresh else .deleted := by
  by_cases hb : b < beans.length
  · simp [status, ofBeans, hb]
  · simp [status, ofBeans, hb]

theorem status_setStatus_self (s : Status) (h : b < r.marks.length) :
    (r.setStatus b s).status b = s := by
  simp [status, setStatus, h]

theorem status_setStatus_of_ne (s : Status) (h : c ≠ b) :
    (r.setStatus b s).status c = r.status c := by
  rw [status, mark_setStatus_of_ne r b c s h, status]

theorem status_setStatus (s : Status) :
    (r.setStatus b s).status c = if c = b ∧ b < r.marks.length then s else r.status c := by
  by_cases hc : c = b
  · rw [hc]
    by_cases hb : b < r.marks.length
    · rw [status_setStatus_self r b s hb, if_pos ⟨rfl, hb⟩]
    · simp [status, setStatus, hb]
  · rw [status_setStatus_of_ne r b c s hc, if_neg fun h => hc h.1]

@[simp] theorem exports_setStatus (s : Status) : (r.setStatus b s).exports c = r.exports c := by
  by_cases hc : b = c <;> cases hm : r.marks[c]? <;> simp [exports, setStatus, hc, hm]

@[simp] theorem held_setStatus (s : Status) : (r.setStatus b s).held c = r.held c := by
  by_cases hc : b = c <;> cases hm : r.marks[c]? <;> simp [held, setStatus, hc, hm]

@[simp] theorem status_setExports (es : List TypeName) :
    (r.setExports b es).status c = r.status c := by
  by_cases hc : b = c <;> cases hm : r.marks[c]? <;> simp [status, setExports, hc, hm]

theorem exports_setExports_self (es : List TypeName) (h : b < r.marks.length) :
    (r.setExports b es).exports b = es := by
  simp [exports, setExports, h]

theorem exports_setExports_of_ne (es : List TypeName) (h : c ≠ b) :
    (r.setExports b es).exports c = r.exports c := by
  rw [exports, mark_setExports_of_ne r b c es h, exports]

@[simp] theorem held_setExports (es : List TypeName) : (r.setExports b es).held c = r.held c := by
  by_cases hc : b = c <;> cases hm : r.marks[c]? <;> simp [held, setExports, hc, hm]

@[simp] theorem status_setHeld (i : Instance) : (r.setHeld b i).status c = r.status c := by
  by_cases hc : b = c <;> cases hm : r.marks[c]? <;> simp [status, setHeld, hc, hm]

@[simp] theorem exports_setHeld (i : Instance) : (r.setHeld b i).exports c = r.exports c := by
  by_cases hc : b = c <;> cases hm : r.marks[c]? <;> simp [exports, setHeld, hc, hm]

theorem held_setHeld_self (i : Instance) (h : b < r.marks.length) :
    (r.setHeld b i).held b = some i := by
  simp [held, setHeld, h]

theorem held_setHeld_of_ne (i : Instance) (h : c ≠ b) : (r.setHeld b i).held c = r.held c := by
  simp [held, setHeld, h.symm]

end

/-! ### Indices -/

def removeId (id : String) (r : Registry) : Registry :=
  { r with byId := r.byId.filter (·.1 != id) }

def indexType (t : TypeName) (b : Nat) (r : Registry) : Registry :=
  { r with byType := r.byType ++ [(t, b)] }

def indexName (name : String) (b : Nat) (r : Registry) : Registry :=
  { r with byName := r.byName ++ [(name, b)] }

def named (r : Registry) (name : String) : List Nat :=
  (r.byName.filter (·.1 == name)).map (·.2)

def typed (r : Registry) (t : TypeName) : List Nat :=
  (r.byType.filter (·.1 == t)).map (·.2)

end Registry

/-! ### Selectors on beans -/

namespace Selector

/-- Whether a bean could match once it is resolved. -/
def mayMatch (sel : Selector) (bean : Bean) : Bool :=
  match sel with
  | name n => bean.name == some n
  | type t => bean.mayProvide t
  | typedName t n => bean.name == some n && bean.mayProvide t
  | parsed _ n => n.isNone || bean.name == n

/-- Whether a bean with the given exports matches. -/
def matchesBean (sel : Selector) (bean : Bean) (exports : List TypeName) : Bool :=
  match sel with
  | name n => bean.name == some n
  | type t => bean.type == t || exports.contains t
  | typedName t n => bean.name == some n && (bean.type == t || exports.contains t)
  | parsed text n =>
    (n.isNone || bean.name == n) && (bean.type.answersTo text || exports.any (·.answersTo text))

end Selector

namespace Plan

def mayMatch (plan : Plan) (sel : Selector) (b : Nat) : Bool :=
  (plan.beans[b]?).any sel.mayMatch

def selects (plan : Plan) (r : Registry) (sel : Selector) (b : Nat) : Bool :=
  (plan.beans[b]?).any fun bean => sel.matchesBean bean (r.exports b)

/-- The answer from the indices. -/
def lookup (plan : Plan) (r : Registry) (sel : Selector) : List Nat :=
  match sel with
  | .name n => r.named n
  | .type t => r.typed t
  | .typedName _ n => (r.named n).filter (plan.selects r sel)
  | .parsed _ (some n) => (r.named n).filter (plan.selects r sel)
  | .parsed _ none => r.active.filter (plan.selects r sel)

end Plan

/-- An event with the registry as it is then. -/
structure Moment where
  event : Event
  registry : Registry

structure Progress where
  registry : Registry
  made : Nat
  history : List Moment
  deriving Inhabited

namespace Progress

def note (e : Event) (p : Progress) : Progress :=
  { p with history := ⟨e, p.registry⟩ :: p.history }

def setStatus (b : Nat) (s : Status) (p : Progress) : Progress :=
  { p with registry := p.registry.setStatus b s }.note (.status b s)

/-- The events of the history, the latest first. -/
def events (p : Progress) : List Event :=
  p.history.map Moment.event

@[simp] theorem registry_note (e : Event) (p : Progress) : (p.note e).registry = p.registry := rfl

@[simp] theorem registry_setStatus (b : Nat) (s : Status) (p : Progress) :
    (p.setStatus b s).registry = p.registry.setStatus b s := rfl

end Progress
end Inversion
