/-
# Wiring beans

An assembly is the state of a wiring: the progress of the refresh, the path of
the beans under construction, the direct dependencies so far, and the beans whose
destroyers are kept.

To wire a bean is to hand it to the injector. Where the injector creates the
bean, the arguments of its constructor are resolved, which wires further beans, so
wirings stand inside one another. The bound `n` of `wire` is on the number of
wirings that can be under way. With the standard injector a bean is under construction
at most once, so one more than the number of beans is enough. Other injectors say how many
more they need, and for every run that ends there is such a number.
-/
import Inversion.Resolution

namespace Inversion

structure Assembly where
  progress : Progress
  /-- The beans under construction, the innermost first. -/
  stack : List Nat
  /-- A bean and one that received it. -/
  edges : List (Nat × Nat)
  /-- The beans whose destroyers are kept. -/
  destroyers : List Nat
  deriving Inhabited

namespace Assembly

def start (p : Progress) : Assembly :=
  ⟨p, [], [], []⟩

def note (e : Event) (a : Assembly) : Assembly :=
  { a with progress := a.progress.note e }

/-- Notes the event if there is one. -/
def noteAny (e : Option Event) (a : Assembly) : Assembly :=
  e.elim a fun e => a.note e

def setStatus (b : Nat) (s : Status) (a : Assembly) : Assembly :=
  { a with progress := a.progress.setStatus b s }

/-- The identities along the path, outermost first. -/
def path (plan : Plan) (a : Assembly) : List String :=
  a.stack.reverse.map plan.idOf

/-- Records that the innermost bean under construction received a bean. -/
def connect (b : Nat) (a : Assembly) : Assembly :=
  match a.stack with
  | [] => a
  | top :: _ =>
    if top = b ∨ (b, top) ∈ a.edges then a else { a with edges := a.edges ++ [(b, top)] }

def keepDestroyer (plan : Plan) (b : Nat) (a : Assembly) : Assembly :=
  if (plan.beans[b]?).any (·.destroy.isSome) ∧ b ∉ a.destroyers then
    { a with destroyers := a.destroyers ++ [b] }
  else a

end Assembly

/-- A computation on an assembly that may fail to wire a bean. -/
abbrev Wiring (α : Type) : Type :=
  ExceptT WireError (StateM Assembly) α

namespace Wiring

def ofExcept {α : Type} (x : Except WireError α) : Wiring α :=
  match x with
  | .ok a => pure a
  | .error e => throw e

/-- A resolution as a part of a wiring. -/
def ofResolving {α : Type} (x : Resolving α) : Wiring α := do
  let a ← get
  let (result, p) := (x.run).run a.progress
  set { a with progress := p }
  ofExcept (result.mapError .resolve)

/-- The outcome of a wiring as a value. -/
def attempt (x : Wiring Value) : Wiring Value := do
  match ← observe x with
  | .ok v => pure (.success v)
  | .error e => pure (.failure e)

/-- A wiring with an event for its outcome, if it has one. -/
def noting {α : Type} (event : Option WireError → Option Event) (x : Wiring α) : Wiring α := do
  let a ← get
  match (x.run).run a with
  | (.ok v, a) =>
    set (a.noteAny (event none))
    pure v
  | (.error cause, a) =>
    set (a.noteAny (event (some cause)))
    throw cause

end Wiring

namespace Plan

/-! ### Instances of beans -/

/-- The only bean of a list. -/
def single (plan : Plan) (t : TypeName) : List Nat → Except WireError Nat
  | [] => .error (.noBean t)
  | [b] => .ok b
  | bs => .error (.ambiguous t (bs.map plan.idOf))

/-- The instance of a bean as one of a type, wired or not. -/
def instance? (plan : Plan) (r : Registry) (b : Nat) (t : TypeName) : Option Instance :=
  match r.held b, (plan.beans[b]?).bind (·.castTo? t) with
  | some i, some cast => some (cast.apply i)
  | _, _ => none

/-- The instance of a wired bean as one of a type. -/
def instanceOf (plan : Plan) (r : Registry) (t : TypeName) (b : Nat) : Except WireError Instance :=
  if r.status b ≠ .wired then .error (.notWired (plan.idOf b))
  else
    match plan.instance? r b t with
    | some i => .ok i
    | none => .error (.incorrectType (plan.idOf b) t)

/-- The instance of the only bean of a list. -/
def singleInstance (plan : Plan) (r : Registry) (t : TypeName) (bs : List Nat) :
    Except WireError Instance := do
  plan.instanceOf r t (← plan.single t bs)

def allInstances (plan : Plan) (r : Registry) (t : TypeName) (bs : List Nat) :
    Except WireError (List Instance) :=
  bs.mapM (plan.instanceOf r t)

/-! ### Windows -/

def errorOr (f : α → Value) : Except WireError α → Value
  | .ok a => f a
  | .error e => .failure e

def textOrAbsent (s : Option String) : Value :=
  s.elim .absent .text

/-- The answer of a window that shows the registry and has kept the properties. -/
def answer (plan : Plan) (r : Registry) (properties : Properties) : Question → Value
  | .find sel => .list ((plan.lookup r sel).map fun b => .text (plan.idOf b))
  | .one t => errorOr .whole (plan.singleInstance r t (plan.lookup r (.type t)))
  | .named t n => errorOr .whole (plan.singleInstance r t (plan.lookup r (.typedName t n)))
  | .every t =>
    errorOr (fun is => .list (is.map .whole)) (plan.allInstances r t (plan.lookup r (.type t)))
  | .property key =>
    .list [textOrAbsent (properties.get? key), .flag (properties.contains key)]
  | .cancelled => .flag plan.cancelled
  | .keys => .list (properties.keys.map .text)

/-! ### Arguments -/

/-- Hands a bean of the container to the injector, by way of `wire`. -/
def demand (wire : Nat → Wiring Unit) (b : Nat) : Wiring Unit := do
  wire b
  modify (·.connect b)

/-- The instance of a bean, wired on demand for the one who asks. -/
def receive (plan : Plan) (wire : Nat → Wiring Unit) (asker : Asker) (t : TypeName) (b : Nat) :
    Wiring Instance := do
  demand wire b
  let i ← Wiring.ofExcept (plan.instanceOf (← get).progress.registry t b)
  modify (·.note (.received asker b))
  pure i

/-- A wiring of which the one who asks is denied the result where it fails. -/
def orDenied {α : Type} (asker : Asker) (x : Wiring α) : Wiring α :=
  x.noting fun failure => failure.map (.denied asker)

/-- The instance of the only bean that a selector finds. -/
def receiveOne (plan : Plan) (wire : Nat → Wiring Unit) (asker : Asker) (t : TypeName)
    (sel : Selector) : Wiring Instance :=
  orDenied asker do
    let found ← Wiring.ofResolving (plan.find sel)
    let b ← Wiring.ofExcept (plan.single t found)
    plan.receive wire asker t b

/-- The instances of all beans that provide a type. -/
def receiveAll (plan : Plan) (wire : Nat → Wiring Unit) (asker : Asker) (t : TypeName) :
    Wiring (List Instance) :=
  orDenied asker do
    let found ← Wiring.ofResolving (plan.find (.type t))
    found.mapM (plan.receive wire asker t)

/-! ### Injectors at work -/

/-- What an injector sees. -/
def view (plan : Plan) (a : Assembly) : View where
  beans := plan.beans.map Bean.label
  status b := if b < plan.beans.length then a.progress.registry.status b else .deleted
  exports := a.progress.registry.exports
  instance? := plan.instance? a.progress.registry
  stack := a.stack
  path := a.path plan
  history := a.progress.events
  properties := plan.properties
  cancelled := plan.cancelled

/-- Acts on a bean that the injector with `own` in hand can get hold of: lookups find no other than
settled ones. What has no place here is left to its own container. -/
def reaching (plan : Plan) (own : Nat) (act : Nat → Wiring Unit) (b : Nat) : Wiring Unit := do
  let a ← get
  if plan.beans.length ≤ b then pure ()
  else if b = own ∨ (a.progress.registry.status b).isSettled then act b
  else throw (.notResolved (plan.idOf b))

/-- Runs a procedure with the bean `own` in hand: `wire` hands beans to the injector, and `create`
creates them. -/
def runProcedure (plan : Plan) (wire create : Nat → Wiring Unit) (own : Nat) :
    Procedure → Wiring Unit
  | .done => pure ()
  | .refuse cause => throw cause
  | .look next => do runProcedure plan wire create own (next (plan.view (← get)))
  | .find sel next => do
    let found ← observe (Wiring.ofResolving (plan.find sel))
    runProcedure plan wire create own (next found)
  | .get t name next => do
    let i ← observe
      (plan.receiveOne wire (.injector own) t (name.elim (.type t) (.typedName t)))
    runProcedure plan wire create own (next i)
  | .getAll t next => do
    let is ← observe (plan.receiveAll wire (.injector own) t)
    runProcedure plan wire create own (next is)
  | .wire b next => do
    let r ← observe (plan.reaching own wire b)
    runProcedure plan wire create own (next r)
  | .create b next => do
    let r ← observe (plan.reaching own create b)
    runProcedure plan wire create own (next r)
  | .enter b next => do
    modify fun a => { a with stack := b :: a.stack }
    runProcedure plan wire create own next
  | .leave next => do
    modify fun a => { a with stack := a.stack.tail }
    runProcedure plan wire create own next
  | .keepDestroyer b next => do
    modify (·.keepDestroyer plan b)
    runProcedure plan wire create own next
  | .note entry next => do
    modify (·.note (.noted entry))
    runProcedure plan wire create own next
  | .report b next => do
    modify (·.note (.wired b))
    runProcedure plan wire create own next

/-- Hands a bean of another container to the injector. It counts as deleted and has no place here,
and as nothing of it is created here, a bean that the injector would create meanwhile is handed on. -/
def meet (plan : Plan) (wire : Nat → Wiring Unit) (s : Stranger) : Wiring Unit := do
  modify (·.note (.met s.id))
  plan.runProcedure wire wire plan.beans.length
    (plan.injector.procedure plan.beans.length s.id s.type)

/-! ### Gathering arguments -/

/-- The value of an argument. -/
def gather (plan : Plan) (wire : Nat → Wiring Unit) (asker : Asker) : Arg → Wiring Value
  | .one t => do
    let i ← plan.receiveOne wire asker t (.type t)
    pure i.brief
  | .every t => do
    let is ← plan.receiveAll wire asker t
    pure (.list (is.map Instance.brief))
  | .named t n => do
    let i ← plan.receiveOne wire asker t (.typedName t n)
    pure i.brief
  | .properties keys => pure (.list (keys.map fun k => textOrAbsent (plan.properties.get? k)))
  | .token => pure (.flag plan.cancelled)
  | .attempt arg => Wiring.attempt (gather plan wire asker arg)
  | .find sel => do
    let found ← Wiring.ofResolving (plan.find sel)
    pure (.list (found.map fun b => .text (plan.idOf b)))
  | .surroundings => do
    let path := pathText ((← get).path plan)
    pure (.list [.text path, .count plan.properties.size, .flag plan.cancelled])
  | .stranger s => do
    plan.meet wire s
    pure .absent
  | .window questions => do
    let i ← plan.receiveOne wire asker windowType (.type windowType)
    let properties := match i with
      | .window properties => properties
      | _ => .empty
    let r := (← get).progress.registry
    pure (.list (questions.map (plan.answer r properties)))

/-! ### Creating beans -/

/-- The instance of a bean that a recipe makes. -/
def build (plan : Plan) (wire : Nat → Wiring Unit) (b : Nat) (bean : Bean) (recipe : Recipe) :
    Wiring Instance := do
  let values ← recipe.args.mapM (plan.gather wire (.bean b))
  match recipe.failure with
  | some cause =>
    modify (·.note (.buildFailed b bean.type))
    throw (.instantiate bean.id cause)
  | none =>
    let serial := (← get).progress.made + 1
    modify fun a =>
      ({ a with progress := { a.progress with made := serial } }.note
        (.built b bean.type serial)).note (.instantiated b)
    pure (recipe.shape.make serial recipe.label (some values))

def obtain (plan : Plan) (wire : Nat → Wiring Unit) (b : Nat) (bean : Bean) : Wiring Instance :=
  match bean.source with
  | .object i => pure i
  | .constructor recipe => plan.build wire b bean recipe
  | .window => do
    modify (·.note (.instantiated b))
    pure (.window plan.properties)

/-- Runs the hook that follows the creation. -/
def initialise (b : Nat) (bean : Bean) (i : Instance) : Wiring Unit :=
  match bean.init with
  | none => pure ()
  | some hook => do
    modify (·.note (.initialised b bean.type i.briefText))
    match hook.failure with
    | none => pure ()
    | some cause => throw (.init bean.id cause)

/-- Builds a bean's instance, runs its hook and marks the bean as wired. -/
def create (plan : Plan) (wire : Nat → Wiring Unit) (b : Nat) : Wiring Unit :=
  match plan.beans[b]? with
  | none => pure ()
  | some bean => do
    modify (·.setStatus b .creating)
    Wiring.noting (fun failure => some (.creationEnded b failure)) do
      let i ← plan.obtain wire b bean
      initialise b bean i
      modify fun a =>
        { a with progress := { a.progress with registry := a.progress.registry.setHeld b i } }.setStatus
          b .wired

/-- Hands a bean to the injector, with `wire` for the beans that its constructor
asks for. -/
def hand (plan : Plan) (wire : Nat → Wiring Unit) (b : Nat) : Wiring Unit :=
  match plan.beans[b]? with
  | none => pure ()
  | some bean => do
    modify (·.note (.handed b))
    (plan.runProcedure wire (plan.create wire) b (plan.injector.procedure b bean.id bean.type)).noting
      fun failure => some (.answered b failure)

/-- Hands a bean to the injector, with at most `n` wirings inside one another. -/
def wire (plan : Plan) : Nat → Nat → Wiring Unit
  | 0, _ => pure ()
  | n + 1, b => plan.hand (wire plan n) b

def wireBean (plan : Plan) (b : Nat) : Wiring Unit :=
  plan.wire (plan.beans.length + 1 + plan.injector.depth) b

/-! ### Configurations -/

/-- Runs a configuration function. -/
def configure (plan : Plan) (configuration : Configuration) (c : Nat) :
    ExceptT RefreshError (StateM Assembly) Unit := do
  modify (·.note (.configurationStarted c))
  let values ←
    (configuration.args.mapM (plan.gather plan.wireBean (.configuration c))).adapt
      (RefreshError.wire configuration.title)
  modify (·.note (.noted (.configured configuration.label values)))
  match configuration.failure with
  | some cause => throw (.configuration configuration.title cause)
  | none => modify (·.note (.configurationApplied c configuration.title))

end Plan
end Inversion
