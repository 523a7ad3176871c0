/-
# Sessions

A session drives a container by requests. It numbers the instances of object
beans before they are registered, keeps the windows and tokens that were taken
from the container, also after the container is dropped, and hands out what the
tasks have recorded and logged since it was last asked.

`Session.perform` answers one request, with the events that it caused.
-/
import Inversion.Container

namespace Inversion

/-- What a bean shows of itself. -/
structure BeanReport where
  id : String
  name : Option String
  type : TypeName
  status : Status
  exports : List TypeName
  hasDestroyer : Bool
  description : String
  site : Site
  deriving DecidableEq, Repr

/-- What the tasks have recorded and logged, each sorted as text. -/
structure TaskReport where
  tasks : List String
  lines : List String
  deriving DecidableEq, Repr

inductive Request where
  | operate (operation : Operation)
  /-- Registers a bean around an instance that is made for it. -/
  | object (shape : Shape) (label : String) (bean : Source → Bean)
  | phase
  | properties
  | beans
  | instanceAt (index : Nat) (type : TypeName)
  | takeWindow
  | ask (question : Question)
  | takeToken
  | tokens
  | active
  | join
  | close
  | drop

/-- Why a request cannot be answered. -/
inductive Refusal where
  | noWindow
  | noBean
  | dropped
  deriving DecidableEq, Repr

inductive Reply where
  | refused (refusal : Refusal)
  | answer (answer : Answer)
  | ids (ids : List String)
  | flag (b : Bool)
  | flags (bs : List Bool)
  | count (n : Nat)
  | entries (entries : List (String × String))
  | beans (reports : List BeanReport)
  | seen (i : Option Instance)
  | value (v : Value)
  | joined (done : Bool) (report : TaskReport)
  | closed (active : Nat) (cancelled : Bool) (report : TaskReport)

structure Session where
  container : Container
  dropped : Bool
  /-- The properties of the window that was taken last. -/
  window : Option Properties
  /-- The number of tokens taken. -/
  tokens : Nat

namespace Session

def start (injector : Injector) (compositions : Compositions) : Session :=
  ⟨.empty injector compositions, false, none, 0⟩

def report (c : Container) (b : Nat) (bean : Bean) : BeanReport where
  id := bean.id
  name := bean.name
  type := bean.type
  status := c.registry.status b
  exports := c.registry.exports b
  hasDestroyer := bean.destroy.isSome
  description := bean.description
  site := bean.site

/-- What the tasks have left, and the container without it. -/
def collect (c : Container) : TaskReport × Container :=
  let sorted (texts : List String) : List String := texts.mergeSort fun a b => a ≤ b
  (⟨sorted c.supervisor.records, sorted c.supervisor.lines⟩,
    { c with supervisor := { c.supervisor with records := [], lines := [] } })

/-- What a window shows of a container that was dropped: no bean, and a cancelled
context. -/
def vacant : Plan × Registry :=
  (⟨[], .empty, ⟨[]⟩, .standard, true⟩, .ofBeans [])

def answer (s : Session) (question : Question) (properties : Properties) : Value :=
  if s.dropped then
    let (plan, registry) := vacant
    plan.answer registry properties question
  else s.container.plan.answer s.container.registry properties question

def register (shape : Shape) (label : String) (bean : Source → Bean) (c : Container) :
    Answer × Container :=
  let serial := c.progress.made + 1
  let c := { c with progress := { c.progress with made := serial } }
  c.perform (.register (bean (.object (shape.make serial label none))))

/-- Answers a request while the container is there. -/
def performLive (request : Request) (s : Session) : Reply × Session :=
  let c := s.container
  match request with
  | .operate operation =>
    match c.perform operation with
    | (.beans places, c) => (.ids (places.map c.plan.idOf), { s with container := c })
    | (answer, c) => (.answer answer, { s with container := c })
  | .object shape label bean =>
    let (answer, c) := register shape label bean c
    (.answer answer, { s with container := c })
  | .phase => (.answer (.text c.phase.name), s)
  | .properties => (.entries c.properties.entries, s)
  | .beans => (.beans (c.beans.zipIdx.map fun (bean, b) => report c b bean), s)
  | .instanceAt index type =>
    if index < c.beans.length then (.seen (c.plan.instance? c.registry index type), s)
    else (.refused .noBean, s)
  | .takeWindow =>
    match c.perform (.get windowType) with
    | (.one (.window properties), c) =>
      (.answer .done, { s with container := c, window := some properties })
    | (answer, c) => (.answer answer, { s with container := c })
  | .ask question =>
    match s.window with
    | none => (.refused .noWindow, s)
    | some properties => (.value (s.answer question properties), s)
  | .takeToken => (.flag c.supervisor.cancelled, { s with tokens := s.tokens + 1 })
  | .tokens => (.flags (List.replicate s.tokens c.supervisor.cancelled), s)
  | .active => (.count c.supervisor.active, s)
  | .join =>
    let done := c.supervisor.active = 0
    let (report, c) := collect c
    (.joined done report, { s with container := c })
  | .close =>
    match c.perform .close with
    | (.done, c) =>
      let (report, c) := collect c
      (.closed c.supervisor.active c.supervisor.cancelled report, { s with container := c })
    | (answer, c) => (.answer answer, { s with container := c })
  | .drop => (.answer .done, { s with container := c.cancel, dropped := true })

/-- Answers a request after the container was dropped. -/
def performDropped (request : Request) (s : Session) : Reply × Session :=
  match request with
  | .drop => (.answer .done, s)
  | .tokens => (.flags (List.replicate s.tokens true), s)
  | .ask question =>
    match s.window with
    | none => (.refused .noWindow, s)
    | some properties => (.value (s.answer question properties), s)
  | _ => (.refused .dropped, s)

/-- Answers a request, with the events that it caused in their order. -/
def perform (request : Request) (s : Session) : Reply × List Event × Session :=
  let (reply, t) := if s.dropped then s.performDropped request else s.performLive request
  let before := s.container.progress.history.length
  let after := t.container.progress.history
  (reply, ((after.take (after.length - before)).map (·.event)).reverse, t)

end Session
end Inversion
