/-
# The container

A container goes through three phases. Before it is refreshed, beans,
configurations and properties are registered. A refresh, which can be asked for
once, freezes them, and from then on beans can be looked up; once it has
completed, instances can be fetched and the container can be closed. An
operation in the wrong phase panics and changes nothing.

`Container.perform` runs one operation on a container.
-/
import Inversion.Properties.Source
import Inversion.Refresh
import Inversion.Supervisor.Closing

namespace Inversion

inductive Phase where
  | unrefreshed
  | refreshing
  | refreshed
  deriving DecidableEq, Repr, Inhabited

def Phase.name : Phase → String
  | unrefreshed => "unrefreshed"
  | refreshing => "refreshing"
  | refreshed => "refreshed"

/-- Why an operation is not carried out, or a refresh is broken off. -/
inductive Panic where
  | tooLate (operation : String) (phase : Phase)
  | tooEarly (operation : String) (phase : Phase)
  | notRefreshed (operation : String) (phase : Phase)
  | alreadyBegun (phase : Phase)
  | duplicate (first second : String)
  | fatal (cause : ResolveError)
  deriving DecidableEq, Repr

namespace Panic

def message : Panic → String
  | tooLate operation phase =>
    "`" ++ operation ++ "` should be called before refreshing, container is " ++ phase.name
  | tooEarly operation phase =>
    "`" ++ operation ++ "` should be called after refreshing began, container is " ++ phase.name
  | notRefreshed operation phase =>
    "`" ++ operation ++ "` should be called after refresh, container is " ++ phase.name
  | alreadyBegun phase => "container already " ++ phase.name
  | duplicate first second => "found duplicate beans [" ++ first ++ "] [" ++ second ++ "]"
  | fatal cause => cause.message

end Panic

structure Container where
  phase : Phase
  properties : Properties
  compositions : Compositions
  injector : Injector
  /-- The registered beans, up to the refresh. -/
  pending : List Bean
  configurations : List Configuration
  /-- The registered beans, from the refresh on. -/
  beans : List Bean
  progress : Progress
  /-- The beans whose destroyers are still to run, in their order. -/
  destroyers : List Nat
  supervisor : Supervisor

namespace Container

def empty (injector : Injector) (compositions : Compositions) : Container where
  phase := .unrefreshed
  properties := .empty
  compositions := compositions
  injector := injector
  pending := []
  configurations := []
  beans := []
  progress := ⟨⟨[], [], [], []⟩, 0, []⟩
  destroyers := []
  supervisor := .start

instance : Inhabited Container :=
  ⟨empty .standard ⟨[]⟩⟩

def plan (c : Container) : Plan :=
  ⟨c.beans, c.properties, c.compositions, c.injector, c.supervisor.cancelled⟩

def registry (c : Container) : Registry :=
  c.progress.registry

def note (e : Event) (c : Container) : Container :=
  { c with progress := c.progress.note e }

/-! ### Registration -/

def register (bean : Bean) (c : Container) : Except Panic String × Container :=
  match c.phase with
  | .unrefreshed => (.ok bean.id, { c with pending := c.pending ++ [bean] })
  | phase => (.error (.tooLate "register" phase), c)

def configure (configuration : Configuration) (c : Container) : Except Panic Unit × Container :=
  match c.phase with
  | .unrefreshed => (.ok (), { c with configurations := c.configurations ++ [configuration] })
  | phase => (.error (.tooLate "config" phase), c)

/-- Sets a property, with the stored text for the result. -/
def setProperty (key : String) (setting : Setting) (c : Container) :
    Except Panic String × Container :=
  match c.phase with
  | .unrefreshed =>
    (.ok setting.stored, { c with properties := c.properties.insert key setting.stored })
  | phase => (.error (.tooLate "property" phase), c)

def load (file : String) (content : FileContent) (c : Container) :
    Except Panic (Except LoadError Unit) × Container :=
  match c.phase with
  | .unrefreshed =>
    match c.properties.loadFile file content with
    | (.ok (), properties) => (.ok (.ok ()), { c with properties }.note (.propertiesLoaded file))
    | (.error e, properties) => (.ok (.error e), { c with properties })
  | phase => (.error (.tooLate "load" phase), c)

/-! ### Refresh -/

/-- The container with its beans enrolled up to the first whose identity is
taken, and the panic in that case. -/
def freeze (c : Container) : Option Panic × Container :=
  let (beans, clash) := enroll [] c.pending
  let frozen := { c with
    phase := .refreshing
    pending := []
    beans
    progress := { c.progress with registry := Registry.ofBeans beans } }
  (clash.map fun (a, b) => .duplicate a.description b.description, frozen)

/-- What a refresh of a frozen container comes to. -/
def complete (c : Container) : Except Panic (Except RefreshError Unit) × Container :=
  let (result, a) := ((c.plan.refresh c.configurations).run).run (.start c.progress)
  let c := { c with configurations := [], progress := a.progress }
  match result with
  | .ok destroyers => (.ok (.ok ()), { c with phase := .refreshed, destroyers }.note .refreshed)
  | .error e =>
    match e with
    | .resolve cause =>
      if cause.isFatal then (.error (.fatal cause), c)
      else (.ok (.error e), c.note (.refreshFailed e.message))
    | _ => (.ok (.error e), c.note (.refreshFailed e.message))

def refresh (c : Container) : Except Panic (Except RefreshError Unit) × Container :=
  match c.phase with
  | .unrefreshed =>
    match c.freeze with
    | (some panic, c) => (.error panic, c)
    | (none, c) => c.complete
  | phase => (.error (.alreadyBegun phase), c)

/-! ### Lookups -/

/-- The beans that match, from the indices once the container is refreshed. -/
def find (sel : Selector) (c : Container) :
    Except Panic (Except ResolveError (List Nat)) × Container :=
  match c.phase with
  | .unrefreshed => (.error (.tooEarly "find" .unrefreshed), c)
  | .refreshing =>
    let (result, progress) := ((c.plan.find sel).run).run c.progress
    (.ok result, { c with progress })
  | .refreshed => (.ok (.ok (c.plan.lookup c.registry sel)), c)

def whenRefreshed {α : Type} (operation : String) (c : Container) (f : Unit → α) : Except Panic α :=
  match c.phase with
  | .refreshed => .ok (f ())
  | phase => .error (.notRefreshed operation phase)

def get (t : TypeName) (c : Container) : Except Panic (Except WireError Instance) :=
  c.whenRefreshed "get" fun () =>
    c.plan.singleInstance c.registry t (c.plan.lookup c.registry (.type t))

def getNamed (t : TypeName) (name : String) (c : Container) :
    Except Panic (Except WireError Instance) :=
  c.whenRefreshed "get_named" fun () =>
    c.plan.singleInstance c.registry t (c.plan.lookup c.registry (.typedName t name))

def getAll (t : TypeName) (c : Container) : Except Panic (Except WireError (List Instance)) :=
  c.whenRefreshed "get_all" fun () =>
    c.plan.allInstances c.registry t (c.plan.lookup c.registry (.type t))

/-! ### Tasks and the end -/

def spawn (script : Script) (c : Container) : Container :=
  { c with supervisor := c.supervisor.spawn script }.note
    (.taskSpawned c.supervisor.threads.length)

def cancel (c : Container) : Container :=
  { c with supervisor := c.supervisor.cancel }

/-- Waits for all tasks, then runs the destroyers that have not run yet. -/
def close (c : Container) : Except Panic Unit × Container :=
  match c.phase with
  | .refreshed =>
    let c := { c with supervisor := c.supervisor.shutDown }.note .tasksExited
    let torn := c.destroyers.foldl c.plan.tearDown c.progress
    (.ok (), { c with destroyers := [], progress := torn }.note .closed)
  | phase => (.error (.notRefreshed "close" phase), c)

end Container

/-! ### Operations -/

inductive Operation where
  | register (bean : Bean)
  | configure (configuration : Configuration)
  | setProperty (key : String) (setting : Setting)
  | load (file : String) (content : FileContent)
  | refresh
  | find (selector : Selector)
  | get (type : TypeName)
  | getNamed (type : TypeName) (name : String)
  | getAll (type : TypeName)
  | spawn (script : Script)
  | cancel
  | close

/-- What an operation answers. -/
inductive Answer where
  | panicked (panic : Panic)
  | done
  | text (s : String)
  | beans (places : List Nat)
  | one (i : Instance)
  | many (is : List Instance)
  | loadFailed (cause : LoadError)
  | refreshFailed (cause : RefreshError)
  | resolveFailed (cause : ResolveError)
  | wireFailed (cause : WireError)

namespace Answer

def ofExcept {α : Type} (f : α → Answer) : Except Panic α → Answer
  | .ok a => f a
  | .error panic => .panicked panic

def ofResult {ε α : Type} (failed : ε → Answer) (f : α → Answer) : Except Panic (Except ε α) → Answer
  | .ok (.ok a) => f a
  | .ok (.error e) => failed e
  | .error panic => .panicked panic

end Answer

def Container.perform (operation : Operation) (c : Container) : Answer × Container :=
  match operation with
  | .register bean => (c.register bean).map (.ofExcept .text) id
  | .configure configuration => (c.configure configuration).map (.ofExcept fun _ => .done) id
  | .setProperty key setting => (c.setProperty key setting).map (.ofExcept .text) id
  | .load file content => (c.load file content).map (.ofResult .loadFailed fun _ => .done) id
  | .refresh => c.refresh.map (.ofResult .refreshFailed fun _ => .done) id
  | .find selector => (c.find selector).map (.ofResult .resolveFailed .beans) id
  | .get type => (.ofResult .wireFailed .one (c.get type), c)
  | .getNamed type name => (.ofResult .wireFailed .one (c.getNamed type name), c)
  | .getAll type => (.ofResult .wireFailed .many (c.getAll type), c)
  | .spawn script => (.done, c.spawn script)
  | .cancel => (.done, c.cancel)
  | .close => c.close.map (.ofExcept fun _ => .done) id

/-- The answers to a list of operations, and the container behind them. -/
def Container.performAll : List Operation → Container → List Answer × Container
  | [], c => ([], c)
  | op :: ops, c =>
    let (answer, c) := c.perform op
    let (answers, c) := c.performAll ops
    (answer :: answers, c)

end Inversion
