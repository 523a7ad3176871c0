/-
# What happens in a container

What happens in a container is told by events. Some of them are lines of its
log, some are entries of the journal that conditions, constructors, hooks and
configurations write, and the others are the steps in between: a bean's status
changes, a composition is walked, a bean is handed to the injector and the
injector answers, or an instance reaches the one who asked for it.
-/
import Inversion.Selector
import Inversion.Value

namespace Inversion

/-- How far a bean has come. -/
inductive Status where
  | fresh
  | resolving
  | resolved
  | creating
  | wired
  | deleted
  deriving DecidableEq, Repr, Inhabited

/-- Resolved, and not deleted. -/
def Status.isSettled : Status → Bool
  | resolved | creating | wired => true
  | fresh | resolving | deleted => false

def Status.name : Status → String
  | fresh => "Default"
  | resolving => "Resolving"
  | resolved => "Resolved"
  | creating => "Creating"
  | wired => "Wired"
  | deleted => "Deleted"

/-- Who asks for a bean: the constructor of a bean, a configuration, or the injector with a bean in
hand. -/
inductive Asker where
  | bean (b : Nat)
  | configuration (c : Nat)
  | injector (b : Nat)
  deriving DecidableEq, Repr

/-- The parts of conditions that look at something. -/
inductive Test where
  | property (key : String)
  | beans (selector : Selector)
  | probe
  deriving DecidableEq, Repr

/-- An entry of the journal. -/
inductive Entry where
  | text (s : String)
  | found (text : String) (ids : List String)
  | configured (label : String) (values : List Value)

inductive Event where
  | status (b : Nat) (status : Status)
  | test (test : Test)
  | noted (entry : Entry)
  | walked (b : Nat)
  | indexedByType (id : String) (type : TypeName)
  | indexedByName (id : String) (name : String)
  | skipped (id : String) (selector : Selector)
  /-- A lookup has found its answer; the beans `away` were being resolved when it
  began. -/
  | lookedUp (selector : Selector) (away found : List Nat)
  | deleted (id : String)
  /-- The resolution of a bean has failed, which leaves it being resolved. -/
  | unresolved (b : Nat) (cause : ResolveError)
  | beansResolved
  | configurationSkipped (c : Nat) (name : String)
  | configurationStarted (c : Nat)
  | handed (b : Nat)
  /-- A bean of another container is handed to the injector. -/
  | met (id : String)
  /-- The injector is done with the bean, or has failed on it. -/
  | answered (b : Nat) (failure : Option WireError)
  | received (asker : Asker) (b : Nat)
  | denied (asker : Asker) (cause : WireError)
  | built (b : Nat) (type : TypeName) (serial : Nat)
  | buildFailed (b : Nat) (type : TypeName)
  | instantiated (b : Nat)
  | initialised (b : Nat) (type : TypeName) (brief : String)
  | creationEnded (b : Nat) (failure : Option WireError)
  | wired (b : Nat)
  | configurationApplied (c : Nat) (name : String)
  | configurationsApplied
  | wiringInterrupted (path : String)
  | beansWired
  | refreshed
  | refreshFailed (message : String)
  | tasksExited
  | teardown (b : Nat) (type : TypeName) (brief : String)
  | destroyed (id : String)
  | destroyFailed (id : String) (message : String)
  | closed
  | taskSpawned (task : Nat)
  | propertiesLoaded (path : String)

namespace Event

/-- The line of the log, for the events that have one. -/
def line? : Event → Option String
  | indexedByType id type => some ("DEBUG Indexed by type bean=" ++ id ++ " type=" ++ type.name)
  | indexedByName id name => some ("DEBUG Indexed by name bean=" ++ id ++ " name=" ++ name)
  | skipped id selector =>
    some ("DEBUG Bean is being resolved, skipped bean=" ++ id ++ " selector=" ++ selector.display)
  | deleted id => some ("DEBUG Condition not matched, bean deleted bean=" ++ id)
  | beansResolved => some "DEBUG Beans resolved"
  | configurationSkipped _ name =>
    some ("DEBUG Condition not matched, configuration skipped config=" ++ name)
  | instantiated _ => some "DEBUG Instantiated"
  | wired _ => some "DEBUG Wired"
  | configurationApplied _ name => some ("DEBUG Configuration applied config=" ++ name)
  | configurationsApplied => some "DEBUG Configurations applied"
  | wiringInterrupted path => some ("ERROR Wiring interrupted path=" ++ path)
  | beansWired => some "DEBUG Beans wired"
  | refreshed => some "INFO Container refreshed"
  | refreshFailed message => some ("ERROR Refresh failed err=" ++ message)
  | tasksExited => some "INFO Background tasks exited"
  | destroyed id => some ("DEBUG Destroyed bean=" ++ id)
  | destroyFailed id message => some ("ERROR Destroy failed bean=" ++ id ++ " err=" ++ message)
  | closed => some "INFO Container closed"
  | taskSpawned task => some ("DEBUG Task spawned task=" ++ toString task)
  | propertiesLoaded path => some ("DEBUG Properties loaded path=" ++ path)
  | _ => none

/-- The entry of the journal, for the events that have one. -/
def entry? : Event → Option Entry
  | noted entry => some entry
  | built _ type serial => some (.text ("build " ++ type.name ++ " " ++ toString serial))
  | buildFailed _ type => some (.text ("fail " ++ type.name))
  | initialised _ type brief => some (.text ("init " ++ type.name ++ " " ++ brief))
  | teardown _ type brief => some (.text ("destroy " ++ type.name ++ " " ++ brief))
  | _ => none

end Event
end Inversion
