/-
# What can go wrong in a container

Each error names its cause; `message` puts it into words.

A condition may fail by itself, or because a lookup that it made failed, and
either can stand inside a context that replaces its words. An error of resolution
is fatal if the declared beans themselves are wrong: a type is exported but not
implemented, or a composition is invalid. A condition's failure is fatal if it
comes from such an error, however deep.
-/
import Inversion.Composition
import Inversion.Precedence

namespace Inversion

mutual
/-- Why a condition has no answer. -/
inductive Fault where
  | text (message : String)
  | lookup (cause : ResolveError)
  | context (message : String) (cause : Fault)

/-- Why a bean cannot be resolved. -/
inductive ResolveError where
  | condition (bean : String) (cause : Fault)
  | notImplemented (bean : String) (interface : TypeName)
  | export (bean : String) (cause : ExportError)
end

deriving instance DecidableEq for Fault, ResolveError
deriving instance Repr for Fault, ResolveError

mutual
def Fault.message : Fault → String
  | .text message => message
  | .lookup cause => cause.message
  | .context message _ => message

def ResolveError.message : ResolveError → String
  | .condition bean cause => "Condition of " ++ bean ++ " failed: " ++ cause.message
  | .notImplemented bean interface =>
    bean ++ " does not implement " ++ interface.name ++ " interface"
  | .export bean cause => "Auto export of " ++ bean ++ " failed: " ++ cause.message
end

mutual
/-- Whether a failure comes from a fatal error of resolution. -/
def Fault.isFatal : Fault → Bool
  | .text _ => false
  | .lookup cause => cause.isFatal
  | .context _ cause => cause.isFatal

def ResolveError.isFatal : ResolveError → Bool
  | .condition _ cause => cause.isFatal
  | .notImplemented _ _ => true
  | .export _ _ => true
end

/-- Why a bean cannot be wired, or a lookup has no single answer. -/
inductive WireError where
  | noBean (type : TypeName)
  | ambiguous (type : TypeName) (candidates : List String)
  | cycle (path : List String)
  | notResolved (bean : String)
  | notWired (bean : String)
  | incorrectType (bean : String) (expected : TypeName)
  | instantiate (bean : String) (cause : String)
  | init (bean : String) (cause : String)
  | resolve (cause : ResolveError)
  deriving DecidableEq, Repr

/-- A path of beans, outermost first. -/
def pathText (ids : List String) : String :=
  " => ".intercalate ids

def WireError.message : WireError → String
  | noBean type => "No bean of type " ++ type.name ++ " found"
  | ambiguous type candidates =>
    "Found " ++ toString candidates.length ++ " beans of type " ++ type.name ++ ": " ++
      ", ".intercalate candidates
  | cycle path => "Found cyclic dependency: " ++ pathText path
  | notResolved bean => bean ++ " isn't resolved"
  | notWired bean => bean ++ " isn't wired"
  | incorrectType bean expected => bean ++ " can't be used as " ++ expected.name
  | instantiate bean cause => "Instantiate " ++ bean ++ " failed: " ++ cause
  | init bean cause => "Init " ++ bean ++ " failed: " ++ cause
  | resolve cause => cause.message

/-- Why a refresh did not complete. -/
inductive RefreshError where
  | resolve (cause : ResolveError)
  | sort (cause : SortError)
  | configuration (name : String) (cause : String)
  | wire (path : String) (cause : WireError)
  deriving DecidableEq, Repr

def RefreshError.message : RefreshError → String
  | resolve cause => cause.message
  | sort cause => "Ordering failed: " ++ cause.message
  | configuration name cause => "Configuration " ++ name ++ " failed: " ++ cause
  | wire path cause => "Wiring failed at " ++ path ++ ": " ++ cause.message

end Inversion
