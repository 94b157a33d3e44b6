/-! What can go wrong: causes as data, wording in one place per kind of error. -/

namespace Playbook

inductive RegistryError where
  | duplicateId (id : String)
  | notFound (id : String)
  | alreadyInstalled
  | requiredAfterOptional (action param : String)
  deriving DecidableEq, Repr

def RegistryError.message : RegistryError → String
  | .duplicateId id => s!"action '{id}' is already registered"
  | .notFound id => s!"no action registered with id '{id}'"
  | .alreadyInstalled => "a global registry has already been installed"
  | .requiredAfterOptional action param =>
    s!"action '{action}': required parameter '{param}' follows an optional one"

inductive CompileFault where
  | unknownAction (id : String)
  | invalidLiteral (action : String) (slot : Nat) (param text reason : String)
  | missingArgument (action : String) (slot : Nat) (param : String)
  | tooManyArguments (action : String) (expected found : Nat)
  | unterminatedQuote
  | invalidSection (text : String)
  | duplicateSection (name : String)
  | invalidVariable (text : String)
  | invalidOutput
  deriving DecidableEq, Repr

def CompileFault.message : CompileFault → String
  | .unknownAction id => s!"unknown action '{id}'"
  | .invalidLiteral action slot param text reason =>
    s!"{action} argument {slot} ({param}) cannot parse '{text}': {reason}"
  | .missingArgument action slot param => s!"{action} is missing argument {slot} ({param})"
  | .tooManyArguments action expected found =>
    s!"{action} takes {expected} argument(s), got {found}"
  | .unterminatedQuote => "unterminated quoted argument"
  | .invalidSection text => s!"invalid section header '{text}'"
  | .duplicateSection name => s!"section '{name}' is declared twice"
  | .invalidVariable text => s!"invalid variable reference '{text}'"
  | .invalidOutput => "'->' must be followed by exactly one $variable"

/-- A fault with the unit and the line it was found in. Lines count from 1; actions that are not
written in a source have line 0. -/
structure CompileError where
  unit : String
  line : Nat
  fault : CompileFault
  deriving DecidableEq, Repr

def CompileError.message (e : CompileError) : String :=
  e.unit ++ ":" ++ toString e.line ++ ": " ++ e.fault.message

inductive RuntimeError where
  | undefinedVariable (name : String)
  | type (expected found detail : String)
  | dispatch (action message : String)
  | bounds (action : String) (target len : Nat)
  | insufficientElements (requested available : Nat)
  | invalidRange (min max : String)
  | emptyCollection
  | noCurrentAction
  | slotOutOfRange (action : String) (slot : Nat)
  | metadata (key : String)
  | registry (e : RegistryError)
  | compile (e : CompileError)
  deriving DecidableEq, Repr

def RuntimeError.message : RuntimeError → String
  | .undefinedVariable name => s!"variable '{name}' is not defined"
  | .type expected found detail => s!"expected {expected}, found {found} ({detail})"
  | .dispatch action message => s!"action '{action}' panicked: {message}"
  | .bounds action target len =>
    s!"action '{action}' targets index {target} outside a sequence of {len}"
  | .insufficientElements requested available =>
    s!"cannot select {requested} distinct element(s) from {available}"
  | .invalidRange min max => s!"invalid range {min}..={max}"
  | .emptyCollection => "cannot select from an empty collection"
  | .noCurrentAction => "no action is currently being dispatched"
  | .slotOutOfRange action slot => s!"action '{action}' has no argument slot {slot}"
  | .metadata key => s!"metadata '{key}' holds a value of a different type"
  | .registry e => e.message
  | .compile e => e.message

end Playbook
