import Playbook.Log
import Playbook.Param

/-! The catalogue of actions.

A definition says what an action is called, which arguments it takes and how it behaves. A
registry holds definitions with distinct ids, in the order in which they were registered. -/

namespace Playbook

inductive Builtin where
  | stop
  | stopIf
  | ifBlock
  | repeatBlock
  | forActor
  | forEach
  | randomInt
  | randomFloat
  | randomElement
  | selectDistinct
  | isEqualTo
  | negate
  | store
  | log
  deriving DecidableEq, Repr

/-- How an action behaves when it is dispatched: like a built-in, like the host's handler of the
given name, or by doing nothing. -/
inductive Behaviour where
  | builtin (b : Builtin)
  | host (name : String)
  | idle
  deriving DecidableEq, Repr

structure Definition where
  id : String
  description : String
  params : List ParamSpec
  variadic : Bool
  behaviour : Behaviour

namespace Definition

def flagBits (d : Definition) : Nat := if d.variadic then 1 else 0

def inspect (d : Definition) : String :=
  Text.record "ActionDefinition"
    [("id", Text.escaped d.id), ("params", Text.bracketed (d.params.map ParamSpec.inspect)),
     ("flags", "ActionFlags(" ++ (if d.variadic then "VARIADIC" else "0x0") ++ ")")] true

def misplaced : List ParamSpec → Option ParamSpec
  | [] => none
  | p :: ps => if p.isOptional then ps.find? fun q => !q.isOptional else misplaced ps

def numbered (params : List ParamSpec) : List ParamSpec :=
  params.mapIdx fun i p => { p with index := i }

end Definition

structure Registry where
  definitions : List Definition

namespace Registry

def empty : Registry := { definitions := [] }

def find? (r : Registry) (id : String) : Option Definition :=
  r.definitions.find? fun d => d.id == id

def lookup (r : Registry) (id : String) : Except RegistryError Definition :=
  match r.find? id with
  | some d => .ok d
  | none => .error (.notFound id)

def contains (r : Registry) (id : String) : Bool := (r.find? id).isSome

def ids (r : Registry) : List String :=
  (r.definitions.map Definition.id).mergeSort fun a b => decide (a ≤ b)

def size (r : Registry) : Nat := r.definitions.length

/-- Adds a definition. An id that is taken is refused first, then a required parameter behind an
optional one. -/
def register (r : Registry) (d : Definition) : Except RegistryError Registry :=
  if r.contains d.id then .error (.duplicateId d.id)
  else match Definition.misplaced d.params with
    | some p => .error (.requiredAfterOptional d.id p.name)
    | none =>
      .ok { definitions := r.definitions ++ [{ d with params := Definition.numbered d.params }] }

end Registry

structure Builder where
  registry : Registry
  log : List LogEntry

namespace Builder

def empty : Builder := { registry := .empty, log := [] }

def register (b : Builder) (d : Definition) : Except RegistryError Unit × Builder :=
  match b.registry.register d with
  | .error e => (.error e, b)
  | .ok r =>
    let entry := LogEntry.debug
      ("Registering action: " ++ d.id ++ " (" ++ toString d.params.length ++ " params)")
    (.ok (), { registry := r, log := b.log ++ [entry] })

def registerAll (b : Builder) : List Definition → Except RegistryError Unit × Builder
  | [] => (.ok (), b)
  | d :: ds =>
    match b.register d with
    | (.ok _, b) => b.registerAll ds
    | (.error e, b) => (.error e, b)

end Builder

/-- The place for the registry of the whole process, which takes one registry and keeps it. -/
structure Registry.Installation where
  registry? : Option Registry

namespace Registry.Installation

def empty : Installation := { registry? := none }

def install (i : Installation) (r : Registry) : Except RegistryError Registry × Installation :=
  match i.registry? with
  | some _ => (.error .alreadyInstalled, i)
  | none => (.ok r, { registry? := some r })

end Registry.Installation

end Playbook
