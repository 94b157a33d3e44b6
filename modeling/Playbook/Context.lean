import Playbook.Flags
import Playbook.Script
import Playbook.Table

/-! The state of one run of a script.

A context owns a sequence of actions, a cursor into it, and memory. Its sequence is either that of
a script or one that was rented from the pool. -/

namespace Playbook

abbrev ContextId := Nat

def contextText (id : ContextId) : String := "ctx#" ++ Number.natText id

structure Continuation where
  start : Nat
  stop : Nat
  remaining : Nat
  interval : Nat
  deriving DecidableEq, Repr

inductive Memo where
  | target (a : Action)
  | int (i : Int64)
  | text (s : String)

inductive Sequence where
  | shared (actions : List Action)
  | rented (actions : List Action)

def Sequence.actions : Sequence → List Action
  | .shared as => as
  | .rented as => as

structure Context where
  id : ContextId
  parent : Option ContextId
  script : String
  registry : Registry
  sequence : Sequence
  index : Nat
  current : Option Action
  previous : Option Action
  next : Option Action
  actor : Option ActorId
  memory : Table Value
  /-- The variables of the parent at the time this context was made. -/
  inherited : Table Value
  metadata : Table Memo
  continuation : Option Continuation
  disposed : Bool

namespace Context

def fresh (id : ContextId) (script : String) (registry : Registry) (sequence : Sequence)
    (actor : Option ActorId) : Context :=
  { id, parent := none, script, registry, sequence, index := 0, current := none,
    previous := none, next := none, actor, memory := .empty, inherited := .empty,
    metadata := .empty, continuation := none, disposed := false }

/-- A context that runs a rented sequence on behalf of `c`. It starts with the variables of `c` to
fall back on, and never writes to them. -/
def child (c : Context) (id : ContextId) (actions : List Action) : Context :=
  { fresh id c.script c.registry (.rented actions) c.actor with
    parent := some c.id, inherited := c.inherited.overlay c.memory }

def actions (c : Context) : List Action := c.sequence.actions

def len (c : Context) : Nat := c.actions.length

def isFinished (c : Context) : Bool := c.len ≤ c.index

def isSuspended (c : Context) : Bool := c.continuation.isSome

def currentId (c : Context) : String :=
  match c.current with
  | some a => a.id
  | none => ""

def outOfBounds (c : Context) (target : Nat) : RuntimeError := .bounds c.currentId target c.len

def setIndex (c : Context) (index : Nat) : Except RuntimeError Context :=
  if c.len < index then .error (c.outOfBounds index) else .ok { c with index }

def sync (c : Context) : Context :=
  { c with
    current := c.actions[c.index]?
    previous := if c.index = 0 then none else c.actions[c.index - 1]?
    next := c.actions[c.index + 1]? }

/-- A variable of this context, else of the parent's as they were. -/
def lookup (c : Context) (name : String) : Option Value :=
  (c.memory.get? name).or (c.inherited.get? name)

def setVariable (c : Context) (name : String) (v : Value) : Context :=
  { c with memory := c.memory.set name v }

def removeVariable (c : Context) (name : String) : Context :=
  { c with memory := c.memory.erase name }

def outputName (c : Context) : String :=
  match c.current with
  | some a => a.output.getD "result"
  | none => "result"

def setResult (c : Context) (v : Value) : Context := c.setVariable c.outputName v

def readSlot (c : Context) (slot : Nat) : Reading RuntimeError Value :=
  match c.current with
  | none => .fail .noCurrentAction
  | some a =>
    match a.slots[slot]? with
    | none => .fail (.slotOutOfRange a.id slot)
    | some s => s.read c.lookup

def get (c : Context) (name : String) : Except RuntimeError Value :=
  match c.lookup name with
  | some v => .ok v
  | none => .error (.undefinedVariable name)

/-- Starts over for an actor. Metadata stays. -/
def reset (c : Context) (actor : Option ActorId) : Context :=
  { c with index := 0, actor, memory := .empty, continuation := none }.sync

def suspend (c : Context) (k : Continuation) : Context := { c with continuation := some k }

def released (c : Context) : Context :=
  { c with
    disposed := true, memory := .empty, metadata := .empty, inherited := .empty,
    continuation := none, current := none, previous := none, next := none,
    sequence := .shared [], index := 0 }

def inspect (c : Context) : String :=
  let memory := c.memory.sorted.map fun e => Text.escaped e.1 ++ ": " ++ e.2.inspect
  Text.record "Context"
    [("id", "ContextId(" ++ toString c.id ++ ")"), ("script", Text.escaped c.script),
     ("index", toString c.index), ("len", toString c.len), ("actor", inspectActor c.actor),
     ("memory", "\x7b" ++ String.intercalate ", " memory ++ "\x7d"),
     ("parent", Text.optional (c.parent.map fun p => "ContextId(" ++ toString p ++ ")")),
     ("disposed", toString c.disposed)] true

end Context

end Playbook
