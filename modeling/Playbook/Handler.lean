import Playbook.World

/-! Handlers as programs.

A handler is what happens when an action is dispatched. It looks at its context, changes it through
a fixed set of effects, may run blocks of its own sequence and may run a target action for actors,
and in the end answers, fails or panics. Programs are data, so a statement about every handler is
one about every program. -/

namespace Playbook

inductive Effect where
  | setIndex (index : Nat)
  | setVariable (name : String) (v : Value)
  | removeVariable (name : String)
  | setActor (actor : Option ActorId)
  | suspend (k : Continuation)
  | remember (key : String) (m : Memo)
  | reset (actor : Option ActorId)
  | dispose
  | cancel
  | revoke (id : ContextId)
  | readSlot (slot : Nat)
  | compile (id : String) (args : List Token)
  | log (entry : LogEntry)
  | note (values : List Value)
  | throwDice
  | throwFloat (low high : Float)
  | newObject

def Effect.Answer : Effect → Type
  | .setIndex _ => Except RuntimeError PUnit
  | .removeVariable _ => Option Value
  | .dispose => Bool
  | .readSlot _ => Except RuntimeError Value
  | .compile _ _ => Except CompileError Action
  | .throwDice => Nat
  | .throwFloat _ _ => Except String Float
  | .newObject => Handle
  | _ => PUnit

inductive Prog (α : Type) where
  | done (a : α)
  | fail (e : RuntimeError)
  | panic (message : String)
  | look (next : Context → Prog α)
  | perform (e : Effect) (next : e.Answer → Prog α)
  | block (start stop : Nat) (next : Except RuntimeError (Option Flags) → Prog α)
  /-- Runs an action once for each actor, in a context of its own. -/
  | each (target : Action) (actors : List ActorId) (next : Prog α)

namespace Prog

variable {α β : Type}

def bind : Prog α → (α → Prog β) → Prog β
  | .done a, f => f a
  | .fail e, _ => .fail e
  | .panic m, _ => .panic m
  | .look next, f => .look fun c => (next c).bind f
  | .perform e next, f => .perform e fun r => (next r).bind f
  | .block start stop next, f => .block start stop fun r => (next r).bind f
  | .each target actors next, f => .each target actors (next.bind f)

instance : Monad Prog where
  pure := .done
  bind := bind

def ofExcept (r : Except RuntimeError α) : Prog α :=
  match r with
  | .ok a => .done a
  | .error e => .fail e

def context : Prog Context := .look .done

def argument (slot : Nat) : Prog Value := .perform (.readSlot slot) ofExcept

def argumentAs (slot : Nat) (read : Value → Except RuntimeError α) : Prog α := do
  let v ← argument slot
  ofExcept (read v)

def setIndex (index : Nat) : Prog PUnit := .perform (.setIndex index) ofExcept

def setVariable (name : String) (v : Value) : Prog PUnit :=
  .perform (.setVariable name v) fun _ => .done ⟨⟩

def removeVariable (name : String) : Prog (Option Value) := .perform (.removeVariable name) .done

def setResult (v : Value) : Prog PUnit := do
  let c ← context
  setVariable c.outputName v

def suspend (k : Continuation) : Prog PUnit := .perform (.suspend k) fun _ => .done ⟨⟩

def log (entry : LogEntry) : Prog PUnit := .perform (.log entry) fun _ => .done ⟨⟩

def note (values : List Value) : Prog PUnit := .perform (.note values) fun _ => .done ⟨⟩

def throwDice : Prog Nat := .perform .throwDice .done

def throwFloat (low high : Float) : Prog Float :=
  .perform (.throwFloat low high) fun
    | .ok x => .done x
    | .error message => .panic message

def runBlock (start stop : Nat) : Prog (Option Flags) := .block start stop ofExcept

/-- What the context remembers under a key, made by `make` the first time. A value of another kind
under that key is an error, and a failing `make` leaves nothing behind. -/
def remembered (key : String) (pack : α → Memo) (unpack : Memo → Option α) (make : Prog α) :
    Prog α := do
  let c ← context
  match c.metadata.get? key with
  | some m =>
    match unpack m with
    | some a => return a
    | none => .fail (.metadata key)
  | none => do
    let a ← make
    .perform (.remember key (pack a)) fun _ => .done a

end Prog

abbrev Handler := Prog Flags

end Playbook
