import Playbook.Builtin

/-! Running actions.

A step dispatches the action under the cursor. A block is a run of steps inside a range of the
sequence, and a run goes on to the end of it. Handlers may run blocks and further actions, so a
step is defined in terms of a smaller step: the fuel of `step` bounds how deeply runs are nested
and how many steps each of them takes. Out of fuel there is no answer; where there is one, more
fuel gives the same. -/

namespace Playbook

structure State where
  context : Context
  world : World

def Effect.run (e : Effect) (s : State) : e.Answer × State :=
  match e with
  | .setIndex index =>
    match s.context.setIndex index with
    | .ok c => (.ok ⟨⟩, { s with context := c })
    | .error e => (.error e, s)
  | .setVariable name v => (⟨⟩, { s with context := s.context.setVariable name v })
  | .removeVariable name =>
    (s.context.memory.get? name, { s with context := s.context.removeVariable name })
  | .setActor actor => (⟨⟩, { s with context := { s.context with actor } })
  | .suspend k => (⟨⟩, { s with context := s.context.suspend k })
  | .remember key m =>
    (⟨⟩, { s with context := { s.context with metadata := s.context.metadata.set key m } })
  | .reset actor => (⟨⟩, { s with context := s.context.reset actor })
  | .dispose =>
    let (done, c, w) := s.world.dispose s.context
    (done, { context := c, world := w })
  | .cancel => (⟨⟩, { s with world := s.world.cancel s.context.id })
  | .revoke id => (⟨⟩, { s with world := s.world.revoke id })
  | .readSlot slot =>
    let (r, w) := s.world.perform (s.context.readSlot slot)
    (r, { s with world := w })
  | .compile id args =>
    let (r, w) := s.world.perform (Compile.action s.context.registry s.context.script id args)
    (r, { s with world := w })
  | .log entry => (⟨⟩, { s with world := s.world.log entry })
  | .note values =>
    let c := s.context
    let n : Note := { action := c.currentId, index := c.index, actor := c.actor, values }
    (⟨⟩, { s with world := s.world.record (.note n) })
  | .throwDice =>
    let (n, w) := s.world.throwDice
    (n, { s with world := w })
  | .throwFloat low high =>
    let (r, w) := s.world.throwFloat low high
    (r, { s with world := w })
  | .newObject =>
    let (h, w) := s.world.newObject
    (h, { s with world := w })

inductive Ending (α : Type) where
  | value (a : α)
  | error (e : RuntimeError)
  | panic (message : String)

/-- How a block ends: by an error, by flags that stop, or at its end. -/
abbrev BlockEnd := Except RuntimeError (Option Flags)

structure Nested where
  block : Nat → Nat → State → Option (BlockEnd × State)
  each : Action → List ActorId → State → Option State

def Prog.exec {α : Type} (nested : Nested) : Prog α → State → Option (Ending α × State)
  | .done a, s => some (.value a, s)
  | .fail e, s => some (.error e, s)
  | .panic m, s => some (.panic m, s)
  | .look next, s => (next s.context).exec nested s
  | .perform e next, s =>
    let (a, s) := e.run s
    (next a).exec nested s
  | .block start stop next, s =>
    match nested.block start stop s with
    | none => none
    | some (r, s) => (next r).exec nested s
  | .each target actors next, s =>
    match nested.each target actors s with
    | none => none
    | some s => next.exec nested s

abbrev Handlers := String → Handler

def Handlers.none : Handlers := fun _ => .done .proceed

def Behaviour.handler (handlers : Handlers) : Behaviour → Handler
  | .builtin b => b.handler
  | .host name => handlers name
  | .idle => .done .proceed

/-- What a handler's flags come to. Flags that neither stop nor succeed halt; success moves to the
next action, unless the handler has moved the cursor itself. -/
def settle (entry : Nat) (flags : Flags) (s : State) : Except RuntimeError Flags × State :=
  if flags.stop then (.ok flags, s)
  else if !flags.success then (.ok .halt, s)
  else if s.context.index = entry then
    match s.context.setIndex (entry + 1) with
    | .ok c => (.ok flags, { s with context := c })
    | .error e => (.error e, s)
  else (.ok flags, s)

abbrev Stepper := State → Option (Except RuntimeError Flags × State)

/-- Dispatches the action under the cursor. A panic of its handler is an error of the action. -/
def dispatch (handlers : Handlers) (nested : Nested) : Stepper := fun s =>
  let entry := s.context.index
  let c := s.context.sync
  match c.current with
  | none => some (.error .noCurrentAction, { s with context := c })
  | some a =>
    let s : State := { context := c, world := s.world.record (.dispatch c) }
    match (a.definition.behaviour.handler handlers).exec nested s with
    | none => none
    | some (.panic m, s) => some (.error (.dispatch a.id m), s)
    | some (.error e, s) => some (.error e, s)
    | some (.value flags, s) => some (settle entry flags s)

def blockLoop (step : Stepper) (stop : Nat) : Nat → State → Option (BlockEnd × State)
  | 0, _ => none
  | fuel + 1, s =>
    if s.context.index < stop then
      match step s with
      | none => none
      | some (.error e, s) => some (.error e, s)
      | some (.ok flags, s) =>
        if flags.stop then some (.ok (some flags), s) else blockLoop step stop fuel s
    else some (.ok none, s)

def blockWith (step : Stepper) (fuel : Nat) (start stop : Nat) (s : State) :
    Option (BlockEnd × State) :=
  if stop < start ∨ s.context.len < stop then
    some (.error (s.context.outOfBounds stop), s)
  else match s.context.setIndex start with
    | .error e => some (.error e, s)
    | .ok c => blockLoop step stop fuel { s with context := c }

def State.dispose (s : State) : State :=
  let (_, c, w) := s.world.dispose s.context
  { context := c, world := w }

def Context.label (c : Context) : String := c.script ++ " (" ++ contextText c.id ++ ")"

def failureEntry (c : Context) (e : RuntimeError) : LogEntry :=
  let line := match c.current with
    | some a => a.line
    | none => 0
  .error ("Action " ++ c.currentId ++ " (line " ++ toString line ++ ") in " ++ c.label ++
    " failed: " ++ e.message)

/-- Steps to the end of the sequence. With `release`, a failure and a stop that asks for it
dispose of the context. -/
def driveLoop (step : Stepper) (release : Bool) : Nat → State → Option (Outcome × State)
  | 0, _ => none
  | fuel + 1, s =>
    if s.context.isFinished then
      some (.completed,
        { s with world := s.world.log (.debug (s.context.label ++ " completed")) })
    else match step s with
      | none => none
      | some (.error e, s) =>
        let s := { s with world := s.world.log (failureEntry s.context e) }
        some (.failed e, if release then s.dispose else s)
      | some (.ok flags, s) =>
        if flags.stop then
          if flags.dispose && release then some (.disposed, s.dispose)
          else if s.context.isSuspended then some (.suspended, s)
          else some (.stopped, s)
        else driveLoop step release fuel s

def driveWith (step : Stepper) (fuel : Nat) (release : Bool) (s : State) :
    Option (Outcome × State) :=
  if s.context.disposed then some (.disposed, s) else driveLoop step release fuel s

def visitEntry (parent : Context) (actor : ActorId) : Outcome → Option LogEntry
  | .failed e =>
    some (.warn ("Sub-dispatch for " ++ Value.actorText actor ++ " in " ++ parent.label ++
      " failed: " ++ e.message))
  | .suspended =>
    some (.warn ("Sub-dispatch for " ++ Value.actorText actor ++ " in " ++ parent.script ++
      " cannot suspend; continuation dropped"))
  | _ => none

def visitAll (step : Stepper) (fuel : Nat) (parent : Context) :
    List ActorId → State → Option State
  | [], s => some s
  | actor :: actors, s =>
    match driveWith step fuel false { s with context := s.context.reset (some actor) } with
    | none => none
    | some (outcome, s) =>
      let w := match visitEntry parent actor outcome with
        | some entry => s.world.log entry
        | none => s.world
      visitAll step fuel parent actors { s with world := w }

/-- Runs an action for each actor in a sub-context with a rented sequence, which is then released.
The context itself is left as it is. -/
def eachWith (step : Stepper) (fuel : Nat) (target : Action) (actors : List ActorId)
    (s : State) : Option State :=
  let parent := s.context
  let (items, w) := s.world.rent
  let (id, w) := w.newContext
  let sub := parent.child id (items ++ [target])
  match visitAll step fuel parent actors { context := sub, world := w } with
  | none => none
  | some t => some { context := parent, world := t.dispose.world }

def Nested.ofStepper (step : Stepper) (fuel : Nat) : Nested :=
  { block := blockWith step fuel, each := eachWith step fuel }

/-- Dispatches the action under the cursor, with nested runs of at most `fuel` levels. -/
def step (handlers : Handlers) : Nat → Stepper
  | 0 => fun _ => none
  | fuel + 1 => dispatch handlers (.ofStepper (step handlers fuel) fuel)

def run (handlers : Handlers) (fuel : Nat) (s : State) : Option (Outcome × State) :=
  driveWith (step handlers fuel) fuel true s

def runIteration (handlers : Handlers) (fuel : Nat) (s : State) : Option (Outcome × State) :=
  driveWith (step handlers fuel) fuel false s

def runBlock (handlers : Handlers) (fuel : Nat) (start stop : Nat) (s : State) :
    Option (BlockEnd × State) :=
  blockWith (step handlers fuel) fuel start stop s

end Playbook
