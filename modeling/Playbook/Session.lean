import Playbook.Scheduler

/-! A session: contexts by number, one scheduler and one pool, driven from outside step by step. -/

namespace Playbook

/-- A context that was made in the session. It is gone once the scheduler took it over or it was
dropped, but whether it is alive can still be asked. -/
structure Seat where
  id : ContextId
  context : Option Context

structure Session where
  registry : Registry
  handlers : Handlers
  fuel : Nat
  units : List ScriptUnit
  seats : List Seat
  scheduler : Scheduler
  held : List (List Action)
  world : World

namespace Session

def start (registry : Registry) (handlers : Handlers) (fuel : Nat) (numbers : Nat → Nat)
    (sampler : Sampler := .ofBits) : Session :=
  { registry, handlers, fuel, units := [], seats := [], scheduler := .empty, held := [],
    world := .initial numbers sampler }

def addUnit (s : Session) (name source : String) : Except CompileError Session :=
  match s.world.compile s.registry name source with
  | (.ok u, w) => .ok { s with units := s.units ++ [u], world := w }
  | (.error e, _) => .error e

def addUnits (s : Session) : List (String × String) → Except CompileError Session
  | [] => .ok s
  | (name, source) :: rest =>
    match s.addUnit name source with
    | .ok s => s.addUnits rest
    | .error e => .error e

def takeTrace (s : Session) : List Event × Session :=
  (s.world.trace, { s with world := { s.world with trace := [] } })

def context? (s : Session) (seat : Nat) : Option Context := s.seats[seat]?.bind Seat.context

def put (s : Session) (seat : Nat) (t : State) : Session :=
  { s with
    seats := s.seats.modify seat fun e => { e with context := some t.context }
    world := t.world }

def vacate (s : Session) (seat : Nat) : Session :=
  { s with seats := s.seats.modify seat fun e => { e with context := none } }

def seat (s : Session) (c : Context) (w : World) : Nat × Session :=
  (s.seats.length,
    { s with seats := s.seats ++ [{ id := c.id, context := some c }], world := w })

def liveness (s : Session) : List Bool := s.seats.map fun e => s.world.isAlive e.id

def script? (s : Session) (name : String) : Option Script :=
  s.units.findSome? fun u => u.script? name

def newContext (s : Session) (script : String) (actor : Option ActorId) : Option (Nat × Session) :=
  (s.script? script).map fun script =>
    let (c, w) := s.world.start script actor
    s.seat c w

def compileOnto (c : Context) (w : World) (items : List Action) :
    List (String × List Token) → Except CompileError (List Action) × World
  | [] => (.ok items, w)
  | (id, args) :: rest =>
    match w.perform (Compile.action c.registry c.script id args) with
    | (.ok a, w) => compileOnto c w (items ++ [a]) rest
    | (.error e, w) => (.error e, w.giveBack items)

/-- A sub-context with a rented sequence of its own, which goes back if an action does not
compile. -/
def newChild (s : Session) (c : Context) (actions : List (String × List Token)) :
    Except CompileError Nat × Session :=
  let (items, w) := s.world.rent
  match compileOnto c w items actions with
  | (.error e, w) => (.error e, { s with world := w })
  | (.ok items, w) =>
    let (id, w) := w.newContext
    let (n, s) := s.seat (c.child id items) w
    (.ok n, s)

def modify (s : Session) (seat : Nat) (f : Context → Context) : Session :=
  match s.context? seat with
  | none => s
  | some c => s.put seat { context := f c, world := s.world }

def onContext {α : Type} (s : Session) (seat : Nat) (f : State → Option (α × State)) :
    Option (α × Session) :=
  match s.context? seat with
  | none => none
  | some c => (f { context := c, world := s.world }).map fun r => (r.1, s.put seat r.2)

def run (s : Session) (seat : Nat) : Option (Outcome × Session) :=
  s.onContext seat (Playbook.run s.handlers s.fuel)

def runIteration (s : Session) (seat : Nat) : Option (Outcome × Session) :=
  s.onContext seat (Playbook.runIteration s.handlers s.fuel)

def runBlock (s : Session) (seat start stop : Nat) : Option (BlockEnd × Session) :=
  s.onContext seat (Playbook.runBlock s.handlers s.fuel start stop)

def effect (s : Session) (seat : Nat) (e : Effect) : Option (e.Answer × Session) :=
  s.onContext seat fun t => some (e.run t)

/-- Carries out a program that runs no blocks on a context. -/
def perform {α : Type} (s : Session) (seat : Nat) (p : Prog α) : Option (Ending α × Session) :=
  s.onContext seat (p.exec (.ofStepper (step s.handlers s.fuel) s.fuel))

def cancel (s : Session) (seat : Nat) : Session :=
  match s.seats[seat]? with
  | none => s
  | some e => { s with world := s.world.cancel e.id }

def drop (s : Session) (seat : Nat) : Session :=
  match s.context? seat with
  | none => s
  | some c => { s.vacate seat with world := s.world.release c.sequence }

def execute (s : Session) (seat now : Nat) : Option ((Outcome × Option LoopId) × Session) :=
  match s.context? seat with
  | none => none
  | some c =>
    (Playbook.execute s.handlers s.fuel now s.scheduler { context := c, world := s.world }).map
      fun (outcome, id, scheduler, w) =>
        ((outcome, id), { s.vacate seat with scheduler, world := w })

def adopt (s : Session) (seat now : Nat) : Option LoopId × Session :=
  match s.context? seat with
  | none => (none, s)
  | some c =>
    match s.scheduler.adopt now c s.world with
    | none => (none, s)
    | some (id, scheduler, w) => (some id, { s.vacate seat with scheduler, world := w })

def tick (s : Session) (now : Nat) : Option (List (LoopId × LoopEvent) × Session) :=
  (s.scheduler.tick s.handlers s.fuel now s.world).map fun (events, scheduler, w) =>
    (events, { s with scheduler, world := w })

def cancelLoop (s : Session) (id : LoopId) : Bool × Session :=
  let (found, scheduler, w) := s.scheduler.cancel id s.world
  (found, { s with scheduler, world := w })

def rent (s : Session) : Nat → Bool × Session
  | 0 => (true, s)
  | n + 1 =>
    let (items, w) := s.world.rent
    let (rest, s) := rent { s with held := items :: s.held, world := w } n
    (items.isEmpty && rest, s)

def giveBack (s : Session) : Nat → Session
  | 0 => s
  | n + 1 =>
    match s.held with
    | [] => s
    | items :: held => giveBack { s with held, world := s.world.giveBack items } n

end Session

end Playbook
