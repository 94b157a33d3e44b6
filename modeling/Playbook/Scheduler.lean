import Playbook.Dispatch

/-! Delayed loops.

The scheduler owns the contexts that were suspended with iterations left to run, and runs one
iteration of each loop that is due in a tick. Times are milliseconds; they may come in any order. -/

namespace Playbook

abbrev LoopId := Nat

inductive LoopEvent where
  | ran
  | finished
  | stopped
  | failed
  /-- The context had been cancelled and was dropped untouched. -/
  | cancelled
  deriving DecidableEq, Repr

structure Loop where
  id : LoopId
  context : Context
  continuation : Continuation
  nextFire : Nat

structure Scheduler where
  loops : List Loop
  nextId : LoopId

/-- A time span in messages: in seconds from one second on, with the digits it needs. -/
def spanText (ms : Nat) : String :=
  if ms = 0 then "0ns"
  else if ms < 1000 then Number.natText ms ++ "ms"
  else Number.positional ms (-3) ++ "s"

namespace Scheduler

def empty : Scheduler := { loops := [], nextId := 0 }

def isScheduled (s : Scheduler) (id : LoopId) : Bool := s.loops.any fun l => l.id == id

def activeCount (s : Scheduler) : Nat := s.loops.length

def adoptionEntry (c : Context) (k : Continuation) : LogEntry :=
  .debug ("Scheduling " ++ toString k.remaining ++ " iteration(s) of " ++ toString k.start ++
    ".." ++ toString k.stop ++ " in " ++ c.label ++ " every " ++ spanText k.interval)

def adopt (s : Scheduler) (now : Nat) (c : Context) (w : World) :
    Option (LoopId × Scheduler × World) :=
  match c.continuation with
  | none => none
  | some k =>
    let l : Loop :=
      { id := s.nextId, context := { c with continuation := none }, continuation := k,
        nextFire := now + k.interval }
    some (s.nextId, { loops := s.loops ++ [l], nextId := s.nextId + 1 },
      w.log (adoptionEntry c k))

def cancel (s : Scheduler) (id : LoopId) (w : World) : Bool × Scheduler × World :=
  match s.loops.find? fun l => l.id == id with
  | none => (false, s, w)
  | some l =>
    let (_, _, w) := w.dispose l.context
    (true, { s with loops := s.loops.filter fun l => l.id != id }, w)

def conclude (k : Continuation) (r : BlockEnd) : LoopEvent × Continuation :=
  match r with
  | .error _ => (.failed, k)
  | .ok (some _) => (.stopped, k)
  | .ok none =>
    let left := k.remaining - 1
    (if left = 0 then .finished else .ran, { k with remaining := left })

def iterationEntry (c : Context) (r : BlockEnd) : Option LogEntry :=
  match r with
  | .ok none => none
  | .ok (some flags) =>
    some (.debug ("Loop in " ++ c.label ++ " stopped with " ++ flags.inspect))
  | .error e =>
    let action := match c.current with
      | some a => a.id
      | none => "?"
    some (.error ("Loop iteration in " ++ c.label ++ " failed at " ++ action ++ ": " ++ e.message))

def fire (handlers : Handlers) (fuel now : Nat) (l : Loop) (w : World) :
    Option (LoopEvent × Option Loop × World) :=
  match runBlock handlers fuel l.continuation.start l.continuation.stop
      { context := l.context, world := w } with
  | none => none
  | some (r, s) =>
    let w := match iterationEntry s.context r with
      | some entry => s.world.log entry
      | none => s.world
    let (event, k) := conclude l.continuation r
    if event = .ran then
      some (event,
        some { l with context := s.context, continuation := k, nextFire := now + k.interval }, w)
    else
      let (_, _, w) := w.dispose s.context
      some (event, none, w)

/-- What a tick does to one loop: nothing while it is not due, and otherwise one event. A
cancelled loop is dropped without being run. -/
def tickLoop (handlers : Handlers) (fuel now : Nat) (l : Loop) (w : World) :
    Option (Option LoopEvent × Option Loop × World) :=
  if !w.isAlive l.context.id then
    let w := w.log (.warn ("Dropping cancelled loop in " ++ l.context.label))
    some (some .cancelled, none, w.release l.context.sequence)
  else if now < l.nextFire then some (none, some l, w)
  else match fire handlers fuel now l w with
    | none => none
    | some (event, l, w) => some (some event, l, w)

def tickLoops (handlers : Handlers) (fuel now : Nat) :
    List Loop → World → Option (List (LoopId × LoopEvent) × List Loop × World)
  | [], w => some ([], [], w)
  | l :: ls, w =>
    match tickLoop handlers fuel now l w with
    | none => none
    | some (event, kept, w) =>
      match tickLoops handlers fuel now ls w with
      | none => none
      | some (events, rest, w) =>
        some ((event.map fun e => (l.id, e)).toList ++ events, kept.toList ++ rest, w)

def tick (handlers : Handlers) (fuel now : Nat) (s : Scheduler) (w : World) :
    Option (List (LoopId × LoopEvent) × Scheduler × World) :=
  match tickLoops handlers fuel now s.loops w with
  | none => none
  | some (events, loops, w) => some (events, { s with loops }, w)

end Scheduler

/-- Runs a context and hands it to the scheduler if it was suspended; in any other case it is let
go. -/
def execute (handlers : Handlers) (fuel now : Nat) (sched : Scheduler) (s : State) :
    Option (Outcome × Option LoopId × Scheduler × World) :=
  match run handlers fuel s with
  | none => none
  | some (outcome, t) =>
    match outcome with
    | .suspended =>
      match sched.adopt now t.context t.world with
      | some (id, sched, w) => some (outcome, some id, sched, w)
      | none => some (outcome, none, sched, t.world.release t.context.sequence)
    | _ => some (outcome, none, sched, t.world.release t.context.sequence)

end Playbook
