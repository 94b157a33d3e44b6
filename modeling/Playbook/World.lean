import Playbook.Compile
import Playbook.Context

/-! What contexts share: the trace of what happened, the counters for new identities, who has been
cancelled, the pool of sequences and the source of chance. -/

namespace Playbook

structure Note where
  action : String
  index : Nat
  actor : Option ActorId
  values : List Value

inductive Event where
  | log (entry : LogEntry)
  | note (n : Note)
  | parse (call : ParseCall)
  /-- A handler was entered; the context is the one it found. -/
  | dispatch (c : Context)

/-- Empty sequences kept for reuse, and the number of those that are rented out. -/
structure Pool where
  idle : List (List Action)
  outstanding : Nat

namespace Pool

def empty : Pool := { idle := [], outstanding := 0 }

def maxIdle : Nat := 64

def rent (p : Pool) : List Action × Pool :=
  match p.idle with
  | [] => ([], { p with outstanding := p.outstanding + 1 })
  | items :: rest => (items, { idle := rest, outstanding := p.outstanding + 1 })

/-- Takes a sequence back, whatever it holds. -/
def giveBack (p : Pool) (_items : List Action) : Pool :=
  { idle := if p.idle.length < maxIdle then [] :: p.idle else p.idle
    outstanding := p.outstanding - 1 }

end Pool

/-- What becomes of a throw where a float of a range is wanted: a float that lies in it, or a
panic. -/
structure Sampler where
  pick : Float → Float → Nat → Except String Float
  pick_mem {low high x : Float} {throw : Nat} :
    pick low high throw = .ok x → low ≤ x ∧ x ≤ high

namespace Sampler

def defect (low high : Float) : Option String :=
  if !low.isFinite then some "Uniform::new_inclusive called with `low` non-finite."
  else if !high.isFinite then some "Uniform::new_inclusive called with `high` non-finite."
  else if !(high - low).isFinite then some "Uniform::new_inclusive: range overflow"
  else if low ≤ low ∧ low ≤ high then none
  else some "cannot sample empty range"

/-- Picks the float whose bits were thrown if it lies in the range, and else the lower bound. -/
def ofBits : Sampler where
  pick low high throw :=
    match defect low high with
    | some message => .error message
    | none =>
      let x := Float.ofBits (UInt64.ofNat throw)
      .ok (if low ≤ x ∧ x ≤ high then x else low)
  pick_mem {low high x throw} h := by
    split at h
    · cases h
    · rename_i hnone
      cases h
      split
      · assumption
      · grind [defect]

end Sampler

structure Dice where
  numbers : Nat → Nat
  sampler : Sampler

structure World where
  trace : List Event
  nextContext : ContextId
  cancelled : List ContextId
  pool : Pool
  dice : Dice
  thrown : Nat
  objects : Nat

namespace World

def initial (numbers : Nat → Nat) (sampler : Sampler := .ofBits) : World :=
  { trace := [], nextContext := 1, cancelled := [], pool := .empty
    dice := { numbers, sampler }, thrown := 0, objects := 0 }

def record (w : World) (e : Event) : World := { w with trace := e :: w.trace }

def log (w : World) (entry : LogEntry) : World := w.record (.log entry)

def recordCalls (w : World) (calls : List ParseCall) : World :=
  { w with trace := calls.reverse.map Event.parse ++ w.trace }

def perform {ε α : Type} (w : World) (r : Reading ε α) : Except ε α × World :=
  (r.result, w.recordCalls r.calls)

def isAlive (w : World) (id : ContextId) : Bool := !w.cancelled.contains id

def cancel (w : World) (id : ContextId) : World :=
  if w.cancelled.contains id then w else { w with cancelled := id :: w.cancelled }

/-- Cancels a context that somebody holds on to; there is no way to get hold of one that has not
been made. -/
def revoke (w : World) (id : ContextId) : World :=
  if id < w.nextContext then w.cancel id else w

def newContext (w : World) : ContextId × World :=
  (w.nextContext, { w with nextContext := w.nextContext + 1 })

def rent (w : World) : List Action × World :=
  let (items, pool) := w.pool.rent
  (items, { w with pool })

def giveBack (w : World) (items : List Action) : World := { w with pool := w.pool.giveBack items }

def release (w : World) (s : Sequence) : World :=
  match s with
  | .shared _ => w
  | .rented items => w.giveBack items

def throwDice (w : World) : Nat × World :=
  (w.dice.numbers w.thrown, { w with thrown := w.thrown + 1 })

def throwFloat (w : World) (low high : Float) : Except String Float × World :=
  (w.dice.sampler.pick low high w.throwDice.1, w.throwDice.2)

def newObject (w : World) : Handle × World :=
  (.made (w.objects + 1), { w with objects := w.objects + 1 })

def start (w : World) (s : Script) (actor : Option ActorId) : Context × World :=
  let (id, w) := w.newContext
  (.fresh id s.name s.registry (.shared s.actions) actor, w)

def compile (w : World) (r : Registry) (unit source : String) :
    Except CompileError ScriptUnit × World :=
  match w.perform (Playbook.compile r unit source) with
  | (.ok u, w) => (.ok u, w.log u.announcement)
  | (.error e, w) => (.error e, w)

def dispose (w : World) (c : Context) : Bool × Context × World :=
  if c.disposed then (false, c, w)
  else
    let entry := LogEntry.debug ("Disposing " ++ contextText c.id ++ " (" ++ c.script ++ ")")
    (true, c.released, ((w.cancel c.id).log entry).release c.sequence)

end World

/-- The log entries of a trace, oldest first; entries for debugging only on request. -/
def Event.logs (trace : List Event) (withDebug : Bool) : List LogEntry :=
  trace.reverse.filterMap fun
    | .log e => if e.level = .debug ∧ !withDebug then none else some e
    | _ => none

def Event.notes (trace : List Event) : List Note :=
  trace.reverse.filterMap fun
    | .note n => some n
    | _ => none

def Event.customReadings (trace : List Event) : Nat :=
  trace.countP fun
    | .parse { type := .custom _, .. } => true
    | _ => false

end Playbook
