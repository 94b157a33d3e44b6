import Playbook.Library
import Playbook.Scheduler
import Playbook.Settings
import Playbook.Watcher

/-! The runner of a directory of scripts: it loads them, starts them by name, keeps delayed loops
going and loads the scripts again when it is asked to or when their files change.

The directory belongs to the outside, so it is an argument wherever it is looked at. -/

namespace Playbook

structure Signal where
  generation : Nat
  seen : Nat
  closed : Bool
  deriving DecidableEq, Repr

namespace Signal

def quiet : Signal := { generation := 0, seen := 0, closed := false }

def raise (s : Signal) : Signal :=
  if s.closed then s else { s with generation := s.generation + 1 }

def close (s : Signal) : Signal := { s with closed := true }

/-- Whether there are requests that have not been noticed. A closed signal shows none. -/
def isRaised (s : Signal) : Bool := !s.closed && s.generation != s.seen

def notice (s : Signal) : Signal := { s with seen := s.generation }

end Signal

structure UnknownScript where
  name : String

def UnknownScript.message (e : UnknownScript) : String :=
  "no script named '" ++ e.name ++ "' is loaded"

structure Runner where
  registry : Registry
  handlers : Handlers
  fuel : Nat
  settings : Settings
  library : Library
  scheduler : Scheduler
  watcher : Option Watcher
  signal : Signal
  lastTick : Option Nat
  world : World

namespace Runner

def start (registry : Registry) (handlers : Handlers) (fuel : Nat) (settings : Settings)
    (numbers : Nat → Nat) (sampler : Sampler := .ofBits) : Runner :=
  { registry, handlers, fuel, settings, library := .empty, scheduler := .empty, watcher := none,
    signal := .quiet, lastTick := none, world := .initial numbers sampler }

def takeTrace (x : Runner) : List Event × Runner :=
  (x.world.trace, { x with world := { x.world with trace := [] } })

def log (x : Runner) (entry : LogEntry) : Runner := { x with world := x.world.log entry }

def insert (x : Runner) (u : ScriptUnit) : Runner :=
  { x with
    library := x.library.insert u
    world := x.world.log (.debug ("Registering unit: " ++ u.name)) }

def insertAll (x : Runner) (us : List ScriptUnit) : Runner := us.foldl insert x

def insertSource (x : Runner) (name source : String) : Except CompileError Unit × Runner :=
  match x.world.compile x.registry name source with
  | (.error e, w) => (.error e, { x with world := w })
  | (.ok u, w) => (.ok (), insert { x with world := w } u)

def unitOf (x : Runner) (d : Directory) (name : FileName) :
    Except LoadFault ScriptUnit × Runner :=
  let (r, w) := d.loadFile x.registry name x.world
  (r, { x with world := w })

def survey (x : Runner) (d : Directory) : LoadReport × Runner :=
  let (report, w) := d.load x.registry x.world
  (report, { x with world := w })

def watch (x : Runner) (d : Directory) : Runner :=
  if x.settings.hotReload then
    let (watcher, w) := Watcher.start x.settings.scanInterval d x.world
    { x with watcher := some watcher, world := w }
  else x

def load (x : Runner) (d : Directory) : LoadReport × Runner :=
  if x.settings.enabled then
    let x := x.log (.debug ("Loading scripts from " ++ d.path))
    let (report, x) := x.survey d
    let x := (x.insertAll report.units).watch d
    if x.library.isEmpty then (report, x)
    else
      let n := Number.natText x.library.scriptCount
      (report, x.log (.info ("Loaded " ++ n ++ " script(s)")))
  else (.empty, x.log (.debug "Scripting disabled, not loading scripts"))

def keptEntries (l : Library) (report : LoadReport) : List LogEntry :=
  (report.failures.filter fun f => l.contains f.unit).map fun f =>
    .warn ("Keeping previous version of " ++ f.unit ++ " after failed reload")

def reloadEntry (old new : Nat) : LogEntry :=
  if 0 < old ∧ new = 0 then
    .warn ("Script reload resulted in zero scripts (was " ++ Number.natText old ++
      "). Check logs for loading errors.")
  else .info ("Reloaded " ++ Number.natText new ++ " script(s)")

/-- Loads the directory again. Units that compile take the place of their former versions, units
that fail keep theirs, and units without a file are dropped. Running loops are not touched. -/
def reload (x : Runner) (d : Directory) : LoadReport × Runner :=
  if x.settings.enabled then
    let old := x.library.scriptCount
    let x := x.log (.debug ("Reloading scripts from " ++ d.path))
    let (report, x) := x.survey d
    let x : Runner := { x with library := x.library.retain report.present }
    let x := x.insertAll report.units
    let x := (keptEntries x.library report).foldl log x
    (report, x.log (reloadEntry old x.library.scriptCount))
  else (.empty, x)

def run (x : Runner) (name : String) (actor : Option ActorId) (now : Nat) :
    Option (Except UnknownScript (Outcome × Option LoopId) × Runner) :=
  match x.library.script? name with
  | none => some (.error { name }, x)
  | some script =>
    let (context, world) := x.world.start script actor
    match execute x.handlers x.fuel now x.scheduler { context, world } with
    | none => none
    | some (outcome, id, scheduler, world) => some (.ok (outcome, id), { x with scheduler, world })

def isTooSoon (x : Runner) (now : Nat) : Bool :=
  match x.lastTick with
  | none => false
  | some last => decide (now - last < x.settings.tickInterval)

def pollSignal (x : Runner) : Bool × Runner :=
  if x.signal.isRaised then
    let n := Number.natText x.signal.generation
    (true, { x with
      signal := x.signal.notice
      world := x.world.log (.info ("Reload requested (#" ++ n ++ ")")) })
  else (false, x)

def pollFiles (x : Runner) (now : Nat) (d : Directory) : Bool × Runner :=
  match x.watcher with
  | none => (false, x)
  | some watcher =>
    if watcher.isDue now then
      let (changes, watcher, w) := watcher.scan now d x.world
      let x : Runner := { x with watcher := some watcher, world := w }
      if changes.any then (true, x.log (.info "Script files changed, reloading"))
      else (false, x)
    else (false, x)

def refresh (x : Runner) (now : Nat) (d : Directory) : Runner :=
  let (requested, x) := x.pollSignal
  let (changed, x) := x.pollFiles now d
  if requested || changed then (x.reload d).2 else x

def advance (x : Runner) (now : Nat) : Option (List (LoopId × LoopEvent) × Runner) :=
  match x.scheduler.tick x.handlers x.fuel now x.world with
  | none => none
  | some (events, scheduler, world) => some (events, { x with scheduler, world })

/-- Picks up what has changed and then advances the delayed loops, unless it is too soon. -/
def tick (x : Runner) (now : Nat) (d : Directory) :
    Option (List (LoopId × LoopEvent) × Runner) :=
  if x.isTooSoon now then some ([], x)
  else (refresh { x with lastTick := some now } now d).advance now

def cancelLoop (x : Runner) (id : LoopId) : Bool × Runner :=
  let (found, scheduler, world) := x.scheduler.cancel id x.world
  (found, { x with scheduler, world })

end Runner

end Playbook
