import Playbook.Directory
import Playbook.World

/-! Noticing changes in a directory by comparing modification times with the last look. -/

namespace Playbook

abbrev Snapshot := List (FileName × Nat)

structure Changes where
  changed : List FileName
  added : List FileName
  removed : List FileName
  deriving DecidableEq

def Changes.any (c : Changes) : Bool :=
  !c.changed.isEmpty || !c.added.isEmpty || !c.removed.isEmpty

namespace Snapshot

/-- A directory that cannot be read counts as empty. -/
def take (d : Directory) : Snapshot :=
  match d.folder with
  | .ok f => f.scripts.map fun e => (e.1, e.2.modified)
  | .error _ => []

def entry? (d : Directory) : Option LogEntry :=
  match d.folder with
  | .ok _ => none
  | .error fault => some (.debug ("Cannot scan " ++ d.path ++ ": " ++ fault.message))

/-- The files of a snapshot that pass a test on what the other snapshot says of them. -/
def select (s other : Snapshot) (test : Nat → Option Nat → Bool) : List FileName :=
  (s.filter fun e => test e.2 (other.lookup e.1)).map Prod.fst

def changes (old new : Snapshot) : Changes :=
  { changed := new.select old fun now before => before.isSome && before != some now
    added := new.select old fun _ before => before.isNone
    removed := old.select new fun _ after => after.isNone }

end Snapshot

def Changes.entries (c : Changes) (d : Directory) (new : Snapshot) : List LogEntry :=
  let entry := fun (verb : String) (name : FileName) =>
    LogEntry.debug ("Script " ++ verb ++ ": " ++ d.pathOf name)
  (new.filterMap fun e =>
    if c.changed.contains e.1 then some (entry "changed" e.1)
    else if c.added.contains e.1 then some (entry "added" e.1)
    else none) ++ c.removed.map (entry "removed")

structure Watcher where
  interval : Nat
  lastScan : Option Nat
  known : Snapshot

namespace Watcher

def defaultInterval : Nat := 1000

def start (interval : Nat) (d : Directory) (w : World) : Watcher × World :=
  ({ interval, lastScan := none, known := .take d }, (Snapshot.entry? d).toList.foldl World.log w)

def tracked (x : Watcher) : Nat := x.known.length

/-- Whether it is time to look again. A time before the last look counts as that moment. -/
def isDue (x : Watcher) (now : Nat) : Bool :=
  match x.lastScan with
  | none => true
  | some last => decide (x.interval ≤ now - last)

def scan (x : Watcher) (now : Nat) (d : Directory) (w : World) : Changes × Watcher × World :=
  let new := Snapshot.take d
  let changes := x.known.changes new
  (changes, { x with lastScan := some now, known := new },
    ((Snapshot.entry? d).toList ++ changes.entries d new).foldl World.log w)

end Watcher

end Playbook
