import Playbook.Directory
import Playbook.Table
import Playbook.World

/-! The loaded units, and loading them from a directory.

Every script file is a unit named after its file. A file that cannot be read or compiled is
reported, and the others are loaded all the same. -/

namespace Playbook

inductive LoadFault where
  | noName
  | unreadable (f : ReadFault)
  | uncompilable (e : CompileError)

namespace LoadFault

def message (path : String) : LoadFault → String
  | .noName => "script file " ++ path ++ " has no usable name"
  | .unreadable _ => "failed to read " ++ path
  | .uncompilable _ => "failed to compile " ++ path

def cause? : LoadFault → Option String
  | .noName => none
  | .unreadable f => some f.message
  | .uncompilable e => some e.message

def fullMessage (path : String) (f : LoadFault) : String :=
  match f.cause? with
  | none => f.message path
  | some cause => f.message path ++ ": " ++ cause

end LoadFault

structure LoadFailure where
  file : FileName
  fault : LoadFault

/-- The unit that the file would have been; nameless if its name is no text. -/
def LoadFailure.unit (f : LoadFailure) : String := f.file.unit?.getD ""

structure LoadReport where
  units : List ScriptUnit
  failures : List LoadFailure

namespace LoadReport

def empty : LoadReport := { units := [], failures := [] }

def scriptCount (r : LoadReport) : Nat := (r.units.flatMap ScriptUnit.scripts).length

def isClean (r : LoadReport) : Bool := r.failures.isEmpty

def present (r : LoadReport) : List String :=
  r.units.map ScriptUnit.name ++ r.failures.map LoadFailure.unit

end LoadReport

namespace Directory

def loadFile (d : Directory) (r : Registry) (name : FileName) (w : World) :
    Except LoadFault ScriptUnit × World :=
  match name.unit? with
  | none => (.error .noName, w)
  | some unit =>
    match d.read name with
    | .error f => (.error (.unreadable f), w)
    | .ok source =>
      match w.compile r unit source with
      | (.error e, w) => (.error (.uncompilable e), w)
      | (.ok u, w) => (.ok u, w)

def loadEntry (d : Directory) (name : FileName) : Except LoadFault ScriptUnit → LogEntry
  | .ok u =>
    .debug ("Loaded " ++ d.pathOf name ++ " (" ++ Number.natText u.scripts.length ++ " script(s))")
  | .error f => .warn ("Skipping " ++ d.pathOf name ++ ": " ++ f.fullMessage (d.pathOf name))

def loadFiles (d : Directory) (r : Registry) : List FileName → World → LoadReport × World
  | [], w => (.empty, w)
  | name :: names, w =>
    let (result, w) := d.loadFile r name w
    let (rest, w) := d.loadFiles r names (w.log (d.loadEntry name result))
    match result with
    | .ok u => ({ rest with units := u :: rest.units }, w)
    | .error fault => ({ rest with failures := { file := name, fault } :: rest.failures }, w)

def load (d : Directory) (r : Registry) (w : World) : LoadReport × World :=
  match d.folder with
  | .ok f => d.loadFiles r (f.scripts.map Prod.fst) w
  | .error .notFound =>
    (.empty, w.log (.info ("Script directory does not exist: " ++ d.path ++
      " (this is fine if no scripts are being used)")))
  | .error fault =>
    (.empty, w.log (.warn ("Failed to read script directory " ++ d.path ++ ": " ++ fault.message)))

end Directory

structure Library where
  units : Table (List Script)

namespace Library

def empty : Library := { units := .empty }

def insert (l : Library) (u : ScriptUnit) : Library :=
  { units := l.units.set u.name u.scripts }

def contains (l : Library) (unit : String) : Bool := l.units.contains unit

def isEmpty (l : Library) : Bool := l.units.entries.isEmpty

def retain (l : Library) (names : List String) : Library :=
  { units := { entries := l.units.entries.filter fun u => names.contains u.1 } }

def scripts (l : Library) : List Script := l.units.sorted.flatMap Prod.snd

def script? (l : Library) (name : String) : Option Script :=
  l.scripts.find? fun s => s.name == name

def scriptNames (l : Library) : List String :=
  (l.scripts.map Script.name).mergeSort fun a b => decide (a ≤ b)

def scriptCount (l : Library) : Nat := l.scripts.length

end Library

end Playbook
