/-! The log file of a component.

A component that logs to a file appends to `<component>.log` in the folder of logs. A file that has
grown too large is emptied first. -/

namespace Playbook.LogFile

abbrev Folder := List (String × Nat)

/-- A file larger than this many bytes is started over. -/
def maxSize : Nat := 1024 * 1024

def nameOf (component : String) : String := component ++ ".log"

def openedSize (existing : Option Nat) : Nat :=
  match existing with
  | some size => if maxSize < size then 0 else size
  | none => 0

def prepare (component : String) (toFile : Bool) (files : Folder) : Folder :=
  if toFile then
    let name := nameOf component
    (name, openedSize (files.lookup name)) :: files.filter fun f => f.1 != name
  else files

def listing (files : Folder) : Folder := files.mergeSort fun a b => decide (a.1 ≤ b.1)

end Playbook.LogFile
