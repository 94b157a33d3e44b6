import Playbook.Text.Utf8

/-! A directory of files, as far as script loading sees it: names, contents and modification
times. A script file is an entry whose name ends in the extension `txt`. -/

namespace Playbook

abbrev FileName := List UInt8

namespace FileName

def text (name : FileName) : String := Text.ofBytesLossy name

def dot : UInt8 := 0x2E

/-- The part behind the last dot, if there is something in front of that dot. -/
def extension? (name : FileName) : Option (List UInt8) :=
  let last := (name.reverse.takeWhile (· != dot)).reverse
  if last.length + 1 < name.length then some last else none

/-- The name without its extension. The name of the directory above has no stem. -/
def stem? (name : FileName) : Option (List UInt8) :=
  if name = [dot, dot] then none
  else match extension? name with
    | some e => some (name.take (name.length - e.length - 1))
    | none => some name

def isScript (name : FileName) : Bool := extension? name == some (Text.toBytes "txt")

def unit? (name : FileName) : Option String := (stem? name).bind Text.ofBytes?

end FileName

inductive Content where
  | file (bytes : List UInt8)
  | folder
  deriving DecidableEq

structure Entry where
  content : Content
  modified : Nat
  deriving DecidableEq

structure Folder where
  entries : List (FileName × Entry)
  distinct : (entries.map Prod.fst).Nodup

namespace Folder

def empty : Folder := { entries := [], distinct := List.nodup_nil }

def get? (f : Folder) (name : FileName) : Option Entry := f.entries.lookup name

def erase (f : Folder) (name : FileName) : Folder :=
  { entries := f.entries.filter fun e => e.1 != name
    distinct := f.distinct.sublist (List.filter_sublist.map Prod.fst) }

def put (f : Folder) (name : FileName) (e : Entry) : Folder :=
  { entries := (name, e) :: (f.erase name).entries
    distinct := by
      have h := (f.erase name).distinct
      simp only [List.map_cons, List.nodup_cons]
      exact ⟨by simp [erase], h⟩ }

def scripts (f : Folder) : List (FileName × Entry) :=
  (f.entries.filter fun e => FileName.isScript e.1).mergeSort fun a b => decide (a.1 ≤ b.1)

end Folder

inductive Place where
  | missing
  | plainFile
  | folder (f : Folder)

structure Directory where
  path : String
  place : Place

inductive ReadFault where
  | notFound
  | notADirectory
  | isADirectory
  | invalidText
  deriving DecidableEq, Repr

def ReadFault.message : ReadFault → String
  | .notFound => "No such file or directory (os error 2)"
  | .notADirectory => "Not a directory (os error 20)"
  | .isADirectory => "Is a directory (os error 21)"
  | .invalidText => "stream did not contain valid UTF-8"

namespace Directory

def pathOf (d : Directory) (name : FileName) : String := d.path ++ "/" ++ name.text

def folder (d : Directory) : Except ReadFault Folder :=
  match d.place with
  | .missing => .error .notFound
  | .plainFile => .error .notADirectory
  | .folder f => .ok f

def read (d : Directory) (name : FileName) : Except ReadFault String :=
  match d.folder with
  | .error e => .error e
  | .ok f =>
    match f.get? name with
    | none => .error .notFound
    | some e =>
      match e.content with
      | .folder => .error .isADirectory
      | .file bytes =>
        match Text.ofBytes? bytes with
        | none => .error .invalidText
        | some s => .ok s

/-- Writes an entry into the directory, which is made if it is missing. -/
def put (d : Directory) (name : FileName) (e : Entry) : Directory :=
  match d.place with
  | .missing => { d with place := .folder (Folder.empty.put name e) }
  | .plainFile => d
  | .folder f => { d with place := .folder (f.put name e) }

def erase (d : Directory) (name : FileName) : Directory :=
  match d.place with
  | .folder f => { d with place := .folder (f.erase name) }
  | _ => d

def eraseAll (d : Directory) : Directory := { d with place := .missing }

end Directory

end Playbook
