import Playbook.Table
import Playbook.Toml.Scalar

/-! Tables of TOML documents, and how statements may extend them.

A table comes into being by its own header, on the way to another header, or on the way of a
dotted key. What may be added to it later depends on that. -/

namespace Playbook.Toml

inductive Origin where
  | written
  | implied
  | dotted
  deriving DecidableEq, Repr

inductive Tree where
  | leaf (v : Scalar)
  | table (origin : Origin) (entries : Table Tree)
  /-- An array of tables, with the latest of them: the others cannot be changed any more. -/
  | tables (latest : Table Tree)

abbrev Entries := Table Tree

abbrev Change := Origin → Entries → Option Entries

namespace Entries

/-- Changes the table at the end of a path. Tables that are missing on the way are made; those
that a header wrote are out of the reach of dotted keys. -/
def within (key : Origin) (change : Change) : List String → Change
  | [], origin, t => change origin t
  | k :: ks, _, t =>
    match Table.get? t k with
    | none => (within key change ks key .empty).map fun u => Table.set t k (.table key u)
    | some (.leaf _) => none
    | some (.tables u) =>
      (within key change ks .written u).map fun u => Table.set t k (.tables u)
    | some (.table origin u) =>
      if key = .dotted ∧ origin = .written then none
      else (within key change ks origin u).map fun u => Table.set t k (.table origin u)

/-- Adds a value under a new key. A dotted key ends in a table of its own kind. -/
def addLeaf (dotted : Bool) (key : String) (v : Scalar) : Change := fun origin t =>
  if (origin = .dotted) != dotted then none
  else if Table.contains t key then none
  else some (Table.set t key (.leaf v))

def insert (path : List String) (v : Scalar) : Change := fun origin t =>
  match path.getLast? with
  | none => none
  | some key =>
    let way := path.dropLast
    within .dotted (addLeaf (!way.isEmpty) key v) way origin t

def openTable (key : String) : Change := fun _ t =>
  match Table.get? t key with
  | none => some (Table.set t key (.table .written .empty))
  | some (.table .implied u) => some (Table.set t key (.table .written u))
  | some _ => none

def openNext (key : String) : Change := fun _ t =>
  match Table.get? t key with
  | none => some (Table.set t key (.tables .empty))
  | some (.tables _) => some (Table.set t key (.tables .empty))
  | some _ => none

def atHeader (path : List String) (change : String → Change) (t : Entries) : Option Entries :=
  match path.getLast? with
  | none => none
  | some key => within .implied (change key) path.dropLast .written t

end Entries

inductive Statement where
  | pair (path : List String) (v : Scalar)
  | header (path : List String)
  | nextHeader (path : List String)

def Entries.extend (here : List String) (t : Entries) : List Statement → Option Entries
  | [] => some t
  | s :: rest =>
    match s with
    | .pair path v =>
      match Entries.within .implied (Entries.insert path v) here .written t with
      | none => none
      | some t => Entries.extend here t rest
    | .header path =>
      match Entries.atHeader path Entries.openTable t with
      | none => none
      | some t => Entries.extend path t rest
    | .nextHeader path =>
      match Entries.atHeader path Entries.openNext t with
      | none => none
      | some t => Entries.extend path t rest

end Playbook.Toml
