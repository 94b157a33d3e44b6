import Playbook.Action

/-! Scripts and units.

A unit is what one source text compiles to: the statements in front of the first section header
form its default script, and each section forms a script of its own. -/

namespace Playbook

structure Script where
  name : String
  heading : Option String
  actions : List Action
  registry : Registry

namespace Script

def toSource (s : Script) : String := String.intercalate "\n" (s.actions.map Action.toSource)

def inspect (s : Script) : String :=
  Text.record "Script"
    [("name", Text.escaped s.name),
     ("actions", Text.bracketed (s.actions.map fun a => Text.escaped a.id))] false

end Script

structure ScriptUnit where
  name : String
  scripts : List Script

namespace ScriptUnit

def script? (u : ScriptUnit) (name : String) : Option Script :=
  u.scripts.find? fun s => s.name == name

def main? (u : ScriptUnit) : Option Script := u.script? u.name

def bySection? (u : ScriptUnit) (name : String) : Option Script :=
  u.scripts.find? fun s => s.heading == some name

/-- The source of one script within its unit: the header, then the statements. -/
def scriptSource (s : Script) : String :=
  let header := match s.heading with
    | some name => ";" ++ name ++ "\n"
    | none => ""
  let body := s.toSource
  header ++ (if body = "" then "" else body ++ "\n")

def toSource (u : ScriptUnit) : String := String.join (u.scripts.map scriptSource)

def inspect (u : ScriptUnit) : String :=
  Text.record "Unit"
    [("name", Text.escaped u.name), ("scripts", Text.bracketed (u.scripts.map Script.inspect))]
    false

def announcement (u : ScriptUnit) : LogEntry :=
  .debug ("Compiled unit " ++ u.name ++ " into " ++ toString u.scripts.length ++ " script(s)")

end ScriptUnit

end Playbook
