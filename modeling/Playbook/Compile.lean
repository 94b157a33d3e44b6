import Playbook.Script

/-! From source text to scripts.

Each line is looked at on its own: it is blank or a comment, a section header, or a statement.
Compilation goes through the lines in order and ends at the first line that is wrong. -/

namespace Playbook

namespace Compile

structure Site where
  unit : String
  line : Nat

def Site.fail {α : Type} (site : Site) (fault : CompileFault) : Reading CompileError α :=
  .fail { unit := site.unit, line := site.line, fault }

def variableName? (t : Token) : Option String :=
  if t.quoted then none
  else match t.text.toList with
    | '$' :: name => some (String.ofList name)
    | _ => none

def isArrow (t : Token) : Bool := !t.quoted && t.text == "->"

/-- Splits the words behind an action's id into its arguments and its output variable. The first
unquoted arrow must be followed by one variable and nothing else. -/
def splitOutput : List Token → Option (List Token × Option String)
  | [] => some ([], none)
  | t :: ts =>
    if isArrow t then
      match ts with
      | [target] =>
        match variableName? target with
        | some name => if name = "" then none else some ([], some name)
        | none => none
      | _ => none
    else (splitOutput ts).map fun r => (t :: r.1, r.2)

def slotOf? (type : ParamType) (t : Token) : Option Slot :=
  match variableName? t with
  | some name => if name = "" then none else some (.ref type name)
  | none => some (.literal type t.text none)

def bindToken (site : Site) (action : String) (spec : ParamSpec) (t : Token) :
    Reading CompileError Slot :=
  match slotOf? spec.type t with
  | none => site.fail (.invalidVariable t.text)
  | some slot => slot.prime.mapError fun reason =>
      { unit := site.unit, line := site.line,
        fault := .invalidLiteral action spec.index spec.name t.text reason }

def bindParam (site : Site) (action : String) (args : List Token) (spec : ParamSpec) :
    Reading CompileError Slot :=
  match args[spec.index]?, spec.default with
  | some t, _ => bindToken site action spec t
  | none, some text => bindToken site action spec (.bare text)
  | none, none => site.fail (.missingArgument action spec.index spec.name)

def bindParams (site : Site) (action : String) (args : List Token) :
    List ParamSpec → Reading CompileError (List Slot)
  | [] => .ok []
  | spec :: specs => do
    let slot ← bindParam site action args spec
    let slots ← bindParams site action args specs
    return slot :: slots

def bindStatement (site : Site) (d : Definition) (args : List Token) (output : Option String) :
    Reading CompileError Action := do
  let slots ← bindParams site d.id args d.params
  let overflow := args.drop d.params.length
  if !overflow.isEmpty && !d.variadic then
    site.fail (.tooManyArguments d.id d.params.length args.length)
  else
    return { definition := d, slots, output, overflow, line := site.line }

def tokens (r : Registry) (site : Site) : List Token → Reading CompileError Action
  | [] => site.fail (.unknownAction "")
  | head :: rest =>
    match r.find? head.text with
    | none => site.fail (.unknownAction head.text)
    | some d =>
      match splitOutput rest with
      | none => site.fail .invalidOutput
      | some (args, output) => bindStatement site d args output

def action (r : Registry) (unit id : String) (args : List Token) : Reading CompileError Action :=
  tokens r { unit, line := 0 } (.bare id :: args)

inductive Line where
  | skip
  | header (name text : List Char)
  | statement (text : List Char)
  deriving DecidableEq

def Line.read (cs : List Char) : Line :=
  match Text.trim cs with
  | [] => .skip
  | '#' :: _ => .skip
  | ';' :: name => .header (Text.trim name) (Text.trim cs)
  | text => .statement text

/-- The part of a unit that has been compiled: statements in front of the first header, then each
section's name and statements. -/
structure Draft where
  main : List Action
  sections : List (String × List Action)

namespace Draft

def empty : Draft := { main := [], sections := [] }

def push (d : Draft) (a : Action) : Draft :=
  match d.sections.reverse with
  | [] => { d with main := d.main ++ [a] }
  | (name, actions) :: earlier =>
    { d with sections := earlier.reverse ++ [(name, actions ++ [a])] }

def openSection (d : Draft) (name : String) : Draft :=
  { d with sections := d.sections ++ [(name, [])] }

/-- The scripts of a finished unit. The default script is left out if it is empty and there are
sections. -/
def scripts (d : Draft) (r : Registry) (unit : String) : List Script :=
  let main : Script := { name := unit, heading := none, actions := d.main, registry := r }
  let sections := d.sections.map fun s =>
    { name := unit ++ "." ++ s.1, heading := some s.1, actions := s.2, registry := r : Script }
  if d.main.isEmpty && !d.sections.isEmpty then sections else main :: sections

end Draft

def line (r : Registry) (site : Site) (d : Draft) (cs : List Char) : Reading CompileError Draft :=
  match Line.read cs with
  | .skip => .ok d
  | .header name text =>
    if name.isEmpty || name.any Text.isBlank then
      site.fail (.invalidSection (String.ofList text))
    else if d.sections.any fun s => s.1 == String.ofList name then
      site.fail (.duplicateSection (String.ofList name))
    else .ok (d.openSection (String.ofList name))
  | .statement text =>
    match Token.scan text with
    | none => site.fail .unterminatedQuote
    | some ts => do
      let a ← tokens r site ts
      return d.push a

def linesFrom (r : Registry) (unit : String) (number : Nat) (d : Draft) :
    List (List Char) → Reading CompileError Draft
  | [] => .ok d
  | cs :: rest => do
    let d ← line r { unit, line := number } d cs
    linesFrom r unit (number + 1) d rest

end Compile

def compile (r : Registry) (unit source : String) : Reading CompileError ScriptUnit := do
  let draft ← Compile.linesFrom r unit 1 .empty (Text.lines source.toList)
  return { name := unit, scripts := draft.scripts r unit }

end Playbook
