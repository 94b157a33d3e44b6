import Playbook.Registry
import Playbook.Token

/-! Compiled statements.

An action is a definition with its arguments bound. A literal argument has room for its value, which
is filled the first time that the text is read; a variable is looked up and converted each time. -/

namespace Playbook

/-- A bound argument. The value of a literal is there once its text has been read. -/
inductive Slot where
  | literal (type : ParamType) (text : String) (cached : Option Value)
  | ref (type : ParamType) (name : String)

namespace Slot

def type : Slot → ParamType
  | .literal t _ _ => t
  | .ref t _ => t

def raw : Slot → String
  | .literal _ text _ => text
  | .ref _ name => name

def value? : Slot → Option Value
  | .literal _ _ v => v
  | .ref _ _ => none

def kindName : Slot → String
  | .literal _ _ _ => "Literal"
  | .ref _ _ => "Variable"

def prime : Slot → Reading String Slot
  | .literal type text none => do
    let v ← type.read text
    return .literal type text (some v)
  | s => .ok s

/-- The value of an argument, where `lookup` gives the values of variables, and the slot as it is
from then on. A literal that has not been read before is read now. -/
def resolve (s : Slot) (lookup : String → Option Value) : Reading RuntimeError (Value × Slot) :=
  match s with
  | .literal _ _ (some v) => .ok (v, s)
  | .literal type text none => do
    let v ← type.readValue text
    return (v, .literal type text (some v))
  | .ref type name =>
    match lookup name with
    | none => .fail (.undefinedVariable name)
    | some v => do
      let v ← type.accept v
      return (v, s)

/-- The value of an argument. There is nothing to keep of the slot if its value was there already,
as it is in compiled actions. -/
def read (s : Slot) (lookup : String → Option Value) : Reading RuntimeError Value := do
  let (v, _) ← s.resolve lookup
  return v

@[simp] theorem read_cached (type : ParamType) (text : String) (v : Value)
    (lookup : String → Option Value) : (literal type text (some v)).read lookup = .ok v := rfl

theorem read_ref (type : ParamType) (name : String) (lookup : String → Option Value) :
    (ref type name).read lookup =
      match lookup name with
      | none => .fail (.undefinedVariable name)
      | some v => type.accept v := by
  simp only [read, resolve]
  cases lookup name with
  | none => rfl
  | some v =>
    simp only [Bind.bind, Reading.bind]
    cases h : (type.accept v).result <;> simp [pure, Reading.ok, ← h]

def toSource : Slot → String
  | .literal _ text _ => Token.quote text
  | .ref _ name => "$" ++ name

def inspect (s : Slot) : String :=
  Text.record "CompiledParameter"
    [("raw", Text.escaped s.raw), ("kind", s.kindName), ("ty", s.type.name),
     ("literal", Text.optional (s.value?.map Value.inspect))] false

end Slot

structure Action where
  definition : Definition
  slots : List Slot
  output : Option String
  overflow : List Token
  line : Nat

namespace Action

def id (a : Action) : String := a.definition.id

def words (a : Action) : List String :=
  [a.id] ++ a.slots.map Slot.toSource ++ a.overflow.map Token.toSource ++
    (match a.output with
     | some name => ["->", "$" ++ name]
     | none => [])

def toSource (a : Action) : String := String.intercalate " " a.words

def inspect (a : Action) : String :=
  Text.record "CompiledAction"
    [("id", Text.escaped a.id), ("params", Text.bracketed (a.slots.map Slot.inspect)),
     ("output", Text.optional (a.output.map Text.escaped)),
     ("overflow", Text.bracketed (a.overflow.map Token.inspect)),
     ("line", toString a.line)] false

end Action

end Playbook
