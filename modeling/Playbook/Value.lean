import Playbook.Error
import Playbook.Text.Escape
import Playbook.Number.Decimal
import Playbook.Number.Shortest

/-! Values that memory holds and arguments produce. -/

namespace Playbook

abbrev ActorId := UInt64

/-- An object of the host that scripts only pass around: one that an action made while running,
numbered in order, or one that the host brought along under a serial number of its own, with
whatever content it has. -/
inductive Handle where
  | made (number : Nat)
  | brought (serial content : Nat)
  deriving DecidableEq, Repr

inductive Value where
  | bool (b : Bool)
  | int (i : Int64)
  | float (x : Float)
  | str (s : String)
  | list (items : List Value)
  | actor (id : ActorId)
  | object (h : Handle)

instance : Inhabited Value := ⟨.bool false⟩

namespace Value

def typeName : Value → String
  | .bool _ => "bool"
  | .int _ => "int"
  | .float _ => "float"
  | .str _ => "string"
  | .list _ => "list"
  | .actor _ => "actor"
  | .object _ => "opaque"

def floatOfInt (i : Int64) : Float := Float.ofInt i.toInt

def asFloat : Value → Option Float
  | .int i => some (floatOfInt i)
  | .float x => some x
  | _ => none

mutual

/-- Equality of values: an integer and a float are compared as floats, floats by their numeric
value (so a NaN differs from itself), lists item by item and objects by identity. -/
def same : Value → Value → Bool
  | .bool a, .bool b => a == b
  | .int a, .int b => a == b
  | .int a, .float b => floatOfInt a == b
  | .float a, .int b => a == floatOfInt b
  | .float a, .float b => a == b
  | .str a, .str b => a == b
  | .list as, .list bs => sameItems as bs
  | .actor a, .actor b => a == b
  | .object a, .object b => a == b
  | _, _ => false

def sameItems : List Value → List Value → Bool
  | [], [] => true
  | a :: as, b :: bs => same a b && sameItems as bs
  | _, _ => false

end

def actorText (id : ActorId) : String := "actor#" ++ Number.natText id.toNat

mutual

def text : Value → String
  | .bool b => toString b
  | .int i => Number.intText i.toInt
  | .float x => Number.floatText x
  | .str s => s
  | .list items => "[" ++ String.intercalate ", " (texts items) ++ "]"
  | .actor id => actorText id
  | .object _ => "<opaque>"

def texts : List Value → List String
  | [] => []
  | v :: vs => text v :: texts vs

end

mutual

def inspect : Value → String
  | .bool b => "Bool(" ++ toString b ++ ")"
  | .int i => "Int(" ++ Number.intText i.toInt ++ ")"
  | .float x => "Float(" ++ Number.floatText x ++ ")"
  | .str s => "Str(" ++ Text.escaped s ++ ")"
  | .list items => "List(" ++ Text.bracketed (inspectAll items) ++ ")"
  | .actor id => "Actor(" ++ Number.natText id.toNat ++ ")"
  | .object _ => "Opaque(..)"

def inspectAll : List Value → List String
  | [] => []
  | v :: vs => inspect v :: inspectAll vs

end

/-- The value that a text without a declared type denotes: a truth value, else an integer, else a
finite float, else the text itself. -/
def infer (text : String) : Value :=
  if text = "true" then .bool true
  else if text = "false" then .bool false
  else match Number.readSigned text.toList with
    | .ok i => .int i
    | .error _ =>
      match Number.readFloat text.toList with
      | .ok x => if x.isFinite then .float x else .str text
      | .error _ => .str text

def mismatch (expected : String) (found : Value) : RuntimeError :=
  .type expected found.typeName found.text

def toBool? : Value → Except RuntimeError Bool
  | .bool b => .ok b
  | v => .error (mismatch "bool" v)

def toInt? : Value → Except RuntimeError Int64
  | .int i => .ok i
  | v => .error (mismatch "int" v)

def toCount? (v : Value) : Except RuntimeError Nat :=
  match v.toInt? with
  | .error e => .error e
  | .ok i =>
    if i.toInt < 0 then
      .error (.type "non-negative int" "int" (Number.intText i.toInt ++ " is negative"))
    else .ok i.toInt.toNat

def toFloat? (v : Value) : Except RuntimeError Float :=
  match v.asFloat with
  | some x => .ok x
  | none => .error (mismatch "float" v)

def toText? : Value → Except RuntimeError String
  | .str s => .ok s
  | v => .error (mismatch "string" v)

def toItems? : Value → Except RuntimeError (List Value)
  | .list items => .ok items
  | v => .error (mismatch "list" v)

def toActor? : Value → Except RuntimeError ActorId
  | .actor id => .ok id
  | v => .error (mismatch "actor" v)

end Value

end Playbook
