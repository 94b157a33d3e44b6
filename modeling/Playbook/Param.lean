import Playbook.Value
import Playbook.Text.Blank

/-! Declared types of parameters, and the readings they make of texts and values.

A declared type reads the text of a literal argument (`parse`) and the value of a variable
(`accept`). Every reading of a text is a call worth counting, because a host may supply a type of
its own, so the computations here carry the calls they made, also when they fail. -/

namespace Playbook

/-- What a host's own type makes of a value: the texts that it reads on the way, in order, and a
value or an error. -/
structure Conversion where
  texts : List String
  result : Except RuntimeError Value

structure Reader where
  name : String
  parse : String → Except String Value
  accept : Value → Conversion

/-- The values of variables as a type takes them that says nothing about it: a string is read like
a literal, and every other value stays as it is. -/
def Reader.defaultAccept (name : String) (parse : String → Except String Value) :
    Value → Conversion
  | .str s => { texts := [s], result := (parse s).mapError (.type name "string") }
  | v => { texts := [], result := .ok v }

def Reader.plain (name : String) (parse : String → Except String Value) : Reader :=
  { name, parse, accept := defaultAccept name parse }

inductive ParamType where
  | bool
  | int
  | float
  | str
  | list
  | actor
  | any
  | custom (reader : Reader)

namespace ParamType

def name : ParamType → String
  | .bool => "bool"
  | .int => "int"
  | .float => "float"
  | .str => "string"
  | .list => "list"
  | .actor => "actor"
  | .any => "any"
  | .custom r => r.name

def parseBool (text : String) : Except String Value :=
  let word := text.toList.map Char.toLower
  if word = ['t', 'r', 'u', 'e'] then .ok (.bool true)
  else if word = ['f', 'a', 'l', 's', 'e'] then .ok (.bool false)
  else .error "expected true or false"

/-- Items between commas, each inferred from its trimmed text. A blank text is the empty list. -/
def parseList (cs : List Char) : List Value :=
  if Text.trim cs = [] then []
  else (Text.pieces ',' cs).map fun item => Value.infer (String.ofList (Text.trim item))

def parse (type : ParamType) (text : String) : Except String Value :=
  match type with
  | .bool => parseBool text
  | .int =>
    match Number.readSigned text.toList with
    | .ok i => .ok (.int i)
    | .error e => .error e.message
  | .float =>
    match Number.readFloat text.toList with
    | .ok x => .ok (.float x)
    | .error e => .error e.message
  | .str => .ok (.str text)
  | .list => .ok (.list (parseList text.toList))
  | .actor =>
    match Number.readUnsigned (text.toList.dropWhile (· = '#')) with
    | .ok id => .ok (.actor id)
    | .error e => .error e.message
  | .any => .ok (Value.infer text)
  | .custom r => r.parse text

end ParamType

structure ParseCall where
  type : ParamType
  text : String

structure Reading (ε α : Type) where
  result : Except ε α
  calls : List ParseCall

namespace Reading

variable {ε ε' α β : Type}

def ok (a : α) : Reading ε α := { result := .ok a, calls := [] }

def fail (e : ε) : Reading ε α := { result := .error e, calls := [] }

def bind (x : Reading ε α) (f : α → Reading ε β) : Reading ε β :=
  match x.result with
  | .ok a =>
    let y := f a
    { result := y.result, calls := x.calls ++ y.calls }
  | .error e => { result := .error e, calls := x.calls }

instance : Monad (Reading ε) where
  pure := ok
  bind := bind

def mapError (f : ε → ε') (x : Reading ε α) : Reading ε' α :=
  { result := x.result.mapError f, calls := x.calls }

@[simp] theorem result_pure (a : α) : (pure a : Reading ε α).result = .ok a := rfl

@[simp] theorem calls_pure (a : α) : (pure a : Reading ε α).calls = [] := rfl

@[simp] theorem result_fail (e : ε) : (fail e : Reading ε α).result = .error e := rfl

@[simp] theorem calls_fail (e : ε) : (fail e : Reading ε α).calls = [] := rfl

@[simp] theorem result_bind (x : Reading ε α) (f : α → Reading ε β) :
    (x >>= f).result = x.result >>= fun a => (f a).result := by
  cases h : x.result <;> simp [Bind.bind, bind, Except.bind, h]

@[simp] theorem result_mapError (f : ε → ε') (x : Reading ε α) :
    (x.mapError f).result = x.result.mapError f := rfl

@[simp] theorem calls_mapError (f : ε → ε') (x : Reading ε α) :
    (x.mapError f).calls = x.calls := rfl

end Reading

namespace ParamType

def read (type : ParamType) (text : String) : Reading String Value :=
  { result := type.parse text, calls := [{ type, text }] }

def readValue (type : ParamType) (text : String) : Reading RuntimeError Value :=
  (type.read text).mapError fun reason => .type type.name "string" reason

def rejection (type : ParamType) (v : Value) : RuntimeError :=
  .type type.name v.typeName v.text

/-- The value of a variable as a value of the declared type. A string is read like a literal,
except where strings are wanted as they are; a host's own type says itself what it takes. -/
def accept (type : ParamType) (v : Value) : Reading RuntimeError Value :=
  match type, v with
  | .any, v => .ok v
  | .custom r, v =>
    { result := (r.accept v).result
      calls := (r.accept v).texts.map fun text => { type := .custom r, text } }
  | .str, .str s => .ok (.str s)
  | .str, .bool b => .ok (.str (Value.bool b).text)
  | .str, .int i => .ok (.str (Value.int i).text)
  | .str, .float x => .ok (.str (Value.float x).text)
  | .str, .actor id => .ok (.str (Value.actor id).text)
  | .bool, .str s => ParamType.bool.readValue s
  | .int, .str s => ParamType.int.readValue s
  | .float, .str s => ParamType.float.readValue s
  | .list, .str s => ParamType.list.readValue s
  | .actor, .str s => ParamType.actor.readValue s
  | .bool, .bool b => .ok (.bool b)
  | .int, .int i => .ok (.int i)
  | .float, .float x => .ok (.float x)
  | .float, .int i => .ok (.float (Value.floatOfInt i))
  | .list, .list items => .ok (.list items)
  | .actor, .actor id => .ok (.actor id)
  | .actor, .int i =>
    if i.toInt < 0 then .fail (rejection .actor (.int i))
    else .ok (.actor (UInt64.ofNat i.toInt.toNat))
  | type, v => .fail (type.rejection v)

end ParamType

/-- One positional parameter of an action. `default` is the argument text that stands in when a
statement leaves the parameter out; `index` is its position, given on registration. -/
structure ParamSpec where
  name : String
  description : String
  type : ParamType
  default : Option String
  index : Nat

namespace ParamSpec

def required (name description : String) (type : ParamType) : ParamSpec :=
  { name, description, type, default := none, index := 0 }

def withDefault (name description : String) (type : ParamType) (text : String) : ParamSpec :=
  { name, description, type, default := some text, index := 0 }

def isOptional (p : ParamSpec) : Bool := p.default.isSome

def inspect (p : ParamSpec) : String :=
  Text.record "ParameterSpec"
    [("name", Text.escaped p.name), ("description", Text.escaped p.description),
     ("ty", p.type.name), ("default", Text.optional (p.default.map Text.escaped)),
     ("index", toString p.index)] false

end ParamSpec

end Playbook
