import Playbook.Dispatch

/-! A host for trying scripts out.

Its actions note what they see, move the cursor, fail, panic, stop, suspend and dispose, so that
every part of the system can be exercised from a script. -/

namespace Playbook.Probe

open Prog

def even : Reader :=
  .plain "even" fun text =>
    match Number.readSigned text.toList with
    | .error _ => .error "not a number"
    | .ok i => if i.toInt % 2 = 0 then .ok (.int i) else .error "odd number"

def definition (id : String) (params : List ParamSpec) (variadic : Bool) : Definition :=
  { id, description := "", params, variadic, behaviour := .host id }

def param (name : String) (type : ParamType) : ParamSpec := .required name "" type

def paramOr (name : String) (type : ParamType) (text : String) : ParamSpec :=
  .withDefault name "" type text

def definitions : List Definition :=
  [ definition "Mark" [param "value" .any] false,
    definition "Visit" [param "n" .int] false,
    definition "Where" [] false,
    definition "Jump" [param "to" .int] false,
    definition "JumpOnce" [param "to" .int, param "flag" .str] false,
    definition "JumpWhile" [param "name" .str, param "limit" .int, param "to" .int] false,
    definition "Add" [param "name" .str, paramOr "by" .int "1"] false,
    definition "Boom" [paramOr "message" .str "boom"] false,
    definition "BoomStatic" [] false,
    definition "BoomOther" [] false,
    definition "Flags" [param "bits" .int] false,
    definition "Fail" [param "kind" .str] false,
    definition "Slot" [param "slot" .int] false,
    definition "TakeBool" [param "value" .bool] false,
    definition "TakeInt" [param "value" .int] false,
    definition "TakeFloat" [param "value" .float] false,
    definition "TakeStr" [param "value" .str] false,
    definition "TakeList" [param "value" .list] false,
    definition "TakeActor" [param "value" .actor] false,
    definition "TakeAny" [param "value" .any] false,
    definition "TakeEven" [param "value" (.custom even)] false,
    definition "ArgAs" [param "type" .str, param "value" .any] false,
    definition "Defaults"
      [param "a" .int, paramOr "b" .str "two words", paramOr "c" .any "$result"] false,
    definition "Rest" [param "first" .any] true,
    definition "MemoInt" [param "key" .str, param "n" .int] false,
    definition "MemoStr" [param "key" .str, param "s" .str] false,
    definition "Park"
      [param "start" .int, param "end" .int, param "remaining" .int, param "ms" .int,
       paramOr "bits" .int "2"] false,
    definition "DisposeSelf" [paramOr "bits" .int "1"] false,
    definition "Nest" [param "start" .int, param "end" .int] false,
    definition "MakeOpaque" [] false,
    definition "Who" [] false,
    definition "SetActor" [param "id" .actor] false,
    definition "Unset" [param "name" .str] false,
    definition "SortVar" [param "name" .str] false,
    definition "InRange" [param "name" .str, param "min" .float, param "max" .float] false,
    definition "OneOf" [param "name" .str, param "list" .list] false,
    definition "Cancel" [] false ]

/-! ### Looking -/

def mark : Handler := do
  let v ← argument 0
  note [v]
  return .proceed

/-- Notes a number, and refuses to do so for actor 2. -/
def visit : Handler := do
  let c ← context
  if c.actor = some 2 then .fail .emptyCollection
  else do
    let n ← argumentAs 0 Value.toInt?
    note [.int n]
    return .proceed

def idOf (a : Option Action) : Value :=
  match a with
  | some a => .str a.id
  | none => .str ""

def whereAmI : Handler := do
  let c ← context
  note [.str c.script, idOf c.current, idOf c.previous, idOf c.next, .int (Int64.ofNat c.len)]
  return .proceed

def slot : Handler := do
  let n ← argumentAs 0 Value.toCount?
  let v ← argument n
  note [v]
  return .proceed

def take : Handler := do
  let v ← argument 0
  note [v]
  setResult v
  return .proceed

def readAs (type : String) (v : Value) : Except RuntimeError Value :=
  match type with
  | "bool" => v.toBool?.map Value.bool
  | "int" => v.toInt?.map Value.int
  | "usize" => v.toCount?.map fun n => .int (Int64.ofNat n)
  | "float" => v.toFloat?.map Value.float
  | "string" => v.toText?.map Value.str
  | "list" => v.toItems?.map Value.list
  | "actor" => v.toActor?.map Value.actor
  | _ => .ok v

def argAs : Handler := do
  let type ← argumentAs 0 Value.toText?
  let v ← argumentAs 1 (readAs type)
  setResult v
  return .proceed

def defaults : Handler := do
  let a ← argument 0
  let b ← argument 1
  let c ← argument 2
  note [a, b, c]
  return .proceed

def rest : Handler := do
  let v ← argument 0
  let c ← context
  let overflow := match c.current with
    | some a => a.overflow
    | none => []
  note (v :: overflow.flatMap fun t => [.str t.text, .bool t.quoted])
  return .proceed

/-! ### Moving -/

def jump : Handler := do
  let target ← argumentAs 0 Value.toCount?
  setIndex target
  return .proceed

def jumpOnce : Handler := do
  let target ← argumentAs 0 Value.toCount?
  let flag ← argumentAs 1 Value.toText?
  let c ← context
  if (c.lookup flag).isNone then do
    setVariable flag (.bool true)
    setIndex target
    return .proceed
  else return .proceed

def variableAs {α : Type} (name : String) (read : Value → Except RuntimeError α) : Prog α := do
  let c ← context
  let v ← ofExcept (c.get name)
  ofExcept (read v)

def jumpWhile : Handler := do
  let name ← argumentAs 0 Value.toText?
  let limit ← argumentAs 1 Value.toInt?
  let target ← argumentAs 2 Value.toCount?
  let n ← variableAs name Value.toInt?
  if n < limit then do
    setIndex target
    return .proceed
  else return .proceed

def nest : Handler := do
  let start ← argumentAs 0 Value.toCount?
  let stop ← argumentAs 1 Value.toCount?
  match ← Prog.runBlock start stop with
  | some flags => return flags
  | none => return .proceed

/-! ### Ending -/

def flagsOf (bits : Int64) : Flags := .ofBits (bits.toInt % 256).toNat

def flags : Handler := do
  let bits ← argumentAs 0 Value.toInt?
  return flagsOf bits

def boom : Handler := do
  let message ← argumentAs 0 Value.toText?
  .panic message

def failureOf (kind : String) : RuntimeError :=
  match kind with
  | "empty" => .emptyCollection
  | "nocurrent" => .noCurrentAction
  | "metadata" => .metadata "m"
  | "notfound" => .registry (.notFound "Nope")
  | _ => .undefinedVariable kind

def failWith : Handler := do
  let kind ← argumentAs 0 Value.toText?
  .fail (failureOf kind)

def park : Handler := do
  let start ← argumentAs 0 Value.toCount?
  let stop ← argumentAs 1 Value.toCount?
  let remaining ← argumentAs 2 Value.toCount?
  let ms ← argumentAs 3 Value.toCount?
  let bits ← argumentAs 4 Value.toInt?
  suspend { start, stop, remaining, interval := ms }
  return flagsOf bits

def disposeSelf : Handler := do
  let bits ← argumentAs 0 Value.toInt?
  .perform .dispose fun _ => .done (flagsOf bits)

def cancel : Handler := .perform .cancel fun _ => .done .proceed

/-! ### Remembering -/

def add : Handler := do
  let name ← argumentAs 0 Value.toText?
  let amount ← argumentAs 1 Value.toInt?
  let c ← context
  let old ← if (c.lookup name).isNone then pure 0 else variableAs name Value.toInt?
  setVariable name (.int (old + amount))
  return .proceed

def unpackInt : Memo → Option Int64
  | .int i => some i
  | _ => none

def unpackText : Memo → Option String
  | .text s => some s
  | _ => none

def memoInt : Handler := do
  let key ← argumentAs 0 Value.toText?
  let n ← remembered key .int unpackInt (argumentAs 1 Value.toInt?)
  setResult (.int n)
  return .proceed

def memoStr : Handler := do
  let key ← argumentAs 0 Value.toText?
  let s ← remembered key .text unpackText (argumentAs 1 Value.toText?)
  setResult (.str s)
  return .proceed

def makeObject : Handler :=
  .perform .newObject fun h => do
    setResult (.object h)
    return .proceed

def who : Handler := do
  let c ← context
  setResult (match c.actor with
    | some id => .actor id
    | none => .str "nobody")
  return .proceed

def setActor : Handler := do
  let id ← argumentAs 0 Value.toActor?
  .perform (.setActor (some id)) fun _ => .done .proceed

def unset : Handler := do
  let name ← argumentAs 0 Value.toText?
  let old ← removeVariable name
  setResult (.bool old.isSome)
  return .proceed

def sortVar : Handler := do
  let name ← argumentAs 0 Value.toText?
  let items ← variableAs name Value.toItems?
  setVariable name (.list (items.mergeSort fun a b => decide (a.text ≤ b.text)))
  return .proceed

def inRange : Handler := do
  let name ← argumentAs 0 Value.toText?
  let low ← argumentAs 1 Value.toFloat?
  let high ← argumentAs 2 Value.toFloat?
  let x ← variableAs name Value.toFloat?
  let _ ← removeVariable name
  setResult (.bool (low ≤ x && x ≤ high))
  return .proceed

def oneOf : Handler := do
  let name ← argumentAs 0 Value.toText?
  let items ← argumentAs 1 Value.toItems?
  let v ← variableAs name .ok
  let _ ← removeVariable name
  setResult (.bool (items.any fun item => item.same v))
  return .proceed

def handlers : Handlers := fun name =>
  match name with
  | "Mark" => mark
  | "Visit" => visit
  | "Where" => whereAmI
  | "Jump" => jump
  | "JumpOnce" => jumpOnce
  | "JumpWhile" => jumpWhile
  | "Add" => add
  | "Boom" => boom
  | "BoomStatic" => .panic "static boom"
  | "BoomOther" => .panic "unknown panic"
  | "Flags" => flags
  | "Fail" => failWith
  | "Slot" => slot
  | "TakeBool" => take
  | "TakeInt" => take
  | "TakeFloat" => take
  | "TakeStr" => take
  | "TakeList" => take
  | "TakeActor" => take
  | "TakeAny" => take
  | "TakeEven" => take
  | "ArgAs" => argAs
  | "Defaults" => defaults
  | "Rest" => rest
  | "MemoInt" => memoInt
  | "MemoStr" => memoStr
  | "Park" => park
  | "DisposeSelf" => disposeSelf
  | "Nest" => nest
  | "MakeOpaque" => makeObject
  | "Who" => who
  | "SetActor" => setActor
  | "Unset" => unset
  | "SortVar" => sortVar
  | "InRange" => inRange
  | "OneOf" => oneOf
  | "Cancel" => cancel
  | _ => .done .proceed

end Playbook.Probe
