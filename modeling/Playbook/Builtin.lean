import Playbook.Handler

/-! The built-in actions: control flow, chance, and values. -/

namespace Playbook

namespace Builtin

def definition (b : Builtin) (id description : String) (params : List ParamSpec)
    (variadic : Bool) : Definition :=
  { id, description, params, variadic, behaviour := .builtin b }

def definitions : List Definition :=
  [ definition .stop "Stop" "Stop the script" [] false,
    definition .stopIf "StopIf" "Stop the script when the condition is true"
      [.withDefault "condition" "Stop when true" .bool "$result"] false,
    definition .ifBlock "If" "Run the next actions only when the condition is true"
      [.required "condition" "Run the block when true" .bool,
       .required "count" "Number of actions in the block" .int] false,
    definition .repeatBlock "Repeat"
      "Repeat the next actions, optionally with a delay between runs"
      [.required "amount" "Number of iterations" .int,
       .required "offset" "Number of actions in the block" .int,
       .required "delay" "Milliseconds between iterations" .int] false,
    definition .forActor "For" "Run an action for one actor"
      [.required "actor" "Target actor" .actor, .required "action" "Action to run" .str] true,
    definition .forEach "ForEach" "Run an action once for every actor in a list"
      [.required "actors" "Target actors" .list, .required "action" "Action to run" .str] true,
    definition .randomInt "RandomInt" "Random integer in an inclusive range"
      [.required "min" "Lower bound" .int, .required "max" "Upper bound" .int] false,
    definition .randomFloat "RandomFloat" "Random number in an inclusive range"
      [.required "min" "Lower bound" .float, .required "max" "Upper bound" .float] false,
    definition .randomElement "RandomElement" "Pick one element of a list"
      [.required "list" "Collection" .list] false,
    definition .selectDistinct "SelectDistinct"
      "Pick distinct elements of a list without replacement"
      [.required "list" "Collection" .list, .required "count" "Number of elements" .int] false,
    definition .isEqualTo "IsEqualTo" "Compare two values"
      [.required "left" "" .any, .required "right" "" .any] false,
    definition .negate "Not" "Negate a condition" [.required "value" "" .bool] false,
    definition .store "Set" "Store a value" [.required "value" "" .any] false,
    definition .log "Log" "Write a message to the log" [.required "message" "" .str] true ]

open Prog

/-! ### Blocks -/

def blockAfter (count : Nat) : Prog (Nat × Nat) := do
  let c ← context
  let start := c.index + 1
  if c.len < start + count then .fail (c.outOfBounds (start + count))
  else return (start, start + count)

/-- Goes on behind a block that has run, never back over actions that were run or skipped. -/
def leaveBlock (past : Nat) : Prog PUnit := do
  let c ← context
  setIndex (max past c.index)

def ifBlockHandler : Handler := do
  let condition ← argumentAs 0 Value.toBool?
  let count ← argumentAs 1 Value.toCount?
  let (start, past) ← blockAfter count
  let stopped ← if condition then runBlock start past else pure none
  match stopped with
  | some flags => return flags
  | none => do
    leaveBlock past
    return .proceed

def iterate (start past : Nat) : Nat → Prog (Option Flags)
  | 0 => .done none
  | n + 1 => .block start past fun
    | .error e => .fail e
    | .ok (some flags) => .done (some flags)
    | .ok none => iterate start past n

def repeatHandler : Handler := do
  let amount ← argumentAs 0 Value.toCount?
  let offset ← argumentAs 1 Value.toCount?
  let delay ← argumentAs 2 Value.toCount?
  let (start, past) ← blockAfter offset
  if delay = 0 ∨ amount = 0 then
    match ← iterate start past amount with
    | some flags => return flags
    | none => do
      leaveBlock past
      return .proceed
  else do
    setIndex past
    suspend { start, stop := past, remaining := amount, interval := delay }
    return .pause

/-! ### Actors -/

def unpackTarget : Memo → Option Action
  | .target a => some a
  | _ => none

/-- The action that a For statement runs, compiled once per context and position. -/
def target : Prog Action := do
  let id ← argumentAs 1 Value.toText?
  let c ← context
  remembered ("sub_dispatch.target." ++ Number.natText c.index) .target unpackTarget <|
    let overflow := match c.current with
      | some a => a.overflow
      | none => []
    .perform (.compile id overflow) fun r => ofExcept (r.mapError RuntimeError.compile)

def runFor (actors : List ActorId) : Handler := do
  let a ← target
  .each a actors (.done .proceed)

/-- The actors that the items of a list name; a plain number names an actor by its id. -/
def actorsOf : List Value → Except RuntimeError (List ActorId)
  | [] => .ok []
  | v :: vs => do
    let id ← match v with
      | .int i => if i.toInt < 0 then v.toActor? else .ok (UInt64.ofNat i.toInt.toNat)
      | v => v.toActor?
    let ids ← actorsOf vs
    return id :: ids

def forHandler : Handler := do
  let id ← argumentAs 0 Value.toActor?
  runFor [id]

def forEachHandler : Handler := do
  let items ← argumentAs 0 Value.toItems?
  let ids ← ofExcept (actorsOf items)
  runFor ids

/-! ### Chance -/

def pickInt (low high : Int64) (throw : Nat) : Int64 :=
  Int64.ofInt (low.toInt + (throw % (high.toInt - low.toInt + 1).toNat : Nat))

def randomIntHandler : Handler := do
  let low ← argumentAs 0 Value.toInt?
  let high ← argumentAs 1 Value.toInt?
  if high < low then
    .fail (.invalidRange (Number.intText low.toInt) (Number.intText high.toInt))
  else do
    let n ← throwDice
    setResult (.int (pickInt low high n))
    return .proceed

def randomFloatHandler : Handler := do
  let low ← argumentAs 0 Value.toFloat?
  let high ← argumentAs 1 Value.toFloat?
  if high < low || low.isNaN || high.isNaN then
    .fail (.invalidRange (Number.floatText low) (Number.floatText high))
  else if low == high then do
    setResult (.float low)
    return .proceed
  else do
    let x ← throwFloat low high
    setResult (.float x)
    return .proceed

def randomElementHandler : Handler := do
  let items ← argumentAs 0 Value.toItems?
  if items.isEmpty then .fail .emptyCollection
  else do
    let n ← throwDice
    match items[n % items.length]? with
    | none => .fail .emptyCollection
    | some v => do
      setResult v
      return .proceed

def draw (items : List Value) : Nat → Prog (List Value)
  | 0 => .done []
  | n + 1 => .perform .throwDice fun (throw : Nat) =>
    match items[throw % items.length]? with
    | none => .done []
    | some v => (draw (items.eraseIdx (throw % items.length)) n).bind fun vs => .done (v :: vs)

def selectDistinctHandler : Handler := do
  let items ← argumentAs 0 Value.toItems?
  let count ← argumentAs 1 Value.toCount?
  if items.length < count then .fail (.insufficientElements count items.length)
  else do
    let picked ← draw items count
    setResult (.list picked)
    return .proceed

/-! ### Values -/

/-- The words that further arguments of a log statement give: the texts of variables, and other
words as they are. -/
def logWords (c : Context) : List Token → Except RuntimeError (List String)
  | [] => .ok []
  | t :: ts => do
    let word ← match Compile.variableName? t with
      | some name => (c.get name).map Value.text
      | none => .ok t.text
    let words ← logWords c ts
    return word :: words

def logHandler : Handler := do
  let first ← argumentAs 0 Value.toText?
  let c ← context
  let overflow := match c.current with
    | some a => a.overflow
    | none => []
  let words ← ofExcept (logWords c overflow)
  Prog.log { level := .info, message := String.intercalate " " (first :: words),
             origin := some { script := c.script, actor := c.actor } }
  return .proceed

def stopIfHandler : Handler := do
  let condition ← argumentAs 0 Value.toBool?
  return if condition then .halt else .proceed

def isEqualToHandler : Handler := do
  let left ← argument 0
  let right ← argument 1
  setResult (.bool (left.same right))
  return .proceed

def negateHandler : Handler := do
  let b ← argumentAs 0 Value.toBool?
  setResult (.bool !b)
  return .proceed

def storeHandler : Handler := do
  let v ← argument 0
  setResult v
  return .proceed

def handler : Builtin → Handler
  | .stop => .done .halt
  | .stopIf => stopIfHandler
  | .ifBlock => ifBlockHandler
  | .repeatBlock => repeatHandler
  | .forActor => forHandler
  | .forEach => forEachHandler
  | .randomInt => randomIntHandler
  | .randomFloat => randomFloatHandler
  | .randomElement => randomElementHandler
  | .selectDistinct => selectDistinctHandler
  | .isEqualTo => isEqualToHandler
  | .negate => negateHandler
  | .store => storeHandler
  | .log => logHandler

end Builtin

def Builder.registerBuiltins (b : Builder) : Except RegistryError Unit × Builder :=
  b.registerAll Builtin.definitions

def Registry.builtins : Registry := Builder.empty.registerBuiltins.2.registry

end Playbook
