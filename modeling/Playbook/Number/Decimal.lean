import Playbook.Number.Integer

/-! Floating-point numbers as decimal text.

The accepted texts are an optional sign followed by `inf`, `infinity` or `nan` in any letter case,
or by digits with an optional point among or around them and an optional exponent. A number is
rounded to the nearest double, ties to even; one that is too large becomes an infinity. -/

namespace Playbook.Number

inductive FloatFault where
  | empty
  | invalid
  deriving DecidableEq, Repr

def FloatFault.message : FloatFault → String
  | .empty => "cannot parse float from empty string"
  | .invalid => "invalid float literal"

structure Decimal where
  mantissa : Nat
  exponent : Int
  deriving DecidableEq, Repr

def isDigit (c : Char) : Bool := (digit? c).isSome

def digitsValue (cs : List Char) : Nat :=
  cs.foldl (fun n c => n * 10 + (digit? c).getD 0) 0

/-- The exponent part of a number, `e` or `E` and a signed run of digits, or nothing. -/
def readExponent : List Char → Option Int
  | [] => some 0
  | c :: cs =>
    if c = 'e' ∨ c = 'E' then
      match cs with
      | '-' :: ds => (magnitude ds).map fun n => -(n : Int)
      | '+' :: ds => (magnitude ds).map fun n => (n : Int)
      | ds => (magnitude ds).map fun n => (n : Int)
    else none
where
  magnitude (ds : List Char) : Option Nat :=
    if ds ≠ [] ∧ ds.all isDigit then some (digitsValue ds) else none

/-- An unsigned number: digits, an optional point, digits, an optional exponent, with a digit on
at least one side of the point. -/
def readDecimal (cs : List Char) : Option Decimal :=
  let whole := cs.takeWhile isDigit
  let rest := cs.dropWhile isDigit
  let (fraction, rest) :=
    match rest with
    | '.' :: tail => (tail.takeWhile isDigit, tail.dropWhile isDigit)
    | _ => ([], rest)
  if whole = [] ∧ fraction = [] then none
  else (readExponent rest).map fun e =>
    { mantissa := digitsValue (whole ++ fraction), exponent := e - fraction.length }

def infinity : Float := 1.0 / 0.0

def notANumber : Float := 0.0 / 0.0

/-- The nearest double. Numbers of a magnitude far outside the range of doubles are settled by
their number of digits. -/
def Decimal.toFloat (d : Decimal) : Float :=
  if d.mantissa = 0 then 0.0
  else
    let magnitude : Int := (Nat.toDigits 10 d.mantissa).length + d.exponent
    if magnitude > 400 then infinity
    else if magnitude < -400 then 0.0
    else Float.ofScientific d.mantissa (d.exponent < 0) d.exponent.natAbs

def readWord (cs : List Char) : Option Float :=
  let word := cs.map Char.toLower
  if word = ['i', 'n', 'f'] ∨ word = ['i', 'n', 'f', 'i', 'n', 'i', 't', 'y'] then some infinity
  else if word = ['n', 'a', 'n'] then some notANumber
  else none

def readUnsignedFloat (cs : List Char) : Except FloatFault Float :=
  match readDecimal cs with
  | some d => .ok d.toFloat
  | none =>
    match readWord cs with
    | some x => .ok x
    | none => .error .invalid

def readFloat : List Char → Except FloatFault Float
  | [] => .error .empty
  | '-' :: cs => (readUnsignedFloat cs).map fun x => -x
  | '+' :: cs => readUnsignedFloat cs
  | cs => readUnsignedFloat cs

end Playbook.Number
