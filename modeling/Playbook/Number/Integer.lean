/-! Integers as decimal text.

A text is read from left to right and the first fault wins, so a long run of digits followed by a
letter is too large, while a letter in front of the overflow is an invalid digit. -/

namespace Playbook.Number

inductive IntegerFault where
  | empty
  | invalidDigit
  | tooLarge
  | tooSmall
  deriving DecidableEq, Repr

def IntegerFault.message : IntegerFault → String
  | .empty => "cannot parse integer from empty string"
  | .invalidDigit => "invalid digit found in string"
  | .tooLarge => "number too large to fit in target type"
  | .tooSmall => "number too small to fit in target type"

def digit? (c : Char) : Option Nat :=
  if '0' ≤ c ∧ c ≤ '9' then some (c.toNat - '0'.toNat) else none

def readDigits (limit : Nat) (excess : IntegerFault) (acc : Nat) :
    List Char → Except IntegerFault Nat
  | [] => .ok acc
  | c :: cs =>
    match digit? c with
    | none => .error .invalidDigit
    | some d =>
      if acc * 10 + d ≤ limit then readDigits limit excess (acc * 10 + d) cs else .error excess

/-- A magnitude: at least one digit. A sign with nothing behind it is an invalid digit. -/
def readMagnitude (limit : Nat) (excess : IntegerFault) : List Char → Except IntegerFault Nat
  | [] => .error .invalidDigit
  | cs => readDigits limit excess 0 cs

def readSigned : List Char → Except IntegerFault Int64
  | [] => .error .empty
  | '-' :: cs =>
    (readMagnitude 0x8000000000000000 .tooSmall cs).map fun n => Int64.ofInt (-(n : Int))
  | '+' :: cs => (readMagnitude 0x7FFFFFFFFFFFFFFF .tooLarge cs).map fun n => Int64.ofInt n
  | cs => (readMagnitude 0x7FFFFFFFFFFFFFFF .tooLarge cs).map fun n => Int64.ofInt n

/-- An unsigned 64-bit integer with an optional `+`; a `-` is an invalid digit. -/
def readUnsigned : List Char → Except IntegerFault UInt64
  | [] => .error .empty
  | '+' :: cs => (readMagnitude 0xFFFFFFFFFFFFFFFF .tooLarge cs).map UInt64.ofNat
  | cs => (readMagnitude 0xFFFFFFFFFFFFFFFF .tooLarge cs).map UInt64.ofNat

def natText (n : Nat) : String := String.ofList (Nat.toDigits 10 n)

def intText (i : Int) : String :=
  if i < 0 then "-" ++ natText i.natAbs else natText i.natAbs

end Playbook.Number
