import Playbook.Toml.Text

/-! Values of TOML documents that are written as a word: booleans, numbers, dates and times. -/

namespace Playbook.Toml

inductive Scalar where
  | text (s : String)
  | integer (n : Int)
  | bool (b : Bool)
  /-- A value that no setting has: a fraction, a date or time, an array, a table in braces. -/
  | other
  deriving DecidableEq, Repr

/-- The characters of words. None of them may follow a value directly. -/
def isWordChar (c : Char) : Bool :=
  ('0' ≤ c && c ≤ '9') || ('a' ≤ c && c ≤ 'z') || ('A' ≤ c && c ≤ 'Z') ||
    c == '+' || c == '-' || c == '_' || c == '.' || c == ':'

def isDigit (c : Char) : Bool := '0' ≤ c && c ≤ '9'

def isGrouped (digit : Char → Bool) : List Char → Bool
  | [] => false
  | [c] => digit c
  | c :: '_' :: cs => digit c && isGrouped digit cs
  | c :: cs => digit c && isGrouped digit cs

def withoutSign : List Char → List Char
  | '+' :: cs => cs
  | '-' :: cs => cs
  | cs => cs

def ungrouped (cs : List Char) : List Char := cs.filter (· != '_')

def isWhole (cs : List Char) : Bool :=
  isGrouped isDigit cs && (cs.length == 1 || cs.head? != some '0')

def ofBase? (base : Nat) (cs : List Char) : Option Int :=
  let digit := fun c => match hexDigit? c with
    | some d => decide (d < base)
    | none => false
  if isGrouped digit cs then
    let n := (ungrouped cs).foldl (fun n c => n * base + (hexDigit? c).getD 0) 0
    if n < 0x8000000000000000 then some n else none
  else none

def integer? (cs : List Char) : Option Int :=
  match cs with
  | '0' :: 'x' :: digits => ofBase? 16 digits
  | '0' :: 'o' :: digits => ofBase? 8 digits
  | '0' :: 'b' :: digits => ofBase? 2 digits
  | _ =>
    if isWhole (withoutSign cs) then
      match Number.readSigned (ungrouped cs) with
      | .ok i => some i.toInt
      | .error _ => none
    else none

def isExponent : List Char → Bool
  | c :: cs => (c == 'e' || c == 'E') && isGrouped isDigit (withoutSign cs)
  | [] => false

def isDigitOrGap (c : Char) : Bool := isDigit c || c == '_'

def hasFractionForm (cs : List Char) : Bool :=
  let cs := withoutSign cs
  isWhole (cs.takeWhile isDigitOrGap) &&
    match cs.dropWhile isDigitOrGap with
    | '.' :: rest =>
      let exponent := rest.dropWhile isDigitOrGap
      isGrouped isDigit (rest.takeWhile isDigitOrGap) && (exponent.isEmpty || isExponent exponent)
    | rest => isExponent rest

/-- A fraction that is not too large, or one of the words for infinity and undefined results. -/
def isFraction (cs : List Char) : Bool :=
  let word := withoutSign cs
  if word = ['i', 'n', 'f'] ∨ word = ['n', 'a', 'n'] then true
  else hasFractionForm cs &&
    match Number.readFloat (ungrouped cs) with
    | .ok x => x.toBits != Number.infinity.toBits
    | .error _ => false

/-! ### Dates and times -/

def isPair (low high : Nat) (a b : Char) : Bool :=
  isDigit a && isDigit b &&
    let n := Number.digitsValue [a, b]
    low ≤ n && n ≤ high

def daysInMonth (year month : Nat) : Nat :=
  if month = 2 then
    if year % 4 = 0 ∧ (year % 100 ≠ 0 ∨ year % 400 = 0) then 29 else 28
  else if month = 4 ∨ month = 6 ∨ month = 9 ∨ month = 11 then 30
  else 31

def isDate (cs : List Char) : Bool :=
  match cs with
  | [y₁, y₂, y₃, y₄, '-', m₁, m₂, '-', d₁, d₂] =>
    [y₁, y₂, y₃, y₄].all isDigit && isPair 1 12 m₁ m₂ &&
      isPair 1 (daysInMonth (Number.digitsValue [y₁, y₂, y₃, y₄]) (Number.digitsValue [m₁, m₂]))
        d₁ d₂
  | _ => false

def isOffset (cs : List Char) : Bool :=
  match cs with
  | [] => true
  | [c] => c == 'Z' || c == 'z'
  | [s, h₁, h₂, ':', m₁, m₂] => (s == '+' || s == '-') && isPair 0 23 h₁ h₂ && isPair 0 59 m₁ m₂
  | _ => false

def time? (cs : List Char) : Option (List Char) :=
  match cs with
  | h₁ :: h₂ :: ':' :: m₁ :: m₂ :: ':' :: s₁ :: s₂ :: rest =>
    if isPair 0 23 h₁ h₂ && isPair 0 59 m₁ m₂ && isPair 0 60 s₁ s₂ then
      match rest with
      | '.' :: decimals =>
        if decimals.head?.any isDigit then some (decimals.dropWhile isDigit) else none
      | rest => some rest
    else none
  | _ => none

def isTime (cs : List Char) : Bool := (time? cs).any List.isEmpty

def isTimeWithOffset (cs : List Char) : Bool := (time? cs).any isOffset

def isDateTime (cs : List Char) : Bool :=
  isDate (cs.take 10) &&
    match cs.drop 10 with
    | c :: rest => (c == 'T' || c == 't') && isTimeWithOffset rest
    | [] => false

def word? (cs : List Char) : Option Scalar :=
  if cs = ['t', 'r', 'u', 'e'] then some (.bool true)
  else if cs = ['f', 'a', 'l', 's', 'e'] then some (.bool false)
  else if isDate cs || isTime cs || isDateTime cs || isFraction cs then some .other
  else (integer? cs).map .integer

def readWord (cs : List Char) : Option (Scalar × List Char) :=
  let word := cs.takeWhile isWordChar
  let rest := cs.dropWhile isWordChar
  match word? word with
  | none => none
  | some v =>
    match rest with
    | ' ' :: tail =>
      if isDate word && isTimeWithOffset (tail.takeWhile isWordChar) then
        some (.other, tail.dropWhile isWordChar)
      else some (v, rest)
    | _ => some (v, rest)

end Playbook.Toml
