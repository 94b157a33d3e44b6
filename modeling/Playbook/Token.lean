import Playbook.Text.Blank
import Playbook.Text.Escape

/-! The words of a statement line.

A token that starts with a double quote extends to the next double quote that is not escaped; any
other token extends to the next blank. A quoted token is always literal text, also when it looks
like a variable or like the arrow in front of an output variable. -/

namespace Playbook

structure Token where
  text : String
  quoted : Bool
  deriving DecidableEq, Repr

def Token.bare (text : String) : Token := { text, quoted := false }

def Token.literal (text : String) : Token := { text, quoted := true }

def Token.inspect (t : Token) : String :=
  Text.record "Token" [("text", Text.escaped t.text), ("quoted", toString t.quoted)] false

namespace Token

mutual

def scan : List Char → Option (List Token)
  | [] => some []
  | c :: cs =>
    if Text.isBlank c then scan cs
    else if c = '"' then (scanQuoted cs).map fun r => literal (String.ofList r.1) :: r.2
    else (scanBare cs).map fun r => bare (String.ofList (c :: r.1)) :: r.2

def scanBare : List Char → Option (List Char × List Token)
  | [] => some ([], [])
  | c :: cs =>
    if Text.isBlank c then (scan cs).map fun ts => ([], ts)
    else (scanBare cs).map fun r => (c :: r.1, r.2)

/-- The text behind an opening quote and the tokens behind the closing one. A backslash in front
of a quote or of a backslash is dropped; any other backslash stands for itself. -/
def scanQuoted : List Char → Option (List Char × List Token)
  | [] => none
  | '"' :: cs => (scan cs).map fun ts => ([], ts)
  | '\\' :: '"' :: cs => (scanQuoted cs).map fun r => ('"' :: r.1, r.2)
  | '\\' :: '\\' :: cs => (scanQuoted cs).map fun r => ('\\' :: r.1, r.2)
  | c :: cs => (scanQuoted cs).map fun r => (c :: r.1, r.2)

end

def ofLine (line : String) : Option (List Token) := scan line.toList

/-- Whether a literal text has to be quoted to be read back as one literal token. -/
def needsQuotes (cs : List Char) : Bool :=
  cs = [] || cs = ['-', '>'] || cs.any Text.isBlank ||
    (match cs with
     | c :: _ => c = '"' || c = '$' || c = '#' || c = ';'
     | [] => false)

def escape : List Char → List Char
  | [] => []
  | c :: cs => if c = '"' ∨ c = '\\' then '\\' :: c :: escape cs else c :: escape cs

def render (cs : List Char) : List Char :=
  if needsQuotes cs then '"' :: (escape cs ++ ['"']) else cs

def quote (text : String) : String := String.ofList (render text.toList)

def toSource (t : Token) : String := if t.quoted then quote t.text else t.text

end Token

end Playbook
