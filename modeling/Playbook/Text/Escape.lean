import Playbook.Text.Printable

/-! Text as it is shown in diagnostics: between double quotes, with escapes for the quote, the
backslash and every character that would not show as itself. -/

namespace Playbook.Text

def hexText (n : Nat) : String := String.ofList (Nat.toDigits 16 n)

def escapeChar (c : Char) : String :=
  if c = '\x00' then "\\0"
  else if c = '\t' then "\\t"
  else if c = '\r' then "\\r"
  else if c = '\n' then "\\n"
  else if c = '\\' then "\\\\"
  else if c = '"' then "\\\""
  else if isPrintable c then String.singleton c
  else "\\u\x7b" ++ hexText c.toNat ++ "\x7d"

def escaped (s : String) : String :=
  "\"" ++ s.toList.foldl (fun out c => out ++ escapeChar c) "" ++ "\""

def optional (inner : Option String) : String :=
  match inner with
  | none => "None"
  | some s => "Some(" ++ s ++ ")"

def bracketed (items : List String) : String :=
  "[" ++ String.intercalate ", " items ++ "]"

/-- A record in diagnostics: its name and its fields in order. `hidden` marks a record that has
more fields than it shows. -/
def record (name : String) (fields : List (String × String)) (hidden : Bool) : String :=
  let shown := fields.map fun f => f.1 ++ ": " ++ f.2
  name ++ " \x7b " ++ String.intercalate ", " (if hidden then shown ++ [".."] else shown) ++ " \x7d"

end Playbook.Text
