import Playbook.Toml.Tree

/-! Reading TOML documents: keys, values and statements.

Arrays and tables in braces may be nested, and dotted keys be long, up to a limit. -/

namespace Playbook.Toml

/-- Values are nested less deep than this, and keys have fewer parts. -/
def depthLimit : Nat := 80

def isKeyChar (c : Char) : Bool :=
  ('0' ≤ c && c ≤ '9') || ('a' ≤ c && c ≤ 'z') || ('A' ≤ c && c ≤ 'Z') || c == '-' || c == '_'

def keyPart? (cs : List Char) : Option (String × List Char) :=
  match cs.takeWhile isKeyChar with
  | [] => (quoted? cs).map fun r => (String.ofList r.1, r.2)
  | word => some (String.ofList word, cs.dropWhile isKeyChar)

/-- A key of at most `parts` parts with dots between them, and the spaces around them. -/
def keyOf? : Nat → List Char → Option (List String × List Char)
  | 0, _ => none
  | parts + 1, cs =>
    match keyPart? (skipSpaces cs) with
    | none => none
    | some (k, cs) =>
      match skipSpaces cs with
      | '.' :: cs => (keyOf? parts cs).map fun r => (k :: r.1, r.2)
      | cs => some ([k], cs)

def key? (cs : List Char) : Option (List String × List Char) := keyOf? (depthLimit - 1) cs

def pair? (value : List Char → Option (Scalar × List Char)) (cs : List Char) :
    Option ((List String × Scalar) × List Char) :=
  match key? cs with
  | some (path, '=' :: cs) => (value (skipSpaces cs)).map fun r => ((path, r.1), r.2)
  | _ => none

def afterItems (value : List Char → Option (Scalar × List Char)) :
    Nat → List Char → Option (List Char)
  | 0, _ => none
  | count + 1, cs =>
    match skipGaps false cs with
    | ']' :: rest => some rest
    | cs =>
      match value cs with
      | none => none
      | some (_, cs) =>
        match skipGaps false cs with
        | ']' :: rest => some rest
        | ',' :: rest => afterItems value count rest
        | _ => none

def afterPairs (value : List Char → Option (Scalar × List Char)) :
    Nat → Entries → List Char → Option (List Char)
  | 0, _, _ => none
  | count + 1, t, cs =>
    match pair? value cs with
    | none => none
    | some ((path, v), cs) =>
      match Entries.insert path v .written t with
      | none => none
      | some t =>
        match skipSpaces cs with
        | '\x7d' :: rest => some rest
        | ',' :: rest => afterPairs value count t rest
        | _ => none

def afterTable (value : List Char → Option (Scalar × List Char)) (cs : List Char) :
    Option (List Char) :=
  match skipSpaces cs with
  | '\x7d' :: rest => some rest
  | _ => afterPairs value (cs.length + 1) .empty cs

def value? : Nat → List Char → Option (Scalar × List Char)
  | depth, cs =>
    match cs with
    | [] => none
    | c :: rest =>
      if c = quote ∨ c = apostrophe then
        (text? cs).map fun r => (.text (String.ofList r.1), r.2)
      else if c = '[' then
        match depth with
        | 0 => none
        | depth + 1 =>
          (afterItems (value? depth) (rest.length + 1) rest).map fun rest => (.other, rest)
      else if c = '\x7b' then
        match depth with
        | 0 => none
        | depth + 1 => (afterTable (value? depth) rest).map fun rest => (.other, rest)
      else readWord cs

def header? (cs : List Char) : Option (Statement × List Char) :=
  match cs with
  | '[' :: cs =>
    match key? cs with
    | some (path, ']' :: ']' :: cs) => (endLine? cs).map fun cs => (.nextHeader path, cs)
    | _ => none
  | cs =>
    match key? cs with
    | some (path, ']' :: cs) => (endLine? cs).map fun cs => (.header path, cs)
    | _ => none

def statement? (cs : List Char) : Option (Statement × List Char) :=
  match cs with
  | '[' :: cs => header? cs
  | cs =>
    match pair? (value? (depthLimit - 1)) cs with
    | none => none
    | some ((path, v), cs) => (endLine? cs).map fun cs => (.pair path v, cs)

def statements? : Nat → List Char → Option (List Statement)
  | 0, _ => none
  | count + 1, cs =>
    match skipSpaces cs with
    | [] => some []
    | c :: rest =>
      if c = '\n' ∨ c = '#' then
        match endLine? (c :: rest) with
        | none => none
        | some cs => statements? count cs
      else
        match statement? (c :: rest) with
        | none => none
        | some (s, cs) => (statements? count cs).map (s :: ·)

def skipMark : List Char → List Char
  | c :: cs => if c.toNat = 0xFEFF then cs else c :: cs
  | [] => []

def read? (source : String) : Option Entries :=
  let cs := unifyLineEnds (skipMark source.toList)
  (statements? (cs.length + 1) cs).bind (Entries.extend [] .empty)

end Playbook.Toml
