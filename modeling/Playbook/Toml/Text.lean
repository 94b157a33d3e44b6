import Playbook.Number.Decimal

/-! Blanks, comments and quoted text of TOML documents.

The line ends of a document have been made single line feeds before, so a carriage return is an
error wherever it stands. -/

namespace Playbook.Toml

def unifyLineEnds : List Char → List Char
  | '\r' :: '\n' :: cs => '\n' :: unifyLineEnds cs
  | c :: cs => c :: unifyLineEnds cs
  | [] => []

def isSpace (c : Char) : Bool := c == ' ' || c == '\t'

def skipSpaces (cs : List Char) : List Char := cs.dropWhile isSpace

/-- May stand in a comment or in quotes: all but control characters, and the tab. -/
def isPlain (c : Char) : Bool := c == '\t' || (0x20 ≤ c.toNat && c.toNat != 0x7F)

/-- Skips spaces, line ends and comments, as they may stand between the items of an array. -/
def skipGaps (inComment : Bool) : List Char → List Char
  | [] => []
  | c :: cs =>
    if c = '\n' then skipGaps false cs
    else if inComment then
      if isPlain c then skipGaps true cs else c :: cs
    else if isSpace c then skipGaps false cs
    else if c = '#' then skipGaps true cs
    else c :: cs

def endLine? (cs : List Char) : Option (List Char) :=
  let rest := match skipSpaces cs with
    | '#' :: cs => cs.dropWhile isPlain
    | cs => cs
  match rest with
  | [] => some []
  | '\n' :: cs => some cs
  | _ => none

def quote : Char := '"'

def apostrophe : Char := Char.ofNat 0x27

/-! ### Text in quotes -/

def hexDigit? (c : Char) : Option Nat :=
  if '0' ≤ c ∧ c ≤ '9' then some (c.toNat - 0x30)
  else if 'a' ≤ c ∧ c ≤ 'f' then some (c.toNat - 0x61 + 10)
  else if 'A' ≤ c ∧ c ≤ 'F' then some (c.toNat - 0x41 + 10)
  else none

inductive Mode where
  | plain
  | escaped
  | hex (left value : Nat)
  /-- Behind a backslash that joins lines, in front of the line end and behind it. -/
  | joining
  | joined

namespace Mode

def named? (c : Char) : Option Char :=
  match c with
  | 'b' => some (Char.ofNat 8)
  | 't' => some '\t'
  | 'n' => some '\n'
  | 'f' => some (Char.ofNat 12)
  | 'r' => some '\r'
  | '"' => some '"'
  | '\\' => some '\\'
  | _ => none

def afterPlain (multi : Bool) (c : Char) : Option (List Char × Mode) :=
  if c = '\\' then some ([], .escaped)
  else if isPlain c || (multi && c == '\n') then some ([c], .plain)
  else none

def afterBackslash (multi : Bool) (c : Char) : Option (List Char × Mode) :=
  if c = 'u' then some ([], .hex 4 0)
  else if c = 'U' then some ([], .hex 8 0)
  else if multi && isSpace c then some ([], .joining)
  else if multi && c == '\n' then some ([], .joined)
  else (named? c).map fun c => ([c], .plain)

def afterHex (left value : Nat) (c : Char) : Option (List Char × Mode) :=
  match hexDigit? c with
  | none => none
  | some d =>
    let value := value * 16 + d
    if 1 < left then some ([], .hex (left - 1) value)
    else if value.isValidChar then some ([Char.ofNat value], .plain)
    else none

def next (multi : Bool) (m : Mode) (c : Char) : Option (List Char × Mode) :=
  match m with
  | .plain => afterPlain multi c
  | .escaped => afterBackslash multi c
  | .hex left value => afterHex left value c
  | .joining =>
    if isSpace c then some ([], .joining) else if c = '\n' then some ([], .joined) else none
  | .joined => if isSpace c || c == '\n' then some ([], .joined) else afterPlain multi c

def isOpen : Mode → Bool
  | .plain => true
  | .joined => true
  | _ => false

end Mode

/-- Behind three closing quotes: up to two more belong to the text. -/
def closing (q : Char) (cs : List Char) : List Char × List Char :=
  let extra := (cs.takeWhile (· == q)).take 2
  (extra, cs.drop extra.length)

def basicText (multi : Bool) (m : Mode) : List Char → Option (List Char × List Char)
  | [] => none
  | c :: cs =>
    if m.isOpen && c == quote then
      if !multi then some ([], cs)
      else if cs.take 2 = [quote, quote] then some (closing quote (cs.drop 2))
      else (basicText multi .plain cs).map fun r => (quote :: r.1, r.2)
    else match m.next multi c with
      | none => none
      | some (out, m) => (basicText multi m cs).map fun r => (out ++ r.1, r.2)

def literalText (multi : Bool) : List Char → Option (List Char × List Char)
  | [] => none
  | c :: cs =>
    if c = apostrophe && !multi then some ([], cs)
    else if c = apostrophe && cs.take 2 = [apostrophe, apostrophe] then
      some (closing apostrophe (cs.drop 2))
    else if isPlain c || (multi && c == '\n') then
      (literalText multi cs).map fun r => (c :: r.1, r.2)
    else none

def skipLineEnd : List Char → List Char
  | '\n' :: cs => cs
  | cs => cs

def quoted? : List Char → Option (List Char × List Char)
  | [] => none
  | c :: cs =>
    if c = quote then basicText false .plain cs
    else if c = apostrophe then literalText false cs
    else none

def text? (cs : List Char) : Option (List Char × List Char) :=
  let rest := skipLineEnd (cs.drop 3)
  if cs.take 3 = [quote, quote, quote] then basicText true .plain rest
  else if cs.take 3 = [apostrophe, apostrophe, apostrophe] then literalText true rest
  else quoted? cs

end Playbook.Toml
