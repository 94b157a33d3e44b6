/-! Bytes as text.

Bytes are cut into characters of UTF-8 and into invalid pieces, where an invalid piece is as long
as it could still have been the beginning of a character. -/

namespace Playbook.Text

/-- A character that has begun: how many bytes are missing, the range of the next one, and the
bits seen so far. -/
structure Pending where
  missing : Nat
  low : Nat
  high : Nat
  bits : Nat

namespace Pending

def begin? (b : Nat) : Option Pending :=
  if 0xC2 ≤ b ∧ b ≤ 0xDF then some ⟨1, 0x80, 0xBF, b - 0xC0⟩
  else if b = 0xE0 then some ⟨2, 0xA0, 0xBF, b - 0xE0⟩
  else if b = 0xED then some ⟨2, 0x80, 0x9F, b - 0xE0⟩
  else if 0xE1 ≤ b ∧ b ≤ 0xEF then some ⟨2, 0x80, 0xBF, b - 0xE0⟩
  else if b = 0xF0 then some ⟨3, 0x90, 0xBF, b - 0xF0⟩
  else if b = 0xF4 then some ⟨3, 0x80, 0x8F, b - 0xF0⟩
  else if 0xF1 ≤ b ∧ b ≤ 0xF3 then some ⟨3, 0x80, 0xBF, b - 0xF0⟩
  else none

/-- A byte between characters: what it gives, with `none` for an invalid piece, and the state
after it. -/
def first (b : Nat) : List (Option Char) × Option Pending :=
  if b < 0x80 then ([some (Char.ofNat b)], none)
  else match begin? b with
    | some p => ([], some p)
    | none => ([none], none)

/-- A byte within a character. One that does not continue it ends an invalid piece. -/
def next (p : Pending) (b : Nat) : List (Option Char) × Option Pending :=
  if p.low ≤ b ∧ b ≤ p.high then
    let bits := p.bits * 64 + (b - 0x80)
    if p.missing ≤ 1 then ([some (Char.ofNat bits)], none)
    else ([], some ⟨p.missing - 1, 0x80, 0xBF, bits⟩)
  else
    let (out, q) := first b
    (none :: out, q)

end Pending

def decodeFrom (p? : Option Pending) : List UInt8 → List (Option Char)
  | [] => if p?.isSome then [none] else []
  | b :: bs =>
    let (out, q?) := match p? with
      | none => Pending.first b.toNat
      | some p => p.next b.toNat
    out ++ decodeFrom q? bs

def ofBytes? (bytes : List UInt8) : Option String :=
  ((decodeFrom none bytes).mapM id).map String.ofList

def ofBytesLossy (bytes : List UInt8) : String :=
  String.ofList ((decodeFrom none bytes).map fun c => c.getD (Char.ofNat 0xFFFD))

def toBytes (s : String) : List UInt8 := s.toUTF8.toList

end Playbook.Text
