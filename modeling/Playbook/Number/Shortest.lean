import Playbook.Number.Integer

/-! The shortest decimal text of a double.

A double `m * 2 ^ q` owns the interval of numbers that round to it; the ends belong to it when `m`
is even. Of the decimals with the fewest significant digits in that interval the nearest is
written, an exact tie going up, and always without an exponent. -/

namespace Playbook.Number

/-- A positive double as four times its mantissa over a power of two, with the ends of its
interval at the same scale: `low / 2 ^ down * 2 ^ up` and so on. -/
structure Interval where
  low : Nat
  mid : Nat
  high : Nat
  closed : Bool
  up : Nat
  down : Nat
  deriving Repr

/-- The interval of the finite positive double with the given bits. The gap below a power of two
is half as wide as the gap above it, except at the smallest normal number. -/
def Interval.ofBits (bits : UInt64) : Interval :=
  let fraction : Nat := bits.toNat % 0x10000000000000
  let biased : Nat := bits.toNat / 0x10000000000000 % 0x800
  let mantissa : Nat := if biased = 0 then fraction else fraction + 0x10000000000000
  let exponent : Int := (if biased = 0 then 1 else (biased : Int)) - 1075 - 2
  { low := if fraction = 0 ∧ biased > 1 then 4 * mantissa - 1 else 4 * mantissa - 2
    mid := 4 * mantissa
    high := 4 * mantissa + 2
    closed := mantissa % 2 = 0
    up := exponent.toNat
    down := (-exponent).toNat }

def Interval.scaled (i : Interval) (shift : Int) : Nat × Nat × Nat × Nat :=
  let factor := Nat.pow 2 i.up * Nat.pow 10 shift.toNat
  (i.low * factor, i.mid * factor, i.high * factor, Nat.pow 2 i.down * Nat.pow 10 (-shift).toNat)

/-- The multiple of `10 ^ -shift` that stands for the double on that decimal grid, if one of its
two neighbours there lies in its interval. -/
def Interval.onGrid (i : Interval) (shift : Int) : Option Nat :=
  let (low, mid, high, unit) := i.scaled shift
  let below := mid / unit
  let above := if mid % unit = 0 then below else below + 1
  let fitsBelow := if i.closed then low ≤ below * unit else low < below * unit
  let fitsAbove := if i.closed then above * unit ≤ high else above * unit < high
  if fitsBelow ∧ below ≠ 0 then
    if fitsAbove ∧ above * unit - mid ≤ mid - below * unit then some above else some below
  else if fitsAbove then some above
  else none

def Interval.magnitude (i : Interval) (p : Int) : Nat → Int
  | 0 => p
  | fuel + 1 =>
    let (_, mid, _, unit) := i.scaled (-(p - 1))
    if unit ≤ mid then p else i.magnitude (p - 1) fuel

def Interval.shortest (i : Interval) (p : Int) (digits : Nat) : Nat → Nat × Int
  | 0 => (0, 0)
  | fuel + 1 =>
    let shift : Int := (digits : Int) - p
    match i.onGrid shift with
    | some n => (n, -shift)
    | none => i.shortest p (digits + 1) fuel

def positional (n : Nat) (e : Int) : String :=
  let digits := Nat.toDigits 10 n
  let kept := (digits.reverse.dropWhile (· = '0')).reverse
  let point : Int := digits.length + e
  if kept = [] then "0"
  else if point ≤ 0 then
    "0." ++ String.ofList (List.replicate (-point).toNat '0' ++ kept)
  else if (kept.length : Int) ≤ point then
    String.ofList (kept ++ List.replicate (point.toNat - kept.length) '0')
  else
    String.ofList (kept.take point.toNat) ++ "." ++ String.ofList (kept.drop point.toNat)

/-- The text of a finite positive double. No double reaches `10 ^ 309`, none but zero lies below
`10 ^ -324`, and seventeen digits tell any two of them apart. -/
def positiveText (bits : UInt64) : String :=
  let i := Interval.ofBits bits
  let (n, e) := i.shortest (i.magnitude 309 700) 1 18
  positional n e

def floatText (x : Float) : String :=
  let bits := x.toBits
  let sign := if 0x8000000000000000 ≤ bits.toNat then "-" else ""
  let magnitude := UInt64.ofNat (bits.toNat % 0x8000000000000000)
  if x.isNaN then "NaN"
  else if x.isInf then sign ++ "inf"
  else if magnitude = 0 then sign ++ "0"
  else sign ++ positiveText magnitude

end Playbook.Number
