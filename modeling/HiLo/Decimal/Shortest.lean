/-
HiLo.Decimal.Shortest — floating point numbers in as few digits as possible.

A positive number of 64 bits stands for `mantissa * 2 ^ exponent`, and for
every real number that rounds to it. Of the decimals with the fewest digits
among those, the one nearest to the number itself is chosen; the ends of the
interval belong to it when the mantissa is even. All comparisons are made in
natural numbers.

How the digits are laid out is a `Style`.
-/
import HiLo.Decimal.Digits

namespace HiLo.Decimal

/-! ## Binary numbers -/

/-- A positive binary number: its digits as a natural number, the power of two
they are multiplied with, and whether the next smaller number is only half as
far away as the next larger one. -/
structure Binary where
  mantissa : Nat
  exponent : Int
  atBoundary : Bool

namespace Binary

/-- The magnitude of a finite floating point number. -/
def ofBits (bits : UInt64) : Binary :=
  let n : Nat := bits.toNat
  let fraction : Nat := n % (1 <<< 52)
  let e : Nat := (n >>> 52) % 0x800
  if e = 0 then ⟨fraction, -1074, false⟩
  else ⟨(1 <<< 52) + fraction, (e : Int) - 1075, fraction == 0 && e != 1⟩

/-- The number, counted in quarters of its last binary place. -/
def quarters (x : Binary) : Nat := 4 * x.mantissa

/-- The lower end of the reals that round to the number, in quarters. -/
def lower (x : Binary) : Nat := x.quarters - (if x.atBoundary then 1 else 2)

def upper (x : Binary) : Nat := x.quarters + 2

/-- A unit of the decimal place `g`, in the scale in which `quarterUnit` is a
quarter. -/
def decimalUnit (x : Binary) (g : Int) : Nat := Nat.pow 10 g.toNat <<< (2 - x.exponent).toNat

/-- A quarter of the last binary place, in the same scale. -/
def quarterUnit (x : Binary) (g : Int) : Nat := Nat.pow 10 (-g).toNat <<< (x.exponent - 2).toNat

/-- Whether `d` units of the decimal place `g` round to the number. -/
def covers (x : Binary) (g : Int) (d : Nat) : Bool :=
  let low := x.lower * x.quarterUnit g
  let high := x.upper * x.quarterUnit g
  let here := d * x.decimalUnit g
  if x.mantissa % 2 = 0 then low ≤ here && here ≤ high else low < here && here < high

/-- The decimal that rounds to the number and has its last digit at the place
`g`: of two, the nearer one, and of two equally near, the even one. -/
def atPlace? (x : Binary) (g : Int) : Option Nat :=
  let here := x.quarters * x.quarterUnit g
  let unit := x.decimalUnit g
  let d := here / unit
  match x.covers g d, x.covers g (d + 1) with
  | true, true =>
    let below := here - d * unit
    let above := (d + 1) * unit - here
    some (if below < above ∨ (below = above ∧ d % 2 = 0) then d else d + 1)
  | true, false => some d
  | false, true => some (d + 1)
  | false, false => none

def leadingPlace (x : Binary) : Int :=
  let num := x.quarters * x.quarterUnit 0
  let den := x.decimalUnit 0
  if den ≤ num then ((digits (num / den)).length : Int) - 1
  else -((digits ((den + num - 1) / num - 1)).length : Int)

/-- The shortest decimal that rounds to the number: its digits as a natural
number, and the place of the last one. Seventeen digits always suffice. -/
def shortest (x : Binary) : Nat × Int :=
  let places := (List.range 17).map fun (k : Nat) => x.leadingPlace - k
  (places.findSome? fun g => (x.atPlace? g).map fun d => (d, g)).getD (0, 0)

end Binary

/-! ## Layouts of digits -/

/-- How the digits of a floating point number are laid out: the least and the
largest place of a first digit that is written without an exponent, and the
fewest digits of an exponent. -/
structure Style where
  least : Int
  greatest : Int
  exponentDigits : Nat

namespace Style

/-- Digits with a point behind the first `n`; a number without a fraction gets
a zero there. -/
def pointed (n : Nat) (ds : List Char) : List Char :=
  ds.take n ++ '.' :: (if ds.length ≤ n then ['0'] else ds.drop n)

/-- The digits written out, the first one at the place `p`. -/
def positional (p : Int) (ds : List Char) : List Char :=
  if 0 ≤ p then
    pointed (p.toNat + 1) (ds ++ List.replicate (p.toNat + 1 - ds.length) '0')
  else '0' :: '.' :: List.replicate ((-p).toNat - 1) '0' ++ ds

def exponential (t : Style) (p : Int) (ds : List Char) : List Char :=
  let e := digits p.natAbs
  let mantissa := match ds with
    | [d] => [d]
    | ds => pointed 1 ds
  mantissa ++ 'e' :: (if p < 0 then '-' else '+')
    :: (List.replicate (t.exponentDigits - e.length) '0' ++ e)

def render (t : Style) (bits : UInt64) : List Char :=
  let x := Binary.ofBits bits
  let sign := if 1 <<< 63 ≤ bits.toNat then ['-'] else []
  if x.mantissa = 0 then sign ++ ['0', '.', '0']
  else
    let (d, g) := x.shortest
    let all := digits d
    let ds := (all.reverse.dropWhile (· == '0')).reverse
    let p := g + all.length - 1
    sign ++ (if t.least ≤ p ∧ p ≤ t.greatest then positional p ds else t.exponential p ds)

end Style

end HiLo.Decimal
