/-
HiLo.Duration — lengths of time in seconds and nanoseconds.

A duration also has a reading as a binary floating point number of seconds.
That reading is exact only for short or even durations; `ofSeconds` goes back
from the exact value of the number to the nearest nanosecond, and of two
equally near ones to the even one.
-/
import HiLo.Text.Outline
import HiLo.Decimal.Digits

namespace HiLo

/-- A length of time in whole seconds and nanoseconds beyond them, fewer than a
second's worth. -/
structure Duration where
  seconds : UInt64
  nanos : UInt32
  deriving DecidableEq

namespace Duration

/-- The number of nanoseconds in a second. -/
def second : Nat := 1000000000

def zero : Duration := ⟨0, 0⟩

def longest : Duration := ⟨UInt64.ofNat (UInt64.size - 1), 999999999⟩

/-- Why numbers make no duration: the seconds, with those among the nanoseconds,
do not fit. -/
inductive Misfit where
  | overflow
  deriving DecidableEq

def Misfit.message : Misfit → String
  | .overflow => "overflow in Duration::new"

/-- The duration from seconds and any number of nanoseconds, if it is not too
long. -/
def make (seconds nanos : Nat) : Except Misfit Duration :=
  if seconds + nanos / second < UInt64.size then
    .ok ⟨UInt64.ofNat (seconds + nanos / second), UInt32.ofNat (nanos % second)⟩
  else .error .overflow

/-! ## Floating point seconds -/

def toSeconds (d : Duration) : Float :=
  d.seconds.toFloat + d.nanos.toFloat / 1000000000.0

/-- The quotient rounded to the nearest whole number, a half to the even
one. -/
def roundDiv (num den : Nat) : Nat :=
  let q := num / den
  let r := num % den
  if 2 * r < den then q
  else if den < 2 * r then q + 1
  else if q % 2 = 0 then q else q + 1

/-- The duration nearest to `mantissa * 2 ^ exponent` seconds, or the longest
one. -/
def ofBinary (mantissa : Nat) (exponent : Int) : Duration :=
  let total := roundDiv ((mantissa * second) <<< exponent.toNat) (1 <<< (-exponent).toNat)
  match make 0 total with
  | .ok d => d
  | .error .overflow => longest

/-- The duration nearest to a number of seconds that is not negative. -/
def ofSeconds (x : Float) : Duration :=
  let bits : Nat := x.toBits.toNat
  let fraction : Nat := bits % (1 <<< 52)
  let exponent : Nat := (bits >>> 52) % 0x800
  if exponent = 0 then ofBinary fraction (-1074)
  else ofBinary ((1 <<< 52) + fraction) ((exponent : Int) - 1075)

/-! ## Texts -/

/-- A whole number with a decimal fraction given in units of `1 / 10 ^ places`.
Zeros at the end of the fraction are dropped, and a fraction of nothing with
its point. -/
def decimal (whole fraction places : Nat) : String :=
  let ds := Decimal.digits fraction
  let padded := List.replicate (places - ds.length) '0' ++ ds
  let kept := (padded.reverse.dropWhile (· == '0')).reverse
  Decimal.text whole
    ++ (if fraction = 0 then "" else String.ofList ('.' :: kept))

/-- The duration in the largest unit that leaves a whole part. -/
def text (d : Duration) : String :=
  let n := d.nanos.toNat
  if d.seconds ≠ 0 then decimal d.seconds.toNat n 9 ++ "s"
  else if 1000000 ≤ n then decimal (n / 1000000) (n % 1000000) 6 ++ "ms"
  else if 1000 ≤ n then decimal (n / 1000) (n % 1000) 3 ++ "µs"
  else decimal n 0 0 ++ "ns"

end Duration

end HiLo
