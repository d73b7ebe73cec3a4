/-
HiLo.Refusal — settings that are refused.

A layout needs a positive capacity. A progression of hi values needs a start
that is not reserved and a gap that is not negative. Each refusal carries the
offending number.
-/
import HiLo.Decimal.Digits
import HiLo.Text.Outline

namespace HiLo

/-- The value of `Int64` that stands for "no hi yet": the least one. No
identifier is ever built on it. -/
def reserved : Int64 := Int64.minValue

/-- Why a setting is refused: the capacity is zero or negative, the gap between
hi values is negative or one more than it does not fit, or the first hi value is
the reserved one. -/
inductive Refusal where
  | capacity (value : Int64)
  | sparseness (value : Int64)
  | reservedHi (value : Int64)
  deriving DecidableEq

namespace Refusal

def name : Refusal → String
  | .capacity _ => "InvalidCapacity"
  | .sparseness _ => "InvalidSparseness"
  | .reservedHi _ => "ReservedHi"

def value : Refusal → Int64
  | .capacity n | .sparseness n | .reservedHi n => n

def message : Refusal → String
  | .capacity n => "capacity must be positive, got " ++ Decimal.text n.toInt
  | .sparseness n => "sparseness must not be negative, got " ++ Decimal.text n.toInt
  | .reservedHi n =>
    "hi value " ++ Decimal.text n.toInt ++ " is reserved to mean uninitialized"

def outline (r : Refusal) : Outline :=
  let field := match r with
    | .capacity _ => "capacity"
    | .sparseness _ => "sparseness"
    | .reservedHi _ => "hi"
  .whole r.name [(field, .word (Decimal.text r.value.toInt))]

end Refusal

end HiLo
