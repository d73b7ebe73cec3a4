/-
HiLo.Tally — what many calls amount to.

Counts and sums over the outcomes of a run: how many identifiers there are,
how many different ones, whether they rise, and how many calls have none, by
what kept them from it.
-/
import HiLo.Outcome

namespace HiLo.Tally

variable {ε : Type}

/-! ## Identifiers -/

def ids (os : List (Outcome ε)) : List Int64 := os.filterMap Outcome.id?

/-- The sum of the numbers, wrapping. -/
def sum (xs : List Int64) : Int64 := xs.foldl (· + ·) 0

def sorted (xs : List Int64) : List Int64 := xs.mergeSort fun x y => decide (x ≤ y)

/-- How many numbers of a sorted list differ from the one before them. -/
def runs : List Int64 → Nat
  | [] => 0
  | [_] => 1
  | x :: y :: rest => (if x = y then 0 else 1) + runs (y :: rest)

def distinct (xs : List Int64) : Nat := runs (sorted xs)

def rising : List Int64 → Bool
  | [] | [_] => true
  | x :: y :: rest => decide (x < y) && rising (y :: rest)

def atLeast (floor : Int64) (xs : List Int64) : Bool := xs.all fun x => decide (floor ≤ x)

/-! ## Errors -/

/-- How many calls have no identifier, by what kept them from it: the source
failed, the lock was spoiled, or the call crashed. -/
structure Losses where
  source : Nat
  poisoned : Nat
  crashed : Nat
  deriving DecidableEq

def losses (os : List (Outcome ε)) : Losses where
  source := os.countP fun
    | .failed (.source _) => true
    | _ => false
  poisoned := os.countP fun
    | .failed .poisoned => true
    | _ => false
  crashed := os.countP fun
    | .crashed _ => true
    | _ => false

end HiLo.Tally
