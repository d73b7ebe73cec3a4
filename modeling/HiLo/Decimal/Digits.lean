/-
HiLo.Decimal.Digits — decimal digits of whole numbers.

`digits` writes a natural number, most significant digit first and without
leading zeros; `value` reads a list of digits back, leading zeros or not.
`text` is the form in which every integer of the library is shown.
-/

namespace HiLo.Decimal

def digitChar (d : Nat) : Char := Char.ofNat (48 + d)

/-- The ASCII digits, and no others: JSON numbers are made of these. -/
def isDigit (c : Char) : Bool := 48 ≤ c.toNat && c.toNat ≤ 57

def digitValue (c : Char) : Nat := c.toNat - 48

/-- The digits of a natural number, most significant first. -/
def digits (n : Nat) : List Char :=
  if n < 10 then [digitChar n] else digits (n / 10) ++ [digitChar (n % 10)]
termination_by n
decreasing_by omega

def value (ds : List Char) : Nat :=
  ds.foldl (fun n c => 10 * n + digitValue c) 0

def signed : Int → List Char
  | .ofNat n => digits n
  | .negSucc n => '-' :: digits (n + 1)

def text (z : Int) : String := String.ofList (signed z)

end HiLo.Decimal
