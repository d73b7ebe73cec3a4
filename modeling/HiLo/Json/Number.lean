/-
HiLo.Json.Number — numbers in a JSON text.

A number is a whole part without leading zeros, perhaps a fraction and perhaps
an exponent. `scan` cuts the characters of a number out of a text and keeps
its parts; `Token.value?` says which number they stand for.

Digits are collected in a significand of 64 bits. A whole number that fits is
an integer, unless it is negative and below the least 64-bit integer, or is
minus zero. Anything else is a floating point number: the significand, less
the digits that no longer fit, times a power of ten. A number too large for
that has no value.
-/
import HiLo.Decimal.Digits
import HiLo.Json.Fault

namespace HiLo.Json

/-- The value of a number: an integer, or a floating point number by its
bits. -/
inductive Number where
  | integer (z : Int)
  | floating (bits : UInt64)
  deriving DecidableEq

namespace Number

variable {δ : Type}

open Decimal (isDigit digitValue)

/-! ## The parts of a number -/

/-- The digits of a number: whether a minus sign stands in front, the digits
before the point and, if there are any, those behind it and those of the
exponent with its sign. -/
structure Token where
  negative : Bool
  whole : List Char
  fraction : Option (List Char)
  exponent : Option (Bool × List Char)
  deriving DecidableEq

def someDigits (cs : List Char) : Reading δ (List Char × List Char) :=
  match cs.takeWhile isDigit with
  | [] => .error (if cs.isEmpty then .truncated else .malformed)
  | d :: ds => .ok (d :: ds, cs.dropWhile isDigit)

/-- The digits before the point: a lone zero, or no zero in front. -/
def scanWhole (cs : List Char) : Reading δ (List Char × List Char) := do
  let (ds, rest) ← someDigits cs
  match ds with
  | '0' :: _ :: _ => .error .malformed
  | _ => .ok (ds, rest)

def scanFraction : List Char → Reading δ (Option (List Char) × List Char)
  | '.' :: rest => do
    let (ds, rest) ← someDigits rest
    .ok (some ds, rest)
  | cs => .ok (none, cs)

/-- Whether a minus sign stands in front, and the text behind the sign, if
there is one. -/
def scanSign : List Char → Bool × List Char
  | '-' :: rest => (true, rest)
  | '+' :: rest => (false, rest)
  | rest => (false, rest)

def scanExponent : List Char → Reading δ (Option (Bool × List Char) × List Char)
  | c :: rest =>
    if c = 'e' ∨ c = 'E' then do
      let (ds, behind) ← someDigits (scanSign rest).2
      .ok (some ((scanSign rest).1, ds), behind)
    else .ok (none, c :: rest)
  | [] => .ok (none, [])

/-- The parts of a number, read behind its sign. -/
def scanToken (negative : Bool) (cs : List Char) : Reading δ (Token × List Char) := do
  let (whole, rest) ← scanWhole cs
  let (fraction, rest) ← scanFraction rest
  let (exponent, rest) ← scanExponent rest
  .ok (⟨negative, whole, fraction, exponent⟩, rest)

/-! ## The value of a number -/

/-- The largest significand. -/
def largest : Nat := UInt64.size - 1

/-- The digits that were collected: their value, how many were left out or went
into the significand behind the point, and whether it takes no more digits. -/
structure Collected where
  significand : Nat
  places : Nat
  full : Bool

/-- A further digit goes into the significand if it fits, and otherwise no
digit does any more. -/
def Collected.take? (x : Collected) (c : Char) : Option Nat :=
  let n := 10 * x.significand + digitValue c
  if x.full || decide (largest < n) then none else some n

/-- Collects the digits before the point; `places` counts those left out. -/
def collectWhole (ds : List Char) : Collected :=
  ds.foldl (fun x c =>
    match x.take? c with
    | some n => { x with significand := n }
    | none => { x with places := x.places + 1, full := true }) ⟨0, 0, false⟩

/-- Collects the digits behind the point; `places` counts those taken. -/
def collectFraction (significand : Nat) (ds : List Char) : Collected :=
  ds.foldl (fun x c =>
    match x.take? c with
    | some n => { x with significand := n, places := x.places + 1 }
    | none => { x with full := true }) ⟨significand, 0, false⟩

def largestExponent : Nat := 2147483647

def tenTo (n : Nat) : Float := Float.ofScientific 1 false n

/-- A floating point number times a power of ten, in steps of at most 308
places. There is none if it would be infinite. -/
def scale (x : Float) (exponent : Int) : Option Float :=
  if exponent.natAbs ≤ 308 then
    if 0 ≤ exponent then
      let y := x * tenTo exponent.natAbs
      if y.isInf then none else some y
    else some (x / tenTo exponent.natAbs)
  else if x == 0.0 then some x
  else if 0 ≤ exponent then none
  else scale (x / tenTo 308) (exponent + 308)
termination_by exponent.natAbs
decreasing_by omega

def signedBits (negative : Bool) (x : Float) : UInt64 :=
  (if negative then -x else x).toBits

def floating? (negative : Bool) (significand : Nat) (exponent : Int) : Option Number :=
  (scale significand.toUInt64.toFloat exponent).map fun x => .floating (signedBits negative x)

/-- The number of a whole part that fits. -/
def ofWhole (negative : Bool) (n : Nat) : Number :=
  if negative then
    if n = 0 ∨ 1 <<< 63 < n then .floating (signedBits true n.toUInt64.toFloat)
    else .integer (-n)
  else .integer n

/-- The number that the parts stand for, if it is not too large. -/
def Token.value? (t : Token) : Option Number :=
  let w := collectWhole t.whole
  let f := collectFraction w.significand (t.fraction.getD [])
  let places : Int := (w.places : Int) - f.places
  match t.exponent with
  | none =>
    if t.fraction = none ∧ w.places = 0 then some (ofWhole t.negative w.significand)
    else floating? t.negative f.significand places
  | some (down, ds) =>
    let e := Decimal.value ds
    if e ≤ largestExponent then
      floating? t.negative f.significand (if down then places - e else places + e)
    else if f.significand = 0 ∨ down then some (.floating (signedBits t.negative 0.0))
    else none

def scan (negative : Bool) (cs : List Char) : Reading δ (Number × List Char) := do
  let (t, rest) ← scanToken negative cs
  match t.value? with
  | some n => .ok (n, rest)
  | none => .error .malformed

/-- The text behind a number, read behind its sign. Whatever is wrong with it
counts as a misplaced character, also a text that ends too early. -/
def skip (cs : List Char) : Reading δ (List Char) :=
  match (scanToken false cs : Reading δ (Token × List Char)) with
  | .ok (_, rest) => .ok rest
  | .error _ => .error .malformed

/-! ## A number takes characters off the text -/

theorem someDigits_length {cs ds rest : List Char}
    (h : someDigits cs = (.ok (ds, rest) : Reading δ (List Char × List Char))) :
    rest.length < cs.length := by
  have hsplit : (cs.takeWhile isDigit).length + (cs.dropWhile isDigit).length = cs.length := by
    rw [← List.length_append, List.takeWhile_append_dropWhile]
  unfold someDigits at h
  split at h
  · cases h
  · rename_i heq
    cases h
    rw [heq] at hsplit
    simp only [List.length_cons] at hsplit
    omega

theorem scanWhole_length {cs ds rest : List Char}
    (h : scanWhole cs = (.ok (ds, rest) : Reading δ (List Char × List Char))) :
    rest.length < cs.length := by
  unfold scanWhole at h
  cases hd : (someDigits cs : Reading δ (List Char × List Char)) with
  | error e => simp [hd, bind, Except.bind] at h
  | ok p =>
    simp only [hd, bind, Except.bind] at h
    split at h
    · cases h
    · cases h
      exact someDigits_length hd

theorem scanFraction_length {cs rest : List Char} {ds : Option (List Char)}
    (h : scanFraction cs = (.ok (ds, rest) : Reading δ (Option (List Char) × List Char))) :
    rest.length ≤ cs.length := by
  unfold scanFraction at h
  split at h
  · rename_i r
    cases hd : (someDigits r : Reading δ (List Char × List Char)) with
    | error e => simp [hd, bind, Except.bind] at h
    | ok p =>
      have hlen := someDigits_length hd
      simp only [hd, bind, Except.bind] at h
      cases h
      simp only [List.length_cons]
      omega
  · cases h
    exact Nat.le_refl _

theorem scanSign_length (cs : List Char) : (scanSign cs).2.length ≤ cs.length := by
  unfold scanSign
  split <;> simp

theorem scanExponent_length {cs rest : List Char} {ds : Option (Bool × List Char)}
    (h : scanExponent cs = (.ok (ds, rest) : Reading δ (Option (Bool × List Char) × List Char))) :
    rest.length ≤ cs.length := by
  unfold scanExponent at h
  split at h
  · rename_i c r
    split at h
    · have hsign : (scanSign r).2.length ≤ r.length := scanSign_length r
      cases hd : (someDigits (scanSign r).2 : Reading δ (List Char × List Char)) with
      | error e => simp [hd, bind, Except.bind] at h
      | ok p =>
        have hlen := someDigits_length hd
        simp only [hd, bind, Except.bind] at h
        cases h
        simp only [List.length_cons]
        omega
    · cases h
      exact Nat.le_refl _
  · cases h
    exact Nat.le_refl _

theorem scanToken_length {negative : Bool} {cs rest : List Char} {t : Token}
    (h : scanToken negative cs = (.ok (t, rest) : Reading δ (Token × List Char))) :
    rest.length < cs.length := by
  unfold scanToken at h
  cases hw : (scanWhole cs : Reading δ (List Char × List Char)) with
  | error e => simp [hw, bind, Except.bind] at h
  | ok w =>
    have h₁ := scanWhole_length hw
    simp only [hw, bind, Except.bind] at h
    cases hf : (scanFraction w.2 : Reading δ (Option (List Char) × List Char)) with
    | error e => simp [hf] at h
    | ok f =>
      have h₂ := scanFraction_length hf
      simp only [hf] at h
      cases he : (scanExponent f.2 : Reading δ (Option (Bool × List Char) × List Char)) with
      | error e => simp [he] at h
      | ok e =>
        have h₃ := scanExponent_length he
        simp only [he] at h
        cases h
        omega

theorem skip_length {cs rest : List Char}
    (h : skip cs = (.ok rest : Reading δ (List Char))) : rest.length < cs.length := by
  unfold skip at h
  split at h
  · rename_i hs
    cases h
    exact scanToken_length hs
  · cases h

end Number

end HiLo.Json
