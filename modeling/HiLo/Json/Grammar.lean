/-
HiLo.Json.Grammar — which texts are JSON.

The rules of the format, said without a reader. A rule relates a text to what is left of it:
`Value.At cs rest` says that a value stands at the front of `cs` and that `rest` follows it.
Where a rule has a meaning, the meaning comes first: `Text.At s cs rest` is a string whose
characters are `s`, behind its opening quote.

A rule takes a front of the text and not always the longest one, since `1` is a number at the
front of `12`. `Ends` says that a number cannot go on.
-/
import HiLo.Json.Skip

namespace HiLo.Json

/-! ## Blanks -/

/-- Blanks, or nothing at all. -/
inductive Blanks : List Char → List Char → Prop where
  | nothing {cs : List Char} : Blanks cs cs
  | blank {c : Char} {cs rest : List Char} (blank : c ∈ [' ', '\n', '\t', '\r'])
      (more : Blanks cs rest) : Blanks (c :: cs) rest

/-! ## Numbers -/

namespace Number

def IsDigits (ds : List Char) : Prop := ds ≠ [] ∧ ∀ d ∈ ds, Decimal.isDigit d = true

instance : DecidablePred IsDigits :=
  fun ds => decidable_of_iff (ds ≠ [] ∧ ds.all Decimal.isDigit = true)
    (and_congr_right fun _ => List.all_eq_true)

/-- Digits without a zero in front, or a lone zero. -/
def IsWhole (ds : List Char) : Prop := IsDigits ds ∧ (ds.head? = some '0' → ds = ['0'])

instance : DecidablePred IsWhole :=
  fun ds => inferInstanceAs (Decidable (IsDigits ds ∧ (ds.head? = some '0' → ds = ['0'])))

/-- A point and digits, or nothing. -/
inductive FractionAt : Option (List Char) → List Char → List Char → Prop where
  | absent {rest : List Char} : FractionAt none rest rest
  | present {ds rest : List Char} (digits : IsDigits ds) :
      FractionAt (some ds) ('.' :: (ds ++ rest)) rest

/-- A sign, or nothing; whether it is a minus. -/
inductive SignAt : Bool → List Char → List Char → Prop where
  | absent {rest : List Char} : SignAt false rest rest
  | plus {rest : List Char} : SignAt false ('+' :: rest) rest
  | minus {rest : List Char} : SignAt true ('-' :: rest) rest

/-- An exponent, or nothing. -/
inductive ExponentAt : Option (Bool × List Char) → List Char → List Char → Prop where
  | absent {rest : List Char} : ExponentAt none rest rest
  | present {mark : Char} {down : Bool} {cs ds rest : List Char} (either : mark = 'e' ∨ mark = 'E')
      (sign : SignAt down cs (ds ++ rest)) (digits : IsDigits ds) :
      ExponentAt (some (down, ds)) (mark :: cs) rest

/-- A number with the given parts, behind its minus sign if it has one. -/
inductive UnsignedAt (t : Token) : List Char → List Char → Prop where
  | mk {cs cs' rest : List Char} (whole : IsWhole t.whole) (fraction : FractionAt t.fraction cs cs')
      (exponent : ExponentAt t.exponent cs' rest) : UnsignedAt t (t.whole ++ cs) rest

/-- A number with the given parts. -/
inductive At (t : Token) : List Char → List Char → Prop where
  | unsigned {cs rest : List Char} (sign : t.negative = false) (number : UnsignedAt t cs rest) :
      At t cs rest
  | negative {cs rest : List Char} (sign : t.negative = true) (number : UnsignedAt t cs rest) :
      At t ('-' :: cs) rest

/-- The integer that the parts denote. There is none with a fraction or an exponent, and minus
zero is no integer either. -/
def Token.integer? (t : Token) : Option Int :=
  if t.fraction = none ∧ t.exponent = none then
    if t.negative then
      if Decimal.value t.whole = 0 then none else some (-Decimal.value t.whole)
    else some (Decimal.value t.whole)
  else none

def IntegerAt (z : Int) (cs rest : List Char) : Prop :=
  ∃ t, At t cs rest ∧ t.integer? = some z

/-- A number that ends here cannot go on. -/
def Ends (rest : List Char) : Prop :=
  ∀ c, rest.head? = some c → Decimal.isDigit c = false ∧ c ∉ ['.', 'e', 'E']

end Number

/-! ## Strings -/

namespace Text

def escapes : List (Char × Char) :=
  [('"', '"'), ('\\', '\\'), ('/', '/'), ('b', '\x08'), ('f', '\x0c'), ('n', '\n'), ('r', '\r'),
    ('t', '\t')]

def hexDigits : List (Char × Char) :=
  [('0', '0'), ('1', '1'), ('2', '2'), ('3', '3'), ('4', '4'), ('5', '5'), ('6', '6'), ('7', '7'),
    ('8', '8'), ('9', '9'), ('a', 'A'), ('b', 'B'), ('c', 'C'), ('d', 'D'), ('e', 'E'), ('f', 'F')]

def IsHex (c : Char) (n : Nat) : Prop := ∃ p, hexDigits[n]? = some p ∧ (c = p.1 ∨ c = p.2)

/-- The four digits of a code unit. -/
inductive UnitAt : Nat → List Char → List Char → Prop where
  | mk {a b c d : Char} {i j k l : Nat} {rest : List Char} (first : IsHex a i) (second : IsHex b j)
      (third : IsHex c k) (fourth : IsHex d l) :
      UnitAt (4096 * i + 256 * j + 16 * k + l) (a :: b :: c :: d :: rest) rest

/-- An escape and its character, behind the backslash. A code unit that is no surrogate is a
character, and so are a high and a low surrogate in a row. -/
inductive EscapeAt : Char → List Char → List Char → Prop where
  | short {mark c : Char} {rest : List Char} (known : (mark, c) ∈ escapes) :
      EscapeAt c (mark :: rest) rest
  | unit {n : Nat} {cs rest : List Char} (unit : UnitAt n cs rest)
      (plain : n < 0xD800 ∨ 0xDFFF < n) : EscapeAt (Char.ofNat n) ('u' :: cs) rest
  | pair {high low : Nat} {cs cs' rest : List Char} (first : UnitAt high cs ('\\' :: 'u' :: cs'))
      (isHigh : 0xD800 ≤ high ∧ high < 0xDC00) (second : UnitAt low cs' rest)
      (isLow : 0xDC00 ≤ low ∧ low < 0xE000) :
      EscapeAt (Char.ofNat (0x10000 + (high - 0xD800) * 0x400 + (low - 0xDC00))) ('u' :: cs) rest

/-- A character that stands for itself in a string. -/
def IsPlain (c : Char) : Prop := c ≠ '"' ∧ c ≠ '\\' ∧ 0x20 ≤ c.toNat

instance : DecidablePred IsPlain :=
  fun c => inferInstanceAs (Decidable (c ≠ '"' ∧ c ≠ '\\' ∧ 0x20 ≤ c.toNat))

/-- A string and its characters, behind the opening quote. -/
inductive At : List Char → List Char → List Char → Prop where
  | closed {rest : List Char} : At [] ('"' :: rest) rest
  | plain {c : Char} {s cs rest : List Char} (plain : IsPlain c) (more : At s cs rest) :
      At (c :: s) (c :: cs) rest
  | escaped {c : Char} {s cs cs' rest : List Char} (escape : EscapeAt c cs cs')
      (more : At s cs' rest) : At (c :: s) ('\\' :: cs) rest

/-- Any string, behind the opening quote. Surrogates may stand alone in it, so it need not have
characters. -/
inductive AnyAt : List Char → List Char → Prop where
  | closed {rest : List Char} : AnyAt ('"' :: rest) rest
  | plain {c : Char} {cs rest : List Char} (plain : IsPlain c) (more : AnyAt cs rest) :
      AnyAt (c :: cs) rest
  | short {mark c : Char} {cs rest : List Char} (known : (mark, c) ∈ escapes)
      (more : AnyAt cs rest) : AnyAt ('\\' :: mark :: cs) rest
  | unit {n : Nat} {cs cs' rest : List Char} (unit : UnitAt n cs cs') (more : AnyAt cs' rest) :
      AnyAt ('\\' :: 'u' :: cs) rest

end Text

/-! ## Values -/

open Skip (Bracket)

def Skip.Bracket.opening : Bracket → Char
  | .list => '['
  | .object => '\x7b'

/-- What can stand in a text: a value, an item between brackets, or several of them with commas
in between. -/
inductive Part where
  | value
  | item (b : Bracket)
  | items (b : Bracket)

/-- A part of a JSON text, with the blanks around it if it is an item. -/
inductive Part.At : Part → List Char → List Char → Prop where
  | null {rest : List Char} : At .value ('n' :: 'u' :: 'l' :: 'l' :: rest) rest
  | yes {rest : List Char} : At .value ('t' :: 'r' :: 'u' :: 'e' :: rest) rest
  | no {rest : List Char} : At .value ('f' :: 'a' :: 'l' :: 's' :: 'e' :: rest) rest
  | number {t : Number.Token} {cs rest : List Char} (number : Number.At t cs rest) :
      At .value cs rest
  | string {cs rest : List Char} (string : Text.AnyAt cs rest) : At .value ('"' :: cs) rest
  | empty {b : Bracket} {cs rest : List Char} (inside : Blanks cs (b.closing :: rest)) :
      At .value (b.opening :: cs) rest
  | filled {b : Bracket} {cs rest : List Char} (inside : At (.items b) cs (b.closing :: rest)) :
      At .value (b.opening :: cs) rest
  | element {cs cs₁ cs₂ rest : List Char} (before : Blanks cs cs₁) (value : At .value cs₁ cs₂)
      (behind : Blanks cs₂ rest) : At (.item .list) cs rest
  | member {cs cs₁ cs₂ cs₃ cs₄ cs₅ rest : List Char} (before : Blanks cs ('"' :: cs₁))
      (key : Text.AnyAt cs₁ cs₂) (colon : Blanks cs₂ (':' :: cs₃)) (between : Blanks cs₃ cs₄)
      (value : At .value cs₄ cs₅) (behind : Blanks cs₅ rest) : At (.item .object) cs rest
  | last {b : Bracket} {cs rest : List Char} (item : At (.item b) cs rest) : At (.items b) cs rest
  | more {b : Bracket} {cs cs' rest : List Char} (item : At (.item b) cs (',' :: cs'))
      (others : At (.items b) cs' rest) : At (.items b) cs rest

end HiLo.Json
