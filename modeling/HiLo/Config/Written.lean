/-
HiLo.Config.Written — configurations as JSON texts.

The settings are written as members of an object, in their fixed order. All of
them are written, also those that have the default value. No blanks stand
between the tokens.
-/
import HiLo.Config.Complaint

namespace HiLo

/-- A name as a JSON string. Names of schemes, strategies and settings hold
letters and underscores only, so nothing is escaped. -/
def jsonName (s : String) : List Char := '"' :: s.toList ++ ['"']

namespace Config

def jsonValue (c : Config) : Field → List Char
  | .capacity => Decimal.signed c.capacity.toInt
  | .scheme => jsonName c.scheme.name
  | .strategy => jsonName c.strategy.name
  | .attempts => Decimal.digits c.attempts.toNat

def jsonMember (c : Config) (f : Field) : List (List Char) :=
  [jsonName f.key, [':'], c.jsonValue f]

def jsonTokens (c : Config) : List (List Char) :=
  ['\x7b'] :: [[',']].intercalate (Field.all.map c.jsonMember) ++ [['\x7d']]

def json (c : Config) : String := String.ofList c.jsonTokens.flatten

end Config

end HiLo
