/-
HiLo.Config.Complaint — what can be wrong with a written configuration.

A complaint names what stands in the text and what was wanted there. `message`
is the sentence shown to the user.
-/
import HiLo.Config
import HiLo.Decimal.Shortest
import HiLo.Text.Quoted

namespace HiLo.Config

/-! ## The settings by name -/

/-- A setting of a written configuration. -/
inductive Field where
  | capacity
  | scheme
  | strategy
  | attempts
  deriving DecidableEq

namespace Field

def key : Field → String
  | .capacity => "capacity"
  | .scheme => "mode"
  | .strategy => "strategy"
  | .attempts => "max_optimistic_attempts"

/-- All settings, in the order in which they are written. -/
def all : List Field := [.capacity, .scheme, .strategy, .attempts]

def ofKey? (s : String) : Option Field := all.find? (·.key == s)

end Field

/-! ## Complaints -/

/-- What a value is, as a complaint names it. A floating point number is known
by its bits. -/
inductive Kind where
  | null
  | boolean (b : Bool)
  | integer (z : Int)
  | floating (bits : UInt64)
  | string (s : String)
  | sequence
  | map
  deriving DecidableEq

/-- What is wanted, as a complaint names it; `unit` is the null value behind a
name. -/
inductive Want where
  | int64
  | uint32
  | unit
  | config
  deriving DecidableEq

/-- What is wrong with a value: it is of another kind, an integer that does not
fit, or a name that may not stand here; a setting is missing or was given
before; or an array is empty. -/
inductive Complaint where
  | wrongKind (found : Kind) (wanted : Want)
  | outOfRange (found : Int) (wanted : Want)
  | unknownName (found : String) (choices : List String)
  | missing (f : Field)
  | duplicate (f : Field)
  | empty
  deriving DecidableEq

/-- Floating point numbers in complaints: from the fifth place behind the point
to the sixteenth before it they are written out, and an exponent has a sign but
no zero in front. -/
def floatStyle : Decimal.Style := ⟨-5, 15, 1⟩

def ticked (s : String) : String := "`" ++ s ++ "`"

def Kind.text : Kind → String
  | .null => "null"
  | .boolean b => "boolean " ++ ticked (if b then "true" else "false")
  | .integer z => "integer " ++ ticked (Decimal.text z)
  | .floating bits => "floating point " ++ ticked (String.ofList (floatStyle.render bits))
  | .string s => "string " ++ Text.quoted s
  | .sequence => "sequence"
  | .map => "map"

def Want.text : Want → String
  | .int64 => "i64"
  | .uint32 => "u32"
  | .unit => "unit"
  | .config => "struct HiLoConfig"

/-- The names that may stand somewhere: two with an "or", more as a list. -/
def choicesText : List String → String
  | [a, b] => ticked a ++ " or " ++ ticked b
  | names => "one of " ++ ", ".intercalate (names.map ticked)

/-- The sentence shown to the user. -/
def Complaint.message : Complaint → String
  | .wrongKind found wanted => "invalid type: " ++ found.text ++ ", expected " ++ wanted.text
  | .outOfRange found wanted =>
    "invalid value: " ++ (Kind.integer found).text ++ ", expected " ++ wanted.text
  | .unknownName found choices =>
    "unknown variant " ++ ticked found ++ ", expected " ++ choicesText choices
  | .missing f => "missing field " ++ ticked f.key
  | .duplicate f => "duplicate field " ++ ticked f.key
  | .empty => "invalid length 0, expected struct HiLoConfig with 4 elements"

end HiLo.Config
