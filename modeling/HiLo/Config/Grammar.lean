/-
HiLo.Config.Grammar — which texts are configurations.

A configuration in its object form is a list of entries: settings with their values and other keys.
`IsObject es s` says that `s` is such an object with the entries `es` in this order, and
`Given es c` which configuration they give. Its array form holds the values alone, in the fixed
order of the settings (`IsArray es s`). None of this mentions how a text is read.

A text can also fail to be a configuration. `OffendsAt es c cs rest` says that it begins as an
object with the entries `es` and that something stands behind them about which one complains
with `c`.

A written configuration is a list of tokens. `Spaced ts cs` says that `cs` holds them with any
blanks around them.
-/
import HiLo.Config.Complaint
import HiLo.Json.Grammar

namespace HiLo.Config

open Json

/-! ## Entries -/

/-- A member of an object: a setting with its value, or a key that is no setting's. -/
inductive Entry where
  | capacity (n : Int64)
  | scheme (m : Scheme)
  | strategy (s : Strategy)
  | attempts (n : UInt32)
  | other (key : String) (foreign : ∀ f : Field, f.key ≠ key)

namespace Entry

def field? : Entry → Option Field
  | .capacity _ => some .capacity
  | .scheme _ => some .scheme
  | .strategy _ => some .strategy
  | .attempts _ => some .attempts
  | .other _ _ => none

def key : Entry → String
  | .capacity _ => Field.capacity.key
  | .scheme _ => Field.scheme.key
  | .strategy _ => Field.strategy.key
  | .attempts _ => Field.attempts.key
  | .other key _ => key

end Entry

/-- No setting is among the entries twice. -/
def Once (es : List Entry) : Prop := (es.filterMap Entry.field?).Nodup

/-- A setting has the value of its entry, or its default if no entry is for it. -/
def Settled {α : Type} (entry : α → Entry) (default : α) (es : List Entry) (x : α) : Prop :=
  entry x ∈ es ∨ (∀ y, entry y ∉ es) ∧ x = default

/-- The configuration that entries give. -/
structure Given (es : List Entry) (c : Config) : Prop where
  capacity : .capacity c.capacity ∈ es
  scheme : Settled .scheme .hilo es c.scheme
  strategy : Settled .strategy .optimistic es c.strategy
  attempts : Settled .attempts 4 es c.attempts

def integer? (c : Config) : Field → Option Int
  | .capacity => some c.capacity.toInt
  | .attempts => some c.attempts.toNat
  | _ => none

/-! ## Objects -/

/-- A name as a value: a string, or an object with the name as its one key and null behind it. -/
inductive NameAt (name : String) : List Char → List Char → Prop where
  | string {cs rest : List Char} (string : Text.At name.toList cs rest) :
      NameAt name ('"' :: cs) rest
  | object {cs cs₁ cs₂ cs₃ cs₄ rest : List Char} (before : Blanks cs ('"' :: cs₁))
      (key : Text.At name.toList cs₁ cs₂) (colon : Blanks cs₂ (':' :: cs₃))
      (between : Blanks cs₃ ('n' :: 'u' :: 'l' :: 'l' :: cs₄))
      (behind : Blanks cs₄ ('\x7d' :: rest)) : NameAt name ('\x7b' :: cs) rest

/-- The value of an entry. Behind another key it may be any. -/
def Entry.ValueAt : Entry → List Char → List Char → Prop
  | .capacity n => Number.IntegerAt n.toInt
  | .scheme m => NameAt m.name
  | .strategy s => NameAt s.name
  | .attempts n => Number.IntegerAt n.toNat
  | .other _ _ => Part.At .value

/-- An entry as a member of an object, with the blanks around it. The key may be written with
escapes. -/
inductive Entry.At (e : Entry) : List Char → List Char → Prop where
  | mk {cs cs₁ cs₂ cs₃ cs₄ cs₅ rest : List Char} (before : Blanks cs ('"' :: cs₁))
      (key : Text.At e.key.toList cs₁ cs₂) (colon : Blanks cs₂ (':' :: cs₃))
      (between : Blanks cs₃ cs₄) (value : e.ValueAt cs₄ cs₅) (behind : Blanks cs₅ rest) :
      Entry.At e cs rest

/-- Entries with commas in between. -/
inductive EntriesAt : List Entry → List Char → List Char → Prop where
  | last {e : Entry} {cs rest : List Char} (entry : e.At cs rest) : EntriesAt [e] cs rest
  | more {e : Entry} {es : List Entry} {cs cs' rest : List Char} (entry : e.At cs (',' :: cs'))
      (others : EntriesAt es cs' rest) : EntriesAt (e :: es) cs rest

/-- Entries between the brackets of an object. -/
inductive ObjectAt : List Entry → List Char → List Char → Prop where
  | empty {cs rest : List Char} (inside : Blanks cs ('\x7d' :: rest)) :
      ObjectAt [] ('\x7b' :: cs) rest
  | filled {es : List Entry} {cs rest : List Char} (inside : EntriesAt es cs ('\x7d' :: rest)) :
      ObjectAt es ('\x7b' :: cs) rest

/-- A whole text that is an object with the given entries, in their order. -/
def IsObject (es : List Entry) (s : String) : Prop :=
  ∃ cs rest, Blanks s.toList cs ∧ ObjectAt es cs rest ∧ Blanks rest []

/-! ## Either form -/

open Skip (Bracket)

/-- A value where an object or an array holds it: behind a key, or alone. -/
inductive PlacedAt (name : String) (rule : List Char → List Char → Prop) :
    Bracket → List Char → List Char → Prop where
  | element {cs cs₁ rest : List Char} (before : Blanks cs cs₁) (value : rule cs₁ rest) :
      PlacedAt name rule .list cs rest
  | member {cs cs₁ cs₂ cs₃ cs₄ rest : List Char} (before : Blanks cs ('"' :: cs₁))
      (key : Text.At name.toList cs₁ cs₂) (colon : Blanks cs₂ (':' :: cs₃))
      (between : Blanks cs₃ cs₄) (value : rule cs₄ rest) : PlacedAt name rule .object cs rest

/-- An entry in its place, up to the end of its value. -/
def Entry.PlacedAt (e : Entry) : Bracket → List Char → List Char → Prop :=
  Config.PlacedAt e.key e.ValueAt

/-- Entries with a comma behind each. -/
inductive LeadAt (b : Bracket) : List Entry → List Char → List Char → Prop where
  | nothing {rest : List Char} : LeadAt b [] rest rest
  | entry {e : Entry} {es : List Entry} {cs cs₁ cs₂ rest : List Char} (entry : e.PlacedAt b cs cs₁)
      (comma : Blanks cs₁ (',' :: cs₂)) (more : LeadAt b es cs₂ rest) : LeadAt b (e :: es) cs rest

/-- Entries with a comma before each, and the closing bracket. -/
inductive TailAt (b : Bracket) : List Entry → List Char → List Char → Prop where
  | closed {cs rest : List Char} (close : Blanks cs (b.closing :: rest)) : TailAt b [] cs rest
  | entry {e : Entry} {es : List Entry} {cs cs₁ cs₂ rest : List Char}
      (comma : Blanks cs (',' :: cs₁)) (entry : e.PlacedAt b cs₁ cs₂)
      (more : TailAt b es cs₂ rest) : TailAt b (e :: es) cs rest

/-- Entries with commas in between, and the closing bracket. -/
inductive ItemsAt (b : Bracket) : List Entry → List Char → List Char → Prop where
  | mk {e : Entry} {es : List Entry} {cs cs' rest : List Char} (first : e.PlacedAt b cs cs')
      (others : TailAt b es cs' rest) : ItemsAt b (e :: es) cs rest

/-- How the settings follow one another: in an array in their order and from the first one on, in an
object in any order but none twice. What is no setting can only be a member of an object. -/
def Arranged : Bracket → List (Option Field) → Prop
  | .list, fs => fs <+: Field.all.map some
  | .object, fs => (fs.filterMap id).Nodup

/-- A whole text that is an array with the values of the given entries, which are in order. -/
def IsArray (es : List Entry) (s : String) : Prop :=
  Arranged .list (es.map Entry.field?) ∧
    ∃ cs rest, Blanks s.toList ('[' :: cs) ∧ ItemsAt .list es cs rest ∧ Blanks rest []

/-- A text that begins as an array with a value for each setting and then goes on with a comma. -/
def Overfull (s : String) : Prop :=
  ∃ es cs rest, es.map Entry.field? = Field.all.map some ∧ Blanks s.toList ('[' :: cs) ∧
    LeadAt .list es cs rest

/-- A whole text with a value for a key, and with entries before and behind it. -/
inductive Around (b : Bracket) (before after : List Entry) (name : String)
    (rule : List Char → List Char → Prop) (s : String) : Prop where
  | mk {cs cs₁ cs₂ rest : List Char} (start : Blanks s.toList (b.opening :: cs))
      (lead : LeadAt b before cs cs₁) (placed : PlacedAt name rule b cs₁ cs₂)
      (tail : TailAt b after cs₂ rest) (stop : Blanks rest [])

/-! ## Offences -/

/-- What may be the value of a setting: an integer between two bounds, named by what a complaint
wants, or one of several names. -/
inductive Shape where
  | integer (wanted : Want) (least greatest : Int)
  | name (choices : List String)

def Field.shape : Field → Shape
  | .capacity => .integer .int64 (-9223372036854775808) 9223372036854775807
  | .scheme => .name ["hilo", "pooled"]
  | .strategy => .name ["lock", "optimistic", "stamped"]
  | .attempts => .integer .uint32 0 4294967295

/-- The front of a value where an integer is wanted, up to where it is certain that it is none that
fits. A string is one that has characters, for a surrogate that stands alone in it is malformed, and
an integer has 64 bits, with a sign or without. -/
inductive IntegerOffence (wanted : Want) (least greatest : Int) :
    Complaint → List Char → List Char → Prop where
  | null {rest : List Char} :
      IntegerOffence wanted least greatest (.wrongKind .null wanted)
        ('n' :: 'u' :: 'l' :: 'l' :: rest) rest
  | yes {rest : List Char} :
      IntegerOffence wanted least greatest (.wrongKind (.boolean true) wanted)
        ('t' :: 'r' :: 'u' :: 'e' :: rest) rest
  | no {rest : List Char} :
      IntegerOffence wanted least greatest (.wrongKind (.boolean false) wanted)
        ('f' :: 'a' :: 'l' :: 's' :: 'e' :: rest) rest
  | string {s cs rest : List Char} (string : Text.At s cs rest) :
      IntegerOffence wanted least greatest (.wrongKind (.string (String.ofList s)) wanted)
        ('"' :: cs) rest
  | list {rest : List Char} :
      IntegerOffence wanted least greatest (.wrongKind .sequence wanted) ('[' :: rest) rest
  | object {rest : List Char} :
      IntegerOffence wanted least greatest (.wrongKind .map wanted) ('\x7b' :: rest) rest
  | integer {z : Int} {cs rest : List Char} (number : Number.IntegerAt z cs rest)
      (word : -9223372036854775808 ≤ z ∧ z ≤ 18446744073709551615)
      (outside : z < least ∨ greatest < z) :
      IntegerOffence wanted least greatest (.outOfRange z wanted) cs rest

/-- A string where a name is wanted, if it is none of the names. -/
inductive NameOffence (choices : List String) : Complaint → List Char → List Char → Prop where
  | string {s cs rest : List Char} (string : Text.At s cs rest)
      (unknown : String.ofList s ∉ choices) :
      NameOffence choices (.unknownName (String.ofList s) choices) ('"' :: cs) rest

/-- The front of a value that may not stand there, and what is wrong with it. -/
def Shape.OffenceAt : Shape → Complaint → List Char → List Char → Prop
  | .integer wanted least greatest => IntegerOffence wanted least greatest
  | .name choices => NameOffence choices

/-- The front of a member that may not follow the entries `es`: the key of a setting that is among
them, or another setting with a value that it may not have. -/
inductive MemberOffence (es : List Entry) : Complaint → List Char → List Char → Prop where
  | repeated {f : Field} {cs cs₁ rest : List Char} (given : f ∈ es.filterMap Entry.field?)
      (before : Blanks cs ('"' :: cs₁)) (key : Text.At f.key.toList cs₁ rest) :
      MemberOffence es (.duplicate f) cs rest
  | value {f : Field} {c : Complaint} {cs rest : List Char} (new : f ∉ es.filterMap Entry.field?)
      (placed : PlacedAt f.key (f.shape.OffenceAt c) .object cs rest) :
      MemberOffence es c cs rest

/-- A text that begins as an object with the entries `es` and a comma behind each of them, and then
goes on with an offence. -/
inductive OffendsAt (es : List Entry) (c : Complaint) : List Char → List Char → Prop where
  | mk {cs cs₁ cs₂ rest : List Char} (start : Blanks cs ('\x7b' :: cs₁))
      (lead : LeadAt .object es cs₁ cs₂) (offence : MemberOffence es c cs₂ rest) :
      OffendsAt es c cs rest

/-! ## Tokens -/

/-- Tokens with any blanks between and around them. -/
inductive Spaced : List (List Char) → List Char → Prop where
  | nothing {cs : List Char} (blanks : Blanks cs []) : Spaced [] cs
  | token {t cs cs' : List Char} {ts : List (List Char)} (before : Blanks cs (t ++ cs'))
      (more : Spaced ts cs') : Spaced (t :: ts) cs

end HiLo.Config
