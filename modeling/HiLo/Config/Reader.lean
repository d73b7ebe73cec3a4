/-
HiLo.Config.Reader — configurations from JSON texts.

A configuration is an object with the settings as members, in any order, or an
array of the settings in their fixed order. The capacity must be there; the
other settings have defaults, and an array may end before them. Members of an
object that are no setting are skipped. A scheme or a strategy is a string, or
an object whose one key is the name and whose value is null.

The text is read once, from left to right. The first fault is the answer: a
setting that is given twice is refused at its second key, a name at its
closing quote, a number where it ends, and a missing capacity at the end of
the object.
-/
import HiLo.Config.Complaint
import HiLo.Json.Skip

namespace HiLo.Config

namespace Reader

open Json

abbrev Read := Reading Complaint

def refuse {α : Type} (c : Complaint) : Read α := .error (.data c)

/-! ## Values that are not wanted -/

def startsNumber (c : Char) : Bool := c == '-' || Decimal.isDigit c

/-- The number at the front of a text, given its first character. -/
def numberFrom (c : Char) (rest : List Char) : Read (Number × List Char) :=
  if c = '-' then Number.scan true rest else Number.scan false (c :: rest)

def kindOf : Number → Kind
  | .integer z => .integer z
  | .floating bits => .floating bits

/-- The kind of the value at the front of a text that begins with a token. A
word, a number or a string is read to its end first. -/
def kindAt : List Char → Read Kind
  | [] => .error .truncated
  | c :: rest =>
    if c = 'n' then do
      let _ ← literal ['u', 'l', 'l'] rest
      .ok .null
    else if c = 't' then do
      let _ ← literal ['r', 'u', 'e'] rest
      .ok (.boolean true)
    else if c = 'f' then do
      let _ ← literal ['a', 'l', 's', 'e'] rest
      .ok (.boolean false)
    else if startsNumber c then do
      let (n, _) ← numberFrom c rest
      .ok (kindOf n)
    else if c = '"' then do
      let (s, _) ← Text.read rest
      .ok (.string (String.ofList s))
    else if c = '[' then .ok .sequence
    else if c = '\x7b' then .ok .map
    else .error .malformed

def unwanted {α : Type} (wanted : Want) (cs : List Char) : Read α := do
  let kind ← kindAt cs
  refuse (.wrongKind kind wanted)

/-! ## Values that are wanted -/

def integer (wanted : Want) (least greatest : Int) (cs : List Char) :
    Read (Int × List Char) :=
  match skipBlank cs with
  | [] => .error .truncated
  | c :: rest =>
    if startsNumber c then do
      let (n, rest) ← numberFrom c rest
      match n with
      | .integer z =>
        if least ≤ z ∧ z ≤ greatest then .ok (z, rest) else refuse (.outOfRange z wanted)
      | .floating bits => refuse (.wrongKind (.floating bits) wanted)
    else unwanted wanted (c :: rest)

def named {α : Type} (find? : String → Option α) (choices : List String)
    (s : List Char) : Read α :=
  match find? (String.ofList s) with
  | some x => .ok x
  | none => refuse (.unknownName (String.ofList s) choices)

def nothing (cs : List Char) : Read (List Char) :=
  match skipBlank cs with
  | [] => .error .truncated
  | 'n' :: rest => literal ['u', 'l', 'l'] rest
  | cs => unwanted .unit cs

/-- A choice between names: a string, or an object with the name as its key
and null as its value. A key that is no string is a fault of the text, whatever
else it is. -/
def choice {α : Type} (find? : String → Option α) (choices : List String)
    (cs : List Char) : Read (α × List Char) :=
  match skipBlank cs with
  | [] => .error .truncated
  | '"' :: rest => do
    let (s, rest) ← Text.read rest
    let x ← named find? choices s
    .ok (x, rest)
  | '\x7b' :: rest => do
    let rest ← punctuation '"' rest
    let (s, rest) ← Text.read rest
    let x ← named find? choices s
    let rest ← punctuation ':' rest
    let rest ← nothing rest
    let rest ← punctuation '\x7d' rest
    .ok (x, rest)
  | _ :: _ => .error .malformed

def scheme (cs : List Char) : Read (Scheme × List Char) :=
  choice Scheme.ofName? (Scheme.all.map Scheme.name) cs

def strategy (cs : List Char) : Read (Strategy × List Char) :=
  choice Strategy.ofName? (Strategy.all.map Strategy.name) cs

/-! ## Settings -/

/-- The settings that were read so far. -/
structure Draft where
  capacity : Option Int64 := none
  scheme : Option Scheme := none
  strategy : Option Strategy := none
  attempts : Option UInt32 := none
  deriving DecidableEq

namespace Draft

def has (d : Draft) : Field → Bool
  | .capacity => d.capacity.isSome
  | .scheme => d.scheme.isSome
  | .strategy => d.strategy.isSome
  | .attempts => d.attempts.isSome

def config? (d : Draft) : Option Config :=
  d.capacity.map fun capacity =>
    { capacity
      scheme := d.scheme.getD default
      strategy := d.strategy.getD default
      attempts := d.attempts.getD defaultAttempts }

def fill (d : Draft) (f : Field) (cs : List Char) : Read (Draft × List Char) :=
  match f with
  | .capacity => do
    let (z, rest) ← integer .int64 Int64.minValue.toInt Int64.maxValue.toInt cs
    .ok ({ d with capacity := some (Int64.ofInt z) }, rest)
  | .scheme => do
    let (m, rest) ← Reader.scheme cs
    .ok ({ d with scheme := some m }, rest)
  | .strategy => do
    let (s, rest) ← Reader.strategy cs
    .ok ({ d with strategy := some s }, rest)
  | .attempts => do
    let (z, rest) ← integer .uint32 0 (UInt32.size - 1) cs
    .ok ({ d with attempts := some (UInt32.ofNat z.toNat) }, rest)

end Draft

/-! ## Objects -/

/-- One member, read behind the opening quote of its key. -/
def member (d : Draft) (cs : List Char) : Read (Draft × List Char) := do
  let (key, rest) ← Text.read cs
  match Field.ofKey? (String.ofList key) with
  | some f =>
    if d.has f then refuse (.duplicate f)
    else do
      let rest ← punctuation ':' rest
      d.fill f rest
  | none => do
    let rest ← punctuation ':' rest
    let rest ← Skip.value rest
    .ok (d, rest)

/-- The members behind the first one, up to the closing brace. At most `n` of
them are read; a text has fewer members than characters. -/
def moreMembers : Nat → Draft → List Char → Read (Draft × List Char)
  | 0, _, _ => .error .truncated
  | n + 1, d, cs =>
    match skipBlank cs with
    | [] => .error .truncated
    | '\x7d' :: rest => .ok (d, rest)
    | ',' :: rest => do
      let rest ← punctuation '"' rest
      let (d, rest) ← member d rest
      moreMembers n d rest
    | _ :: _ => .error .malformed

/-- The members of an object, read behind its opening brace. -/
def members (cs : List Char) : Read (Draft × List Char) :=
  match skipBlank cs with
  | [] => .error .truncated
  | '\x7d' :: rest => .ok ({}, rest)
  | '"' :: rest => do
    let (d, rest) ← member {} rest
    moreMembers (cs.length + 1) d rest
  | _ :: _ => .error .malformed

/-! ## Arrays -/

/-- The elements for the settings that are left, up to the closing bracket.
Each but the very first is behind a comma. -/
def moreElements (d : Draft) : List Field → List Char → Read (Draft × List Char)
  | [], cs => do
    let rest ← punctuation ']' cs
    .ok (d, rest)
  | f :: fs, cs =>
    match skipBlank cs with
    | [] => .error .truncated
    | ']' :: rest => .ok (d, rest)
    | ',' :: rest =>
      match skipBlank rest with
      | [] => .error .truncated
      | ']' :: _ => .error .malformed
      | rest => do
        let (d, rest) ← d.fill f rest
        moreElements d fs rest
    | _ :: _ => .error .malformed

/-- The elements of an array, read behind its opening bracket. -/
def elements (cs : List Char) : Read (Draft × List Char) :=
  match skipBlank cs with
  | [] => .error .truncated
  | ']' :: _ => refuse .empty
  | cs => do
    let (d, rest) ← Draft.fill {} .capacity cs
    moreElements d [.scheme, .strategy, .attempts] rest

/-! ## Whole texts -/

def value (cs : List Char) : Read (Config × List Char) := do
  let (d, rest) ← match skipBlank cs with
    | [] => .error .truncated
    | '\x7b' :: rest => members rest
    | '[' :: rest => elements rest
    | cs => unwanted .config cs
  match d.config? with
  | some c => .ok (c, rest)
  | none => refuse (.missing .capacity)

/-- A whole text: something is read from its front, and nothing but blanks may
follow. -/
def whole {α : Type} (read : List Char → Read (α × List Char)) (s : String) : Read α := do
  let (x, rest) ← read s.toList
  match skipBlank rest with
  | [] => .ok x
  | _ :: _ => .error .malformed

end Reader

def parse (s : String) : Reader.Read Config := Reader.whole Reader.value s

end HiLo.Config

namespace HiLo

def Scheme.parse (s : String) : Config.Reader.Read Scheme :=
  Config.Reader.whole Config.Reader.scheme s

def Strategy.parse (s : String) : Config.Reader.Read Strategy :=
  Config.Reader.whole Config.Reader.strategy s

end HiLo
