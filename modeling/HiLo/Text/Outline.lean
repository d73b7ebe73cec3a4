/-
HiLo.Text.Outline — descriptions of values as trees, in two layouts.

A description is a word, a named record, a named tuple or a list. `line`
writes it on one line; `indented` gives each part a line of its own, four
spaces deeper than what holds it and closed by a comma.

A record may be `partly` shown: it then ends in two dots.
-/

namespace HiLo

/-- The description of a value: a text that stands as it is, a record with its
fields in order (`partly` marks hidden ones), a name applied to values, or a
list of values. -/
inductive Outline where
  | word (text : String)
  | record (name : String) (fields : List (String × Outline)) (partly : Bool)
  | tuple (name : String) (items : List Outline)
  | list (items : List Outline)

namespace Outline

def whole (name : String) (fields : List (String × Outline)) : Outline :=
  .record name fields false

/-! ## On one line -/

mutual

/-- The description on one line. -/
def line : Outline → String
  | .word t => t
  | .record name fields partly =>
    match lineFields fields ++ (if partly then [".."] else []) with
    | [] => name
    | parts => name ++ " \x7b " ++ ", ".intercalate parts ++ " \x7d"
  | .tuple name items => name ++ "(" ++ ", ".intercalate (lineItems items) ++ ")"
  | .list items => "[" ++ ", ".intercalate (lineItems items) ++ "]"

def lineFields : List (String × Outline) → List String
  | [] => []
  | (name, o) :: rest => (name ++ ": " ++ line o) :: lineFields rest

def lineItems : List Outline → List String
  | [] => []
  | o :: rest => line o :: lineItems rest

end

/-! ## Indented -/

def margin (depth : Nat) : String := String.ofList (List.replicate (4 * depth) ' ')

/-- The parts between two brackets, each closed by a line break already. -/
def bracketed (left right : String) (depth : Nat) : List String → String
  | [] => left ++ right
  | parts => left ++ "\n" ++ String.join parts ++ margin depth ++ right

mutual

/-- The description over several lines, starting at a depth. -/
def indentedAt (depth : Nat) : Outline → String
  | .word t => t
  | .record name fields partly =>
    match indentedFields (depth + 1) fields
        ++ (if partly then [margin (depth + 1) ++ "..\n"] else []) with
    | [] => name
    | parts => bracketed (name ++ " \x7b") "\x7d" depth parts
  | .tuple name items => bracketed (name ++ "(") ")" depth (indentedItems (depth + 1) items)
  | .list items => bracketed "[" "]" depth (indentedItems (depth + 1) items)

def indentedFields (depth : Nat) : List (String × Outline) → List String
  | [] => []
  | (name, o) :: rest =>
    (margin depth ++ name ++ ": " ++ indentedAt depth o ++ ",\n") :: indentedFields depth rest

def indentedItems (depth : Nat) : List Outline → List String
  | [] => []
  | o :: rest => (margin depth ++ indentedAt depth o ++ ",\n") :: indentedItems depth rest

end

def indented (o : Outline) : String := indentedAt 0 o

end Outline

end HiLo
