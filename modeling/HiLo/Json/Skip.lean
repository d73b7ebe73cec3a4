/-
HiLo.Json.Skip — values that are of no interest.

`value` finds the end of any JSON value, however deeply it is nested, and
checks on the way that it is one. What is open is kept in a list of brackets,
innermost first.
-/
import HiLo.Json.Number
import HiLo.Json.Text

namespace HiLo.Json.Skip

variable {δ : Type}

/-! ## Brackets -/

/-- A bracket that is open. -/
inductive Bracket where
  | list
  | object
  deriving DecidableEq

namespace Bracket

def ofOpening? (c : Char) : Option Bracket :=
  if c = '[' then some .list else if c = '\x7b' then some .object else none

def closing : Bracket → Char
  | .list => ']'
  | .object => '\x7d'

end Bracket

/-! ## Parts of values -/

/-- The text behind the key of a member and its colon. -/
def key (cs : List Char) : Reading δ (List Char) :=
  match skipBlank cs with
  | [] => .error .truncated
  | c :: rest =>
    if c = '"' then do
      let rest ← Text.skip rest
      punctuation ':' rest
    else .error .malformed

/-- The text from the value of an item on: behind its key in an object. -/
def item : Bracket → List Char → Reading δ (List Char)
  | .list, cs => .ok cs
  | .object, cs => key cs

/-- The text behind a value that opens no bracket, given its first character:
a string, a number or a word. -/
def atom (c : Char) (rest : List Char) : Reading δ (List Char) :=
  if c = '"' then Text.skip rest
  else if c = '-' then Number.skip rest
  else if Decimal.isDigit c then Number.skip (c :: rest)
  else if c = 'n' then literal ['u', 'l', 'l'] rest
  else if c = 't' then literal ['r', 'u', 'e'] rest
  else if c = 'f' then literal ['a', 'l', 's', 'e'] rest
  else .error .malformed

theorem key_length {cs rest : List Char}
    (h : key cs = (.ok rest : Reading δ (List Char))) : rest.length < cs.length := by
  have hskip := skipBlank_length cs
  unfold key at h
  split at h
  · cases h
  · rename_i c r heq
    rw [heq] at hskip
    split at h
    · cases ht : (Text.skip r : Reading δ (List Char)) with
      | error e => simp [ht, bind, Except.bind] at h
      | ok r' =>
        have := Text.skip_length ht
        simp only [ht, bind, Except.bind] at h
        have := punctuation_length h
        simp only [List.length_cons] at hskip
        omega
    · cases h

theorem item_length {b : Bracket} {cs rest : List Char}
    (h : item b cs = (.ok rest : Reading δ (List Char))) : rest.length ≤ cs.length := by
  cases b with
  | list =>
    cases h
    exact Nat.le_refl _
  | object => exact Nat.le_of_lt (key_length h)

theorem atom_length {c : Char} {cs rest : List Char}
    (h : atom c cs = (.ok rest : Reading δ (List Char))) : rest.length ≤ cs.length := by
  unfold atom at h
  split at h
  · exact Nat.le_of_lt (Text.skip_length h)
  · split at h
    · exact Nat.le_of_lt (Number.skip_length h)
    · split at h
      · exact Nat.le_of_lt_succ (Number.skip_length h)
      · split at h
        · exact literal_length h
        · split at h
          · exact literal_length h
          · split at h
            · exact literal_length h
            · cases h

/-! ## Whole values -/

/-- What stands at the front of the text: a value begins, or one has ended. -/
inductive Place where
  | before
  | behind
  deriving DecidableEq

/-- Goes through a text until all brackets are closed. Each step takes at
least one character. -/
def through (place : Place) (opened : List Bracket) (cs : List Char) :
    Reading δ (List Char) :=
  match place, opened with
  | .behind, [] => .ok cs
  | .behind, b :: opened =>
    match _h : skipBlank cs with
    | [] => .error .truncated
    | c :: rest =>
      if c = ',' then
        match _hi : (item b rest : Reading δ (List Char)) with
        | .error e => .error e
        | .ok inside => through .before (b :: opened) inside
      else if c = b.closing then through .behind opened rest
      else .error .malformed
  | .before, opened =>
    match _h : skipBlank cs with
    | [] => .error .truncated
    | c :: rest =>
      match Bracket.ofOpening? c with
      | some b =>
        match _hr : skipBlank rest with
        | [] => .error .truncated
        | d :: behind =>
          if d = b.closing then through .behind opened behind
          else
            match _hi : (item b (d :: behind) : Reading δ (List Char)) with
            | .error e => .error e
            | .ok inside => through .before (b :: opened) inside
      | none =>
        match _ha : (atom c rest : Reading δ (List Char)) with
        | .error e => .error e
        | .ok behind => through .behind opened behind
termination_by cs.length
decreasing_by
  all_goals
    have hskip := skipBlank_length cs
    simp only [_h, List.length_cons] at hskip
  · have := item_length _hi
    omega
  · omega
  · have hrest := skipBlank_length rest
    simp only [_hr, List.length_cons] at hrest
    omega
  · have hrest := skipBlank_length rest
    have := item_length _hi
    simp only [_hr, List.length_cons] at hrest this
    omega
  · have := atom_length _ha
    omega

def value (cs : List Char) : Reading δ (List Char) := through .before [] cs

end HiLo.Json.Skip
