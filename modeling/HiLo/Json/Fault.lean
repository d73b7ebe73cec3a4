/-
HiLo.Json.Fault — where reading a text stops.

A text is read once, from left to right, and the first fault found is the
answer, whatever follows. A value of the wrong kind is told from a text that
is not JSON at all and from one that ends too early.
-/

namespace HiLo.Json

/-- Why a text is refused: a value is not the one wanted (`δ` holds what can be
wrong with it), a character stands where it may not, or the text ends too
early. -/
inductive Fault (δ : Type) where
  | data (d : δ)
  | malformed
  | truncated
  deriving DecidableEq

/-- The result of reading. What is read from the front of a text comes with
the rest of the text. -/
abbrev Reading (δ : Type) := Except (Fault δ)

variable {δ : Type}

/-- The characters that may stand between tokens. -/
def isBlank (c : Char) : Bool := c == ' ' || c == '\n' || c == '\t' || c == '\r'

/-- The text from its first token on. -/
def skipBlank (cs : List Char) : List Char := cs.dropWhile isBlank

def literal : List Char → List Char → Reading δ (List Char)
  | [], cs => .ok cs
  | _ :: _, [] => .error .truncated
  | w :: ws, c :: cs => if c = w then literal ws cs else .error .malformed

def punctuation (mark : Char) (cs : List Char) : Reading δ (List Char) :=
  match skipBlank cs with
  | [] => .error .truncated
  | c :: rest => if c = mark then .ok rest else .error .malformed

/-! ## Reading takes characters off the text -/

theorem skipBlank_length (cs : List Char) : (skipBlank cs).length ≤ cs.length :=
  (List.dropWhile_suffix isBlank).length_le

theorem literal_length {word cs rest : List Char}
    (h : literal word cs = (.ok rest : Reading δ (List Char))) :
    rest.length ≤ cs.length := by
  induction word generalizing cs with
  | nil =>
    cases h
    exact Nat.le_refl _
  | cons w ws ih =>
    cases cs with
    | nil => cases h
    | cons c cs =>
      simp only [literal] at h
      split at h
      · exact Nat.le_succ_of_le (ih h)
      · cases h

theorem punctuation_length {mark : Char} {cs rest : List Char}
    (h : punctuation mark cs = (.ok rest : Reading δ (List Char))) :
    rest.length < cs.length := by
  have hskip := skipBlank_length cs
  unfold punctuation at h
  split at h
  · cases h
  · rename_i c r heq
    rw [heq] at hskip
    split at h
    · cases h
      exact hskip
    · cases h

end HiLo.Json
