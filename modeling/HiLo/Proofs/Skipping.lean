/-
HiLo.Proofs.Skipping — a value of any shape is skipped to its end.

`Part.At.skip` is the result: whatever value stands at the front of a text, however deeply it is
nested, the skipper leaves what the grammar leaves.

The skipper goes through a text with a list of open brackets and never calls itself for what is
inside, while the grammar does. They meet in `Part.Passed`: a value leads from the place before it
to the place behind it with the same brackets open, and so do the items between two brackets.
-/
import HiLo.Proofs.Tokens

namespace HiLo.Json

variable {δ : Type}

/-! ## How a value begins -/

theorem ne_of_isDigit {c d : Char} (digit : Decimal.isDigit c = true)
    (other : Decimal.isDigit d = false) : c ≠ d := by
  rintro rfl
  simp_all

theorem not_isBlank_of_isDigit {c : Char} (digit : Decimal.isDigit c = true) :
    isBlank c = false := by
  have apart (d : Char) (other : Decimal.isDigit d = false) : c ≠ d := ne_of_isDigit digit other
  simp [isBlank, apart ' ' rfl, apart '\n' rfl, apart '\t' rfl, apart '\r' rfl]

/-- A value or an item begins with a character that closes no bracket. -/
theorem Part.At.front {p : Part} {cs rest : List Char} (h : Part.At p cs rest) :
    ∃ c behind, skipBlank cs = c :: behind ∧ c ≠ ']' ∧ c ≠ '\x7d' := by
  induction h with
  | null => exact ⟨'n', _, rfl, by decide⟩
  | yes => exact ⟨'t', _, rfl, by decide⟩
  | no => exact ⟨'f', _, rfl, by decide⟩
  | number number =>
    cases number with
    | unsigned _ number =>
      obtain ⟨c, cs', rfl, digit⟩ := number.head
      exact ⟨c, cs', skipBlank_cons (not_isBlank_of_isDigit digit), ne_of_isDigit digit rfl,
        ne_of_isDigit digit rfl⟩
    | negative _ _ => exact ⟨'-', _, rfl, by decide⟩
  | string _ => exact ⟨'"', _, rfl, by decide⟩
  | @empty b cs _ _ | @filled b cs _ _ _ =>
    cases b with
    | list => exact ⟨'[', cs, rfl, by decide⟩
    | object => exact ⟨'\x7b', cs, rfl, by decide⟩
  | element before _ _ ih => rwa [before.skip]
  | member before => exact ⟨'"', _, before.skip_cons rfl, by decide⟩
  | last _ ih => exact ih
  | more _ _ ih _ => exact ih

namespace Skip

open Number (Ends)

theorem Bracket.ofOpening?_opening (b : Bracket) : ofOpening? b.opening = some b := by
  cases b <;> rfl

theorem Bracket.not_isBlank_opening (b : Bracket) : isBlank b.opening = false := by
  cases b <;> rfl

theorem Bracket.not_isBlank_closing (b : Bracket) : isBlank b.closing = false := by
  cases b <;> rfl

theorem Bracket.ends_closing (b : Bracket) (rest : List Char) : Ends (b.closing :: rest) := by
  cases b <;> exact Number.ends_cons rfl (by decide)

/-! ## Single steps

A step depends on the text only from its first visible character on. -/

section

variable {b : Bracket} {opened : List Bracket} {c : Char} {cs cs' rest inside behind : List Char}

theorem through_comma (front : skipBlank cs = ',' :: rest)
    (item : (item b rest : Reading δ (List Char)) = .ok inside) :
    through .behind (b :: opened) cs =
      (through .before (b :: opened) inside : Reading δ (List Char)) := by
  rw [through]
  split
  · simp_all
  · rename_i c rest' front'
    obtain ⟨rfl, rfl⟩ : c = ',' ∧ rest' = rest := by simpa [front] using front'.symm
    rw [if_pos rfl]
    split <;> simp_all

theorem through_close (front : skipBlank cs = b.closing :: rest) :
    through .behind (b :: opened) cs = (through .behind opened rest : Reading δ (List Char)) := by
  rw [through]
  split
  · simp_all
  · rename_i c rest' front'
    obtain ⟨rfl, rfl⟩ : c = b.closing ∧ rest' = rest := by simpa [front] using front'.symm
    have other : b.closing ≠ ',' := by cases b <;> decide
    rw [if_neg other, if_pos rfl]

theorem through_atom (front : skipBlank cs = c :: rest) (other : Bracket.ofOpening? c = none)
    (atom : (atom c rest : Reading δ (List Char)) = .ok behind) :
    through .before opened cs = (through .behind opened behind : Reading δ (List Char)) := by
  rw [through]
  split
  · simp_all
  · rename_i c' rest' front'
    obtain ⟨rfl, rfl⟩ : c' = c ∧ rest' = rest := by simpa [front] using front'.symm
    rw [other]
    dsimp only
    split <;> simp_all

theorem through_empty (front : skipBlank cs = b.opening :: rest)
    (close : skipBlank rest = b.closing :: behind) :
    through .before opened cs = (through .behind opened behind : Reading δ (List Char)) := by
  rw [through]
  split
  · simp_all
  · rename_i c rest' front'
    obtain ⟨rfl, rfl⟩ : c = b.opening ∧ rest' = rest := by simpa [front] using front'.symm
    rw [b.ofOpening?_opening]
    dsimp only
    split <;> simp_all

theorem through_open (front : skipBlank cs = b.opening :: rest)
    (more : skipBlank rest = c :: behind) (other : c ≠ b.closing)
    (item : (item b (c :: behind) : Reading δ (List Char)) = .ok inside) :
    through .before opened cs =
      (through .before (b :: opened) inside : Reading δ (List Char)) := by
  rw [through]
  split
  · simp_all
  · rename_i c rest' front'
    obtain ⟨rfl, rfl⟩ : c = b.opening ∧ rest' = rest := by simpa [front] using front'.symm
    rw [b.ofOpening?_opening]
    dsimp only
    split
    · simp_all
    · rename_i d behind' more'
      obtain ⟨rfl, rfl⟩ : d = _ ∧ behind' = behind := by simpa [more] using more'.symm
      rw [if_neg other]
      split <;> simp_all

/-- The key of a member is read up to its value. -/
theorem key_of_member {cs₁ cs₂ : List Char} (front : skipBlank cs = '"' :: cs₁)
    (key : Text.AnyAt cs₁ cs₂) (colon : Blanks cs₂ (':' :: rest)) :
    Skip.key cs = (.ok rest : Reading δ (List Char)) := by
  simpa [Skip.key, front, key.skip, bind, Except.bind] using colon.punctuation rfl

/-- A number is an atom, with a minus sign or without. -/
theorem through_number {t : Number.Token} {cs₀ : List Char} (number : Number.At t cs rest)
    (ends : Ends rest) (same : skipBlank cs₀ = skipBlank cs) :
    through .before opened cs₀ = (through .behind opened rest : Reading δ (List Char)) := by
  cases number with
  | unsigned _ number =>
    obtain ⟨c, cs', rfl, digit⟩ := number.head
    have apart (d : Char) (other : Decimal.isDigit d = false) : c ≠ d := ne_of_isDigit digit other
    rw [skipBlank_cons (not_isBlank_of_isDigit digit)] at same
    refine through_atom same ?_ ?_
    · simp [Bracket.ofOpening?, apart '[' rfl, apart '\x7b' rfl]
    · simp [atom, apart '"' rfl, apart '-' rfl, digit, number.skip ends]
  | negative _ number => exact through_atom same rfl (by simp [atom, number.skip ends])

end

/-! ## Whole values -/

/-- How the skipper passes a part of a text. A value is passed with any brackets open. Between two
brackets it begins behind the key of the first item and stops behind the last one. -/
def Passed (δ : Type) : Part → List Char → List Char → Prop
  | .value, cs, rest => ∀ cs₀ opened, skipBlank cs₀ = skipBlank cs →
      through .before opened cs₀ = (through .behind opened rest : Reading δ (List Char))
  | .item b, cs, rest | .items b, cs, rest => ∀ cs₀, skipBlank cs₀ = skipBlank cs →
      ∃ inside behind, (item b cs₀ : Reading δ (List Char)) = .ok inside ∧ Blanks behind rest ∧
        ∀ opened, through .before (b :: opened) inside =
          (through .behind (b :: opened) behind : Reading δ (List Char))

/-- Every part is passed as the grammar says, by induction on how the grammar builds it. -/
theorem passed_of_at {p : Part} {cs rest : List Char} (h : Part.At p cs rest) (ends : Ends rest) :
    Passed δ p cs rest := by
  induction h with
  | @null rest =>
    intro cs₀ opened same
    exact through_atom same rfl (literal_append ['u', 'l', 'l'] rest)
  | @yes rest =>
    intro cs₀ opened same
    exact through_atom same rfl (literal_append ['r', 'u', 'e'] rest)
  | @no rest =>
    intro cs₀ opened same
    exact through_atom same rfl (literal_append ['a', 'l', 's', 'e'] rest)
  | number number =>
    intro cs₀ opened same
    exact through_number number ends same
  | string string =>
    intro cs₀ opened same
    exact through_atom same rfl string.skip
  | @empty b cs rest inside =>
    intro cs₀ opened same
    rw [skipBlank_cons b.not_isBlank_opening] at same
    exact through_empty same (inside.skip_cons b.not_isBlank_closing)
  | @filled b cs rest inside ih =>
    intro cs₀ opened same
    rw [skipBlank_cons b.not_isBlank_opening] at same
    obtain ⟨c, text, front, list, object⟩ := inside.front
    obtain ⟨inside, behind, key, blanks, passed⟩ :=
      ih (b.ends_closing rest) (c :: text) (by rw [← front, skipBlank_skipBlank])
    have other : c ≠ b.closing := by
      cases b
      · exact list
      · exact object
    rw [through_open same front other key, passed,
      through_close (blanks.skip_cons b.not_isBlank_closing)]
  | element before _ behind ih =>
    intro cs₀ same
    exact ⟨cs₀, _, rfl, behind, fun opened => ih (ends.of_blanks behind) cs₀ _
      (by rw [same, before.skip])⟩
  | member before key colon between _ behind ih =>
    intro cs₀ same
    rw [before.skip_cons rfl] at same
    exact ⟨_, _, key_of_member same key colon, behind, fun opened => ih (ends.of_blanks behind) _ _
      between.skip⟩
  | last _ ih => exact ih ends
  | more _ _ ih₁ ih₂ =>
    intro cs₀ same
    obtain ⟨inside, behind, key, blanks, passed⟩ :=
      ih₁ (Number.ends_cons rfl (by decide)) cs₀ same
    obtain ⟨inside', behind', key', blanks', passed'⟩ := ih₂ ends _ rfl
    refine ⟨inside, behind', key, blanks', fun opened => ?_⟩
    rw [passed, through_comma (blanks.skip_cons rfl) key', passed']

end Skip

/-- A value is skipped to its end, with the blanks before it. -/
theorem Part.At.skip {cs₀ cs rest : List Char} (h : Part.At .value cs rest)
    (before : Blanks cs₀ cs) (ends : Number.Ends rest) :
    Skip.value cs₀ = (.ok rest : Reading δ (List Char)) := by
  rw [Skip.value, Skip.passed_of_at h ends cs₀ [] before.skip, Skip.through]

end HiLo.Json
