/-
HiLo.Proofs.Readings — the value of a setting is read as what it is.

An integer inside the bounds and a name in either of its forms are read where the grammar finds
them (`integer_of_at`, `choice_of_at`). From this `Draft.fill_of_valueAt` makes one statement
about all settings: the value of an entry is read and put into the draft.
-/
import HiLo.Config.Grammar
import HiLo.Config.Reader
import HiLo.Proofs.Skipping

namespace HiLo

open Json

/-! ## Numbers -/

namespace Json.Number

variable {δ : Type} {t : Token} {cs rest : List Char}

theorem UnsignedAt.scan (h : UnsignedAt t cs rest) (ends : Ends rest) (negative : Bool) :
    Number.scan negative cs = (({ t with negative }.value?).elim (.error .malformed)
      fun n => .ok (n, rest) : Reading δ (Number × List Char)) := by
  cases value : { t with negative }.value? <;>
    simp [Number.scan, h.scanToken ends, value, bind, Except.bind]

end Json.Number

namespace Config.Reader

/-- A number is read as what its parts stand for, and its first character says that it is one. -/
theorem numberFrom_of_at {t : Number.Token} {cs rest : List Char} (h : Number.At t cs rest)
    (ends : Number.Ends rest) :
    ∃ c cs', cs = c :: cs' ∧ isBlank c = false ∧ startsNumber c = true ∧
      numberFrom c cs' = t.value?.elim (.error .malformed) fun n => .ok (n, rest) := by
  cases h with
  | unsigned sign number =>
    obtain ⟨c, cs', rfl, digit⟩ := number.head
    have other : c ≠ '-' := ne_of_isDigit digit rfl
    refine ⟨c, cs', rfl, not_isBlank_of_isDigit digit, by simp [startsNumber, digit], ?_⟩
    rw [numberFrom, if_neg other, number.scan ends, ← sign]
  | negative sign number =>
    refine ⟨'-', _, rfl, rfl, rfl, ?_⟩
    rw [numberFrom, if_pos rfl, number.scan ends, ← sign]

section

variable {wanted : Want} {least greatest z : Int} {t : Number.Token} {cs₀ cs rest : List Char}

/-- Where an integer is wanted, a number that stands for one is read if it is between the bounds. -/
theorem integer_of_integer (h : Number.At t cs rest) (before : Blanks cs₀ cs)
    (ends : Number.Ends rest) (value : t.value? = some (.integer z)) :
    integer wanted least greatest cs₀ =
      if least ≤ z ∧ z ≤ greatest then .ok (z, rest) else refuse (.outOfRange z wanted) := by
  obtain ⟨c, cs', rfl, visible, starts, number⟩ := numberFrom_of_at h ends
  rw [value] at number
  simp [integer, before.skip_cons visible, starts, number, bind, Except.bind]

/-- A floating point number is complained about where an integer is wanted. -/
theorem integer_of_floating {bits : UInt64} (h : Number.At t cs rest) (before : Blanks cs₀ cs)
    (ends : Number.Ends rest) (value : t.value? = some (.floating bits)) :
    integer wanted least greatest cs₀ = .error (.data (.wrongKind (.floating bits) wanted)) := by
  obtain ⟨c, cs', rfl, visible, starts, number⟩ := numberFrom_of_at h ends
  rw [value] at number
  simp [integer, before.skip_cons visible, starts, number, refuse, bind, Except.bind]

/-- A number that is too large even for a floating point number counts as malformed. -/
theorem integer_of_none (h : Number.At t cs rest) (before : Blanks cs₀ cs)
    (ends : Number.Ends rest) (value : t.value? = none) :
    integer wanted least greatest cs₀ = .error .malformed := by
  obtain ⟨c, cs', rfl, visible, starts, number⟩ := numberFrom_of_at h ends
  rw [value] at number
  simp [integer, before.skip_cons visible, starts, number, bind, Except.bind]

/-- An integer between the bounds is read, if the bounds are those of 64-bit words. -/
theorem integer_of_at (h : Number.IntegerAt z cs rest) (before : Blanks cs₀ cs)
    (ends : Number.Ends rest) (inside : least ≤ z ∧ z ≤ greatest) (low : -2 ^ 63 ≤ least)
    (high : greatest < 2 ^ 64) : integer wanted least greatest cs₀ = .ok (z, rest) := by
  obtain ⟨t, number, integer⟩ := h
  have value := Number.Token.value?_of_integer? integer (by omega) (by omega)
  rw [integer_of_integer number before ends value, if_pos inside]

end

/-! ## Names -/

theorem nothing_of_blanks {cs rest : List Char}
    (h : Blanks cs ('n' :: 'u' :: 'l' :: 'l' :: rest)) : nothing cs = .ok rest := by
  rw [nothing, h.skip_cons rfl]
  exact literal_append ['u', 'l', 'l'] rest

/-- A name is read as a string or as the one key of an object. -/
theorem choice_of_at {α : Type} {find? : String → Option α} {choices : List String} {name : String}
    {x : α} {cs₀ cs rest : List Char} (h : NameAt name cs rest) (before : Blanks cs₀ cs)
    (found : find? name = some x) : choice find? choices cs₀ = .ok (x, rest) := by
  have known : named find? choices name.toList = .ok x := by
    simp [named, String.ofList_toList, found]
  cases h with
  | string string =>
    simp [choice, before.skip_cons rfl, string.read, known, bind, Except.bind]
  | object inside key colon between behind =>
    simp [choice, before.skip_cons rfl, inside.punctuation rfl, key.read, known,
      colon.punctuation rfl, nothing_of_blanks between, behind.punctuation rfl, bind, Except.bind]

/-! ## Settings -/

namespace Draft

def put (d : Draft) : Entry → Draft
  | .capacity n => { d with capacity := some n }
  | .scheme m => { d with scheme := some m }
  | .strategy s => { d with strategy := some s }
  | .attempts n => { d with attempts := some n }
  | .other _ _ => d

/-- The value of a setting is read and put into the draft. -/
theorem fill_of_valueAt {d : Draft} {e : Entry} {f : Field} {cs₀ cs rest : List Char}
    (h : e.ValueAt cs rest) (setting : e.field? = some f) (before : Blanks cs₀ cs)
    (ends : Number.Ends rest) : d.fill f cs₀ = .ok (d.put e, rest) := by
  cases e with
  | capacity n =>
    obtain rfl : Field.capacity = f := by simpa [Entry.field?] using setting
    have read : integer .int64 Int64.minValue.toInt Int64.maxValue.toInt cs₀ =
        .ok (n.toInt, rest) :=
      integer_of_at h before ends ⟨Int64.minValue_le_toInt n, Int64.toInt_le n⟩ (by decide)
        (by decide)
    simp only [fill, put, read, bind, Except.bind, Int64.ofInt_toInt]
  | scheme m =>
    obtain rfl : Field.scheme = f := by simpa [Entry.field?] using setting
    have found : Scheme.ofName? m.name = some m := by cases m <;> decide
    simp [fill, put, Reader.scheme, choice_of_at h before found, bind, Except.bind]
  | strategy s =>
    obtain rfl : Field.strategy = f := by simpa [Entry.field?] using setting
    have found : Strategy.ofName? s.name = some s := by cases s <;> decide
    simp [fill, put, Reader.strategy, choice_of_at h before found, bind, Except.bind]
  | attempts n =>
    obtain rfl : Field.attempts = f := by simpa [Entry.field?] using setting
    have bound : n.toNat < UInt32.size := n.toNat_lt
    have read : integer .uint32 0 (UInt32.size - 1) cs₀ = .ok (n.toNat, rest) :=
      integer_of_at h before ends ⟨by omega, by omega⟩ (by decide) (by decide)
    simp only [fill, put, read, bind, Except.bind, Int.toNat_natCast, UInt32.ofNat_toNat]
  | other key foreign => simp [Entry.field?] at setting

end Draft

end Config.Reader

end HiLo
