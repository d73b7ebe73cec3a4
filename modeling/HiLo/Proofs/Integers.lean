/-
HiLo.Proofs.Integers — which numbers a setting takes.

`parse_number`: a number of any length stands for a setting. The text is a configuration if the
number is an integer inside the bounds of the setting, which then has this value. An integer outside
of them is complained about by name, as long as it has 64 bits, and no other number is taken for an
integer.

The digits are collected in a word of 64 bits, and a digit that does not fit is counted. If none is
left out, the word holds the number that the digits denote (`Token.value?_eq_integer_iff`), so that
nothing wraps. The rest of the text, in either form, is read as in the modules before.
-/
import HiLo.Proofs.Arrays
import HiLo.Proofs.Offences
import HiLo.Proofs.RoundTrip

namespace HiLo

/-! ## Numbers that are integers -/

namespace Json.Number

theorem collectWhole_append_of_none {ds : List Char} {d : Char}
    (left : (collectWhole ds).take? d = none) :
    (collectWhole (ds ++ [d])).places = (collectWhole ds).places + 1 := by
  unfold collectWhole at *
  simp only [List.foldl_append, List.foldl_cons, List.foldl_nil, left]

/-- If no digit was left out, the number fits. -/
theorem value_le_largest {ds : List Char} (all : (collectWhole ds).places = 0) :
    Decimal.value ds ≤ largest := by
  induction ds using List.reverseRecOn with
  | nil => exact Nat.zero_le _
  | append_singleton ds d ih =>
    cases taken : (collectWhole ds).take? d with
    | none =>
      rw [collectWhole_append_of_none taken] at all
      cases all
    | some n =>
      rw [collectWhole_append_singleton taken] at all
      rw [collectWhole_of_le (ih all)] at taken
      rw [Decimal.value_append_singleton]
      -- a digit that makes the number too large is not taken
      by_contra large
      simp [Collected.take?, large] at taken

/-- A whole number that is an integer is the one its digits denote. -/
theorem integer?_of_ofWhole {negative : Bool} {ds : List Char} {z : Int}
    (h : ofWhole negative (Decimal.value ds) = .integer z) (fits : Decimal.value ds ≤ largest) :
    (⟨negative, ds, none, none⟩ : Token).integer? = some z ∧ -2 ^ 63 ≤ z ∧ z < 2 ^ 64 := by
  have fits : Decimal.value ds ≤ 18446744073709551615 := fits
  cases negative with
  | false =>
    obtain rfl : (Decimal.value ds : Int) = z := by simpa [ofWhole] using h
    exact ⟨by simp [Token.integer?], by omega, by omega⟩
  | true =>
    have sized : ¬ (Decimal.value ds = 0 ∨ 9223372036854775808 < Decimal.value ds) := by
      intro other
      simp [ofWhole, other] at h
    obtain rfl : -(Decimal.value ds : Int) = z := by simpa [ofWhole, sized] using h
    have nonzero : Decimal.value ds ≠ 0 := fun zero => sized (.inl zero)
    exact ⟨by simp [Token.integer?, nonzero], by omega, by omega⟩

/-- A number is read as an integer if it is one of 64 bits, with a sign or without. -/
theorem Token.value?_eq_integer_iff {t : Token} {z : Int} :
    t.value? = some (.integer z) ↔ t.integer? = some z ∧ -2 ^ 63 ≤ z ∧ z < 2 ^ 64 := by
  constructor
  · intro value
    obtain ⟨negative, whole, fraction, exponent⟩ := t
    cases exponent with
    | none =>
      simp only [Token.value?] at value
      split at value
      · next plain =>
        obtain ⟨rfl, all⟩ := plain
        have fits := value_le_largest all
        rw [collectWhole_of_le fits] at value
        exact integer?_of_ofWhole (Option.some.inj value) fits
      · simp [floating?] at value
    | some e =>
      simp only [Token.value?] at value
      split at value
      · simp [floating?] at value
      · split at value <;> cases value
  · rintro ⟨integer, low, high⟩
    exact Token.value?_of_integer? integer low high

end Json.Number

namespace Config

open Json

/-! ## A value among entries -/

section

variable {b : Skip.Bracket} {cs cs₁ rest : List Char}

theorem PlacedAt.mono {name : String} {rule rule' : List Char → List Char → Prop}
    (h : PlacedAt name rule b cs rest) (step : ∀ cs, rule cs rest → rule' cs rest) :
    PlacedAt name rule' b cs rest := by
  cases h with
  | element before value => exact .element before (step _ value)
  | member before key colon between value => exact .member before key colon between (step _ value)

/-- Entries before and behind an entry are one list with it. -/
theorem LeadAt.items {before after : List Entry} {e : Entry} {cs₂ : List Char}
    (lead : LeadAt b before cs cs₁) (placed : e.PlacedAt b cs₁ cs₂)
    (tail : TailAt b after cs₂ rest) : ItemsAt b (before ++ e :: after) cs rest := by
  induction lead with
  | nothing => exact .mk placed tail
  | entry entry comma _ ih => exact .follow entry comma (ih placed)

section

variable {es : List Entry} {f : Field} {fs : List (Option Field)}

/-- In an object the entries repeat no setting, and a setting behind them is none of theirs. -/
theorem Arranged.apart (h : Arranged .object (es.map Entry.field? ++ some f :: fs)) :
    Once es ∧ f ∉ es.filterMap Entry.field? := by
  have nodup : ((es.map Entry.field? ++ some f :: fs).filterMap id).Nodup := h
  rw [List.filterMap_append, List.nodup_append, List.filterMap_map] at nodup
  obtain ⟨once, -, apart⟩ := nodup
  exact ⟨once, fun among => apart f among f List.mem_cons_self rfl⟩

/-- In an array the settings behind the entries are those that are left. -/
theorem Arranged.exists_left (h : Arranged .list (es.map Entry.field? ++ some f :: fs)) :
    ∃ gs, Field.all.map some = es.map Entry.field? ++ (f :: gs).map some := by
  obtain ⟨more, order⟩ := h
  rw [List.append_assoc, eq_comm, List.map_eq_append_iff] at order
  obtain ⟨given, left, all, same, order⟩ := order
  obtain ⟨g, gs, rfl, first, -⟩ := List.map_eq_cons_iff.mp order
  cases first
  exact ⟨gs, by rw [all, List.map_append, same]⟩

end

namespace Reader

theorem items_of_itemsAt {es : List Entry} (h : ItemsAt b es cs rest)
    (arranged : Arranged b (es.map Entry.field?)) : items b cs = .ok (.putAll {} es, rest) := by
  cases b with
  | list => exact elements_of_itemsAt h arranged
  | object => exact members_of_itemsAt h arranged.once

/-- A fault in the value of a setting is the answer, in either form. -/
theorem items_of_fill_error {es : List Entry} {f : Field} {fs : List (Option Field)}
    {rule : List Char → List Char → Prop} {fault : Fault Complaint} (lead : LeadAt b es cs cs₁)
    (arranged : Arranged b (es.map Entry.field? ++ some f :: fs))
    (placed : PlacedAt f.key rule b cs₁ rest) (begins : ∀ cs, rule cs rest → Begins cs)
    (refused : ∀ {d : Draft} {cs₀ cs}, Blanks cs₀ cs → rule cs rest → d.fill f cs₀ = .error fault) :
    items b cs = .error fault := by
  cases b with
  | object =>
    obtain ⟨once, new⟩ := arranged.apart
    exact members_of_fill_error lead once new placed refused
  | list =>
    obtain ⟨gs, order⟩ := arranged.exists_left
    exact elements_of_fill_error lead order placed begins refused

end Reader

end

/-! ## Whole texts -/

/-- An integer between the bounds of a setting is an entry for it. -/
theorem Field.exists_entry {f : Field} {wanted : Want} {least greatest z : Int}
    (shape : f.shape = .integer wanted least greatest) (inside : least ≤ z ∧ z ≤ greatest) :
    ∃ e : Entry, e.field? = some f ∧ e.key = f.key ∧ e.ValueAt = Number.IntegerAt z ∧
      ∀ es c, Once es → Given es c → e ∈ es → c.integer? f = some z := by
  cases f with
  | capacity =>
    cases shape
    have same : (Int64.ofInt z).toInt = z := Int64.toInt_ofInt_of_le inside.1 (by omega)
    refine ⟨.capacity (Int64.ofInt z), rfl, rfl, congrArg Number.IntegerAt same, ?_⟩
    intro es c once given among
    have read := Entry.capacity.inj (once.eq_of_field? given.capacity among rfl rfl)
    rw [integer?, read, same]
  | attempts =>
    cases shape
    have small : z.toNat < UInt32.size := by
      simp only [UInt32.size]
      omega
    have same : ((UInt32.ofNat z.toNat).toNat : Int) = z := by
      rw [UInt32.toNat_ofNat_of_lt' small]
      omega
    refine ⟨.attempts (UInt32.ofNat z.toNat), rfl, rfl, congrArg Number.IntegerAt same, ?_⟩
    intro es c once given among
    rcases given.attempts with there | ⟨absent, -⟩
    · have read := Entry.attempts.inj (once.eq_of_field? there among rfl rfl)
      rw [integer?, read, same]
    · exact absurd among (absent _)
  | scheme | strategy => cases shape

/-- A complaint about an integer out of bounds has its decimal digits. -/
theorem Complaint.message_outOfRange (z : Int) (wanted : Want) :
    ∃ digits, Number.IntegerAt z digits [] ∧ (Complaint.outOfRange z wanted).message =
      "invalid value: integer `" ++ String.ofList digits ++ "`, expected " ++ wanted.text := by
  have front : "invalid value: integer `" = "invalid value: " ++ ("integer " ++ "`") := rfl
  have back : "`, expected " = "`" ++ ", expected " := rfl
  refine ⟨Decimal.signed z, by simpa using Number.integerAt_signed z [], ?_⟩
  calc (Complaint.outOfRange z wanted).message
    _ = "invalid value: " ++ ("integer " ++ ("`" ++ String.ofList (Decimal.signed z) ++ "`")) ++
        ", expected " ++ wanted.text := rfl
    _ = "invalid value: integer `" ++ String.ofList (Decimal.signed z) ++ "`, expected " ++
        wanted.text := by
      rw [front, back]
      simp only [String.append_assoc]

section

variable {b : Skip.Bracket} {before after : List Entry} {f : Field} {wanted : Want}
  {least greatest : Int} {t : Number.Token} {s : String}

/-- A number that the reader of integers refuses is the fault of the whole text. -/
theorem Around.parse_error {fault : Fault Complaint}
    (around : Around b before after f.key (Number.At t) s)
    (shape : f.shape = .integer wanted least greatest)
    (arranged : Arranged b (before.map Entry.field? ++ some f :: after.map Entry.field?))
    (refused : ∀ {cs₀ cs rest}, Number.At t cs rest → Blanks cs₀ cs → Number.Ends rest →
      Reader.integer wanted least greatest cs₀ = .error fault) : parse s = .error fault := by
  obtain ⟨start, lead, placed, tail, -⟩ := around
  refine parse_of_items_error start (Reader.items_of_fill_error lead arranged placed ?_ ?_)
  · exact fun cs number => begins_of_value (.number number)
  · exact fun before number =>
      Reader.Draft.fill_of_integer_error shape (refused number before tail.ends)

/-- An integer between the bounds becomes the value of the setting. -/
theorem Around.parse_ok {z : Int} (around : Around b before after f.key (Number.At t) s)
    (shape : f.shape = .integer wanted least greatest)
    (arranged : Arranged b (before.map Entry.field? ++ some f :: after.map Entry.field?))
    (complete : some .capacity ∈ before.map Entry.field? ++ some f :: after.map Entry.field?)
    (integer : t.integer? = some z) (inside : least ≤ z ∧ z ≤ greatest) :
    ∃ c, parse s = .ok c ∧ c.integer? f = some z := by
  obtain @⟨cs, cs₁, cs₂, rest, start, lead, placed, tail, stop⟩ := around
  obtain ⟨e, setting, key, value, gives⟩ := Field.exists_entry shape inside
  have settings : (before ++ e :: after).map Entry.field? =
      before.map Entry.field? ++ some f :: after.map Entry.field? := by
    rw [List.map_append, List.map_cons, setting]
  have placed : e.PlacedAt b cs₁ cs₂ := by
    rw [Entry.PlacedAt, key, value]
    exact placed.mono fun _ number => ⟨t, number, integer⟩
  rw [← settings] at arranged complete
  obtain ⟨c, made, given⟩ := Reader.Draft.exists_given complete
  refine ⟨c, ?_, gives _ c arranged.once given (by simp)⟩
  rw [parse_of_items start (Reader.items_of_itemsAt (lead.items placed tail) arranged) stop, made]
  rfl

/-- What becomes of a number of any length where a setting wants an integer, if nothing else is
wrong with the text. The text is read if the number is an integer inside the bounds of the setting,
and the setting is then this integer. An integer of 64 bits outside of them is complained about with
its digits. Any other number is no integer for the reader, which complains about a floating point
number or finds the text malformed. -/
theorem parse_number (around : Around b before after f.key (Number.At t) s)
    (shape : f.shape = .integer wanted least greatest)
    (arranged : Arranged b (before.map Entry.field? ++ some f :: after.map Entry.field?))
    (complete : some .capacity ∈ before.map Entry.field? ++ some f :: after.map Entry.field?) :
    ((∃ c, parse s = .ok c) ↔ ∃ z, t.integer? = some z ∧ least ≤ z ∧ z ≤ greatest) ∧
    (∀ c, parse s = .ok c → c.integer? f = t.integer?) ∧
    (∀ z, t.integer? = some z → -2 ^ 63 ≤ z ∧ z < 2 ^ 64 → z < least ∨ greatest < z →
      parse s = .error (.data (.outOfRange z wanted)) ∧
      ∃ digits, Number.IntegerAt z digits [] ∧ (Complaint.outOfRange z wanted).message =
        "invalid value: integer `" ++ String.ofList digits ++ "`, expected " ++ wanted.text) ∧
    ((∀ z, t.integer? = some z → ¬ (-2 ^ 63 ≤ z ∧ z < 2 ^ 64)) →
      parse s = .error .malformed ∨
        ∃ bits, parse s = .error (.data (.wrongKind (.floating bits) wanted))) := by
  have accepted {z : Int} (integer : t.integer? = some z) (inside : least ≤ z ∧ z ≤ greatest) :=
    around.parse_ok shape arranged complete integer inside
  have outside {z : Int} (integer : t.integer? = some z) (word : -2 ^ 63 ≤ z ∧ z < 2 ^ 64)
      (outside : ¬ (least ≤ z ∧ z ≤ greatest)) :
      parse s = .error (.data (.outOfRange z wanted)) := by
    have value := Number.Token.value?_eq_integer_iff.mpr ⟨integer, word⟩
    refine around.parse_error shape arranged fun number before ends => ?_
    rw [Reader.integer_of_integer number before ends value, if_neg outside]
    rfl
  have other (none : ∀ z, t.integer? = some z → ¬ (-2 ^ 63 ≤ z ∧ z < 2 ^ 64)) :
      parse s = .error .malformed ∨
        ∃ bits, parse s = .error (.data (.wrongKind (.floating bits) wanted)) := by
    cases value : t.value? with
    | none =>
      exact .inl (around.parse_error shape arranged fun number before ends =>
        Reader.integer_of_none number before ends value)
    | some n =>
      cases n with
      | integer z =>
        obtain ⟨integer, word⟩ := Number.Token.value?_eq_integer_iff.mp value
        exact absurd word (none z integer)
      | floating bits =>
        exact .inr ⟨bits, around.parse_error shape arranged fun number before ends =>
          Reader.integer_of_floating number before ends value⟩
  have read_iff : (∃ c, parse s = .ok c) ↔ ∃ z, t.integer? = some z ∧ least ≤ z ∧ z ≤ greatest := by
    constructor
    · rintro ⟨c, read⟩
      by_contra unfit
      have none : ∀ z, t.integer? = some z → ¬ (-2 ^ 63 ≤ z ∧ z < 2 ^ 64) := by
        intro z integer word
        have refused := outside integer word fun inside => unfit ⟨z, integer, inside⟩
        rw [read] at refused
        cases refused
      rcases other none with refused | ⟨bits, refused⟩
      · rw [read] at refused
        cases refused
      · rw [read] at refused
        cases refused
    · rintro ⟨z, integer, inside⟩
      obtain ⟨c, read, -⟩ := accepted integer inside
      exact ⟨c, read⟩
  refine ⟨read_iff, ?_, ?_, other⟩
  · intro c read
    obtain ⟨z, integer, inside⟩ := read_iff.mp ⟨c, read⟩
    obtain ⟨c', read', value⟩ := accepted integer inside
    obtain rfl : c = c' := Except.ok.inj (read.symm.trans read')
    rw [value, integer]
  · intro z integer word apart
    exact ⟨outside integer word (by omega), Complaint.message_outOfRange z wanted⟩

end

/-- The greatest capacity, and the one after it, in an array. -/
theorem parse_number_at_greatest :
    let text (digits : String) : String := String.ofList ('[' :: (digits.toList ++ [']']))
    (∃ c, parse (text "9223372036854775807") = .ok c ∧ c.integer? .capacity =
        some 9223372036854775807) ∧
      parse (text "9223372036854775808") =
        .error (.data (.outOfRange 9223372036854775808 .int64)) := by
  intro text
  have around (digits : String) (whole : Number.IsWhole digits.toList) :
      Around .list [] [] Field.capacity.key (Number.At ⟨false, digits.toList, none, none⟩)
        (text digits) := by
    have start : Blanks (text digits).toList ('[' :: (digits.toList ++ [']'])) := blanks_ofList _
    exact .mk start .nothing (.element .nothing (.unsigned rfl (.mk whole .absent .absent)))
      (.closed .nothing) .nothing
  have first : Arranged .list [some .capacity] :=
    ⟨[some .scheme, some .strategy, some .attempts], rfl⟩
  constructor
  · obtain ⟨read, value, -, -⟩ :=
      parse_number (around "9223372036854775807" (by decide)) rfl first List.mem_cons_self
    have integer : (⟨false, "9223372036854775807".toList, none, none⟩ : Number.Token).integer? =
        some 9223372036854775807 := by decide
    obtain ⟨c, read⟩ := read.mpr ⟨_, integer, by decide⟩
    exact ⟨c, read, (value c read).trans integer⟩
  · obtain ⟨-, -, outside, -⟩ :=
      parse_number (around "9223372036854775808" (by decide)) rfl first List.mem_cons_self
    exact (outside _ (by decide) (by decide) (by decide)).1

end Config

end HiLo
