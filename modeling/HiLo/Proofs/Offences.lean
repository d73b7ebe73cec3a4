/-
HiLo.Proofs.Offences — the first offence in an object is the answer.

`first_offence_decides`: once a text has begun as an object and gone on with something that may not
stand there, one complains about that, whatever follows. It makes no difference whether the object
goes on with further offences, is malformed, or ends there.

The reader comes to the offence with the draft of the entries before it (`members_of_leadAt`), and
what it complains about there goes through to the end unchanged. That nothing behind the offence
matters is then a fact about the grammar: a rule takes the same front off any text
(`OffendsAt.takes`).
-/
import HiLo.Proofs.Objects

namespace HiLo.Config

open Json

namespace Reader

/-! ## Values that may not stand there -/

section

variable {wanted : Want} {least greatest : Int} {c : Complaint} {cs₀ cs rest : List Char}

/-- Where an integer is wanted, anything that does not begin like a number is complained about. -/
theorem integer_of_kindAt {x : Char} {kind : Kind} (before : Blanks cs₀ (x :: cs))
    (visible : isBlank x = false) (other : startsNumber x = false)
    (found : kindAt (x :: cs) = .ok kind) :
    integer wanted least greatest cs₀ = .error (.data (.wrongKind kind wanted)) := by
  simp [integer, before.skip_cons visible, other, unwanted, found, refuse, bind, Except.bind]

theorem integer_of_offence (h : IntegerOffence wanted least greatest c cs rest)
    (before : Blanks cs₀ cs) (ends : ∀ z wanted, c = .outOfRange z wanted → Number.Ends rest) :
    integer wanted least greatest cs₀ = .error (.data c) := by
  cases h with
  | null | yes | no =>
    refine integer_of_kindAt before rfl rfl ?_
    simp [kindAt, literal, bind, Except.bind]
  | string string =>
    refine integer_of_kindAt before rfl rfl ?_
    simp [kindAt, startsNumber, Decimal.isDigit, string.read, bind, Except.bind]
  | list | object => exact integer_of_kindAt before rfl rfl rfl
  | integer number word outside =>
    obtain ⟨t, number, integer⟩ := number
    have value := Number.Token.value?_of_integer? integer (by omega) (by omega)
    rw [integer_of_integer number before (ends _ _ rfl) value, if_neg (by omega)]
    rfl

/-- A string that is none of the names is complained about. -/
theorem choice_of_offence {α : Type} {all : List α} {name : α → String}
    (h : NameOffence (all.map name) c cs rest) (before : Blanks cs₀ cs) :
    choice (fun s => all.find? (name · == s)) (all.map name) cs₀ = .error (.data c) := by
  cases h with
  | @string s _ _ string unknown =>
    have missing : all.find? (name · == String.ofList s) = none := by
      refine List.find?_eq_none.mpr fun x among same => ?_
      exact unknown (List.mem_map.mpr ⟨x, among, eq_of_beq same⟩)
    simp [choice, before.skip_cons rfl, string.read, named, missing, refuse, bind, Except.bind]

/-- A fault in an integer is a fault in the setting that wants it. -/
theorem Draft.fill_of_integer_error {d : Draft} {f : Field} {fault : Fault Complaint}
    (shape : f.shape = .integer wanted least greatest)
    (refused : integer wanted least greatest cs₀ = .error fault) : d.fill f cs₀ = .error fault := by
  cases f with
  | capacity =>
    cases shape
    have refused : integer .int64 Int64.minValue.toInt Int64.maxValue.toInt cs₀ =
        .error fault := refused
    simp only [fill, refused, bind, Except.bind]
  | attempts =>
    cases shape
    have refused : integer .uint32 0 (UInt32.size - 1) cs₀ = .error fault := refused
    simp only [fill, refused, bind, Except.bind]
  | scheme | strategy => cases shape

/-- An offence in the value of a setting is complained about. -/
theorem Draft.fill_of_offence {d : Draft} {f : Field} (h : f.shape.OffenceAt c cs rest)
    (before : Blanks cs₀ cs) (ends : ∀ z wanted, c = .outOfRange z wanted → Number.Ends rest) :
    d.fill f cs₀ = .error (.data c) := by
  cases f with
  | capacity | attempts => exact fill_of_integer_error rfl (integer_of_offence h before ends)
  | scheme =>
    have refused : Reader.scheme cs₀ = .error (.data c) := choice_of_offence h before
    simp only [fill, refused, bind, Except.bind]
  | strategy =>
    have refused : Reader.strategy cs₀ = .error (.data c) := choice_of_offence h before
    simp only [fill, refused, bind, Except.bind]

end

/-! ## Up to a member -/

section

variable {es es₀ : List Entry} {cs rest inside : List Char} {fault : Fault Complaint}

/-- The members that are left, read from the quote of the next one on. -/
def nextMember (n : Nat) (d : Draft) (cs : List Char) : Read (Draft × List Char) := do
  let rest ← punctuation '"' cs
  let (d, rest) ← member d rest
  moreMembers n d rest

/-- Entries before a member put themselves into the draft, by induction on the list. -/
theorem nextMember_of_leadAt (lead : LeadAt .object es cs rest) (once : Once (es₀ ++ es))
    (n : Nat) : nextMember (n + es.length) (.putAll {} es₀) cs =
      nextMember n (.putAll {} (es₀ ++ es)) rest := by
  induction lead generalizing es₀ with
  | nothing => simp
  | @entry e es cs cs₁ cs₂ rest entry comma _ ih =>
    have ends := Number.ends_of_comma comma
    obtain ⟨cs₃, quote, read⟩ := member_of_placed entry ends once
    rw [List.append_cons] at once ⊢
    rw [← ih once, List.length_cons, ← Nat.add_assoc]
    simp [nextMember, quote.punctuation rfl, read, moreMembers, comma.skip_cons rfl, bind,
      Except.bind]

/-- A text is read up to a member behind other entries with the draft of these entries. -/
theorem members_of_leadAt (lead : LeadAt .object es cs rest) (once : Once es)
    (quote : Blanks rest ('"' :: inside)) :
    ∃ n, members cs = nextMember n (.putAll {} es) rest := by
  have few : es.length ≤ cs.length + 1 := Nat.le_succ_of_le lead.length_le
  have first : ∃ inside, Blanks cs ('"' :: inside) := by
    cases lead with
    | nothing => exact ⟨_, quote⟩
    | entry entry _ _ => exact entry.quote
  obtain ⟨inside, first⟩ := first
  refine ⟨cs.length + 1 - es.length, ?_⟩
  have once' : Once ([] ++ es) := once
  have read := nextMember_of_leadAt lead once' (cs.length + 1 - es.length)
  rw [Nat.sub_add_cancel few, List.nil_append] at read
  rw [← read]
  simp [members, nextMember, first.skip_cons rfl, first.punctuation rfl, Draft.putAll, bind,
    Except.bind]

theorem members_of_member_error (lead : LeadAt .object es cs rest) (once : Once es)
    (quote : Blanks rest ('"' :: inside)) (refused : member (.putAll {} es) inside = .error fault) :
    members cs = .error fault := by
  obtain ⟨n, read⟩ := members_of_leadAt lead once quote
  simp [read, nextMember, quote.punctuation rfl, refused, bind, Except.bind]

/-- A fault in the value of a member is the answer, if the setting is new. -/
theorem members_of_fill_error {f : Field} {rule : List Char → List Char → Prop} {cs₁ : List Char}
    (lead : LeadAt .object es cs cs₁) (once : Once es) (new : f ∉ es.filterMap Entry.field?)
    (placed : PlacedAt f.key rule .object cs₁ rest)
    (refused : ∀ {d : Draft} {cs₀ cs}, Blanks cs₀ cs → rule cs rest → d.fill f cs₀ = .error fault) :
    members cs = .error fault := by
  have silent : (Draft.putAll {} es).has f = false := by
    rw [Bool.eq_false_iff, Ne, Draft.has_putAll]
    rintro (had | among)
    · cases f <;> cases had
    · exact new among
  cases placed with
  | member before key colon between value =>
    have named : Field.ofKey? f.key = some f := by cases f <;> decide
    refine members_of_member_error lead once before ?_
    simp [member, key.read, named, silent, colon.punctuation rfl, refused between value, bind,
      Except.bind]

theorem members_of_offence {c : Complaint} {cs₁ : List Char} (lead : LeadAt .object es cs cs₁)
    (once : Once es) (offence : MemberOffence es c cs₁ rest)
    (ends : ∀ z wanted, c = .outOfRange z wanted → Number.Ends rest) :
    members cs = .error (.data c) := by
  cases offence with
  | @repeated f _ cs₂ _ given before key =>
    have named : Field.ofKey? f.key = some f := by cases f <;> decide
    have had : (Draft.putAll {} es).has f = true := (Draft.has_putAll {} es f).mpr (.inr given)
    refine members_of_member_error lead once before ?_
    simp [member, key.read, named, had, refuse, bind, Except.bind]
  | value new placed =>
    exact members_of_fill_error lead once new placed fun before value =>
      Draft.fill_of_offence value before ends

end

end Reader

/-! ## Whole texts -/

/-- The first offence in an object decides: one complains about it whatever follows, if the offence
is complete. It is, unless it is an integer that could go on. -/
theorem first_offence_decides {es : List Entry} {c : Complaint} {front rest : List Char}
    (once : Once es) (offence : OffendsAt es c (front ++ rest) rest) (rest' : List Char)
    (ends : ∀ z wanted, c = .outOfRange z wanted → Number.Ends rest') :
    parse (String.ofList (front ++ rest')) = .error (.data c) := by
  -- the offence takes the same front off the text that goes on with `rest'`
  obtain ⟨front', same, anywhere⟩ := offence.takes
  obtain rfl := List.append_cancel_right same
  cases anywhere rest' with
  | mk start lead offence =>
    rw [← String.toList_ofList (l := front ++ rest')] at start
    exact parse_of_items_error (b := .object) start
      (Reader.members_of_offence lead once offence ends)

/-- The capacity for the second time, before a bracket that may not stand there; and a number of
attempts below zero, before the text ends. -/
theorem first_offence_decides_before_others :
    let key (f : Field) : List Char := '"' :: (f.key.toList ++ ['"'])
    parse (String.ofList (('\x7b' :: key .capacity ++ [':', '1', ','] ++ key .capacity) ++ [']'])) =
        .error (.data (.duplicate .capacity)) ∧
      parse (String.ofList (('\x7b' :: key .attempts ++ [':', '-', '1']) ++ [])) =
        .error (.data (.outOfRange (-1) .uint32)) := by
  intro key
  constructor
  · have one : Number.IntegerAt (1 : Int64).toInt ('1' :: ',' :: key .capacity)
        (',' :: key .capacity) :=
      ⟨⟨false, ['1'], none, none⟩, .unsigned rfl (.mk (by decide) .absent .absent), by decide⟩
    have offence : OffendsAt [.capacity 1] (.duplicate .capacity)
        (('\x7b' :: key .capacity ++ [':', '1', ','] ++ key .capacity) ++ []) [] :=
      .mk .nothing (.entry (Field.capacity.placedAt one) .nothing .nothing)
        (.repeated List.mem_cons_self .nothing (Text.at_of_plain Field.capacity.isPlain_key _))
    have once : Once [.capacity 1] := show [Field.capacity].Nodup by decide
    exact first_offence_decides once offence [']'] nofun
  · have number : Number.IntegerAt (-1) ['-', '1'] [] :=
      ⟨⟨true, ['1'], none, none⟩, .negative rfl (.mk (by decide) .absent .absent), by decide⟩
    have offence : OffendsAt [] (.outOfRange (-1) .uint32)
        (('\x7b' :: key .attempts ++ [':', '-', '1']) ++ []) [] :=
      .mk .nothing .nothing (.value List.not_mem_nil
        (Field.attempts.placedAt (.integer number (by decide) (by decide))))
    have once : Once [] := List.nodup_nil
    exact first_offence_decides once offence [] fun _ _ _ => Number.ends_nil

end HiLo.Config
