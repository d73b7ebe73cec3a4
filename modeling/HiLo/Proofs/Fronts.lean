/-
HiLo.Proofs.Fronts — a rule of the grammar takes a front of the text, whatever follows.

A rule relates a text to what is left of it. `Takes` says that the two differ by a front, and that
the rule would take this front off any other text as well. It holds of every rule, from blanks to
the offences of an object (`OffendsAt.takes`), by induction on how the rule was applied.

A rule with several parts is put together from them: one part is `Followed` by another, or a mark
stands before it (`Marked`).
-/
import HiLo.Config.Grammar

namespace HiLo

namespace Json

/-- The rule takes a front off the text that it would take off any text. -/
def Takes (R : List Char → List Char → Prop) (cs rest : List Char) : Prop :=
  ∃ front, cs = front ++ rest ∧ ∀ rest', R (front ++ rest') rest'

def Followed (R S : List Char → List Char → Prop) (cs rest : List Char) : Prop :=
  ∃ mid, R cs mid ∧ S mid rest

def Marked (c : Char) (R : List Char → List Char → Prop) (cs rest : List Char) : Prop :=
  ∃ cs', cs = c :: cs' ∧ R cs' rest

namespace Takes

variable {R S : List Char → List Char → Prop} {c : Char} {cs mid rest : List Char}

theorem suffix (h : Takes R cs rest) : rest <:+ cs := by
  obtain ⟨front, rfl, -⟩ := h
  exact List.suffix_append _ _

theorem length_le (h : Takes R cs rest) : rest.length ≤ cs.length := h.suffix.length_le

theorem map (h : Takes R cs rest) (step : ∀ {cs rest}, R cs rest → S cs rest) :
    Takes S cs rest := by
  obtain ⟨front, rfl, h⟩ := h
  exact ⟨front, rfl, fun rest' => step (h rest')⟩

theorem nothing (h : ∀ rest, R rest rest) : Takes R rest rest := ⟨[], rfl, h⟩

theorem followed (h : Takes R cs mid) (h' : Takes S mid rest) : Takes (Followed R S) cs rest := by
  obtain ⟨front, rfl, h⟩ := h
  obtain ⟨front', rfl, h'⟩ := h'
  refine ⟨front ++ front', (List.append_assoc ..).symm, fun rest' => ?_⟩
  rw [List.append_assoc]
  exact ⟨_, h _, h' rest'⟩

theorem marked (h : Takes R cs rest) : Takes (Marked c R) (c :: cs) rest := by
  obtain ⟨front, rfl, h⟩ := h
  exact ⟨c :: front, rfl, fun rest' => ⟨_, rfl, h rest'⟩⟩

/-- A mark alone. -/
theorem mark : Takes (Marked c Eq) (c :: rest) rest := marked (nothing fun _ => rfl)

end Takes

/-! ## Tokens -/

theorem Blanks.takes {cs rest : List Char} (h : Blanks cs rest) : Takes Blanks cs rest := by
  induction h with
  | nothing => exact .nothing fun _ => .nothing
  | blank blank _ ih => exact ih.marked.map fun ⟨_, front, more⟩ => front ▸ .blank blank more

namespace Text

theorem UnitAt.takes {n : Nat} {cs rest : List Char} (h : UnitAt n cs rest) :
    Takes (UnitAt n) cs rest := by
  cases h with
  | @mk a b c d _ _ _ _ _ first second third fourth =>
    exact ⟨[a, b, c, d], rfl, fun _ => .mk first second third fourth⟩

theorem EscapeAt.takes {c : Char} {cs rest : List Char} (h : EscapeAt c cs rest) :
    Takes (EscapeAt c) cs rest := by
  cases h with
  | @short mark c _ known => exact ⟨[mark], rfl, fun _ => .short known⟩
  | unit unit plain => exact unit.takes.marked.map fun ⟨_, front, unit⟩ => front ▸ .unit unit plain
  | pair first isHigh second isLow =>
    refine (first.takes.followed second.takes.marked.marked).marked.map ?_
    rintro _ _ ⟨_, rfl, _, first, _, rfl, _, rfl, second⟩
    exact .pair first isHigh second isLow

theorem At.takes {s cs rest : List Char} (h : Text.At s cs rest) : Takes (Text.At s) cs rest := by
  induction h with
  | closed => exact ⟨['"'], rfl, fun _ => .closed⟩
  | plain plain _ ih => exact ih.marked.map fun ⟨_, front, more⟩ => front ▸ .plain plain more
  | escaped escape _ ih =>
    refine (escape.takes.followed ih).marked.map ?_
    rintro _ _ ⟨_, rfl, _, escape, more⟩
    exact .escaped escape more

theorem AnyAt.takes {cs rest : List Char} (h : AnyAt cs rest) : Takes AnyAt cs rest := by
  induction h with
  | closed => exact ⟨['"'], rfl, fun _ => .closed⟩
  | plain plain _ ih => exact ih.marked.map fun ⟨_, front, more⟩ => front ▸ .plain plain more
  | short known _ ih =>
    refine ih.marked.marked.map ?_
    rintro _ _ ⟨_, rfl, _, rfl, more⟩
    exact .short known more
  | unit unit _ ih =>
    refine (unit.takes.followed ih).marked.marked.map ?_
    rintro _ _ ⟨_, rfl, _, rfl, _, unit, more⟩
    exact .unit unit more

end Text

namespace Number

theorem FractionAt.takes {x : Option (List Char)} {cs rest : List Char} (h : FractionAt x cs rest) :
    Takes (FractionAt x) cs rest := by
  cases h with
  | absent => exact .nothing fun _ => .absent
  | @present ds _ digits => exact ⟨'.' :: ds, rfl, fun _ => .present digits⟩

theorem SignAt.takes {down : Bool} {cs rest : List Char} (h : SignAt down cs rest) :
    Takes (SignAt down) cs rest := by
  cases h with
  | absent => exact .nothing fun _ => .absent
  | plus => exact ⟨['+'], rfl, fun _ => .plus⟩
  | minus => exact ⟨['-'], rfl, fun _ => .minus⟩

theorem ExponentAt.takes {x : Option (Bool × List Char)} {cs rest : List Char}
    (h : ExponentAt x cs rest) : Takes (ExponentAt x) cs rest := by
  cases h with
  | absent => exact .nothing fun _ => .absent
  | @present mark _ _ ds _ either sign digits =>
    obtain ⟨front, rfl, sign'⟩ := sign.takes
    refine ⟨mark :: (front ++ ds), by simp, fun rest' => ?_⟩
    simpa using ExponentAt.present either (sign' _) digits

theorem UnsignedAt.takes {t : Token} {cs rest : List Char} (h : UnsignedAt t cs rest) :
    Takes (UnsignedAt t) cs rest := by
  cases h with
  | mk whole fraction exponent =>
    obtain ⟨front, rfl, behind⟩ := fraction.takes.followed exponent.takes
    refine ⟨t.whole ++ front, by simp, fun rest' => ?_⟩
    obtain ⟨_, fraction, exponent⟩ := behind rest'
    simpa using UnsignedAt.mk whole fraction exponent

theorem At.takes {t : Token} {cs rest : List Char} (h : Number.At t cs rest) :
    Takes (Number.At t) cs rest := by
  cases h with
  | unsigned sign number => exact number.takes.map (.unsigned sign)
  | negative sign number =>
    exact number.takes.marked.map fun ⟨_, front, number⟩ => front ▸ .negative sign number

theorem IntegerAt.takes {z : Int} {cs rest : List Char} (h : IntegerAt z cs rest) :
    Takes (IntegerAt z) cs rest := by
  obtain ⟨t, number, integer⟩ := h
  exact number.takes.map fun number => ⟨t, number, integer⟩

end Number

/-! ## Values -/

theorem Part.At.takes {p : Part} {cs rest : List Char} (h : Part.At p cs rest) :
    Takes (Part.At p) cs rest := by
  induction h with
  | null => exact ⟨['n', 'u', 'l', 'l'], rfl, fun _ => .null⟩
  | yes => exact ⟨['t', 'r', 'u', 'e'], rfl, fun _ => .yes⟩
  | no => exact ⟨['f', 'a', 'l', 's', 'e'], rfl, fun _ => .no⟩
  | number number => exact number.takes.map .number
  | string string => exact string.takes.marked.map fun ⟨_, front, string⟩ => front ▸ .string string
  | empty inside =>
    refine (inside.takes.followed .mark).marked.map ?_
    rintro _ _ ⟨_, rfl, _, inside, _, rfl, rfl⟩
    exact .empty inside
  | filled _ ih =>
    refine (ih.followed .mark).marked.map ?_
    rintro _ _ ⟨_, rfl, _, inside, _, rfl, rfl⟩
    exact .filled inside
  | element before _ behind ih =>
    refine (before.takes.followed (ih.followed behind.takes)).map ?_
    rintro _ _ ⟨_, before, _, value, behind⟩
    exact .element before value behind
  | member before key colon between _ behind ih =>
    refine (before.takes.followed (key.takes.followed (colon.takes.followed
      (between.takes.followed (ih.followed behind.takes)).marked)).marked).map ?_
    rintro _ _ ⟨_, before, _, rfl, _, key, _, colon, _, rfl, _, between, _, value, behind⟩
    exact .member before key colon between value behind
  | last _ ih => exact ih.map .last
  | more _ _ ih ih' =>
    refine (ih.followed ih'.marked).map ?_
    rintro _ _ ⟨_, item, _, rfl, others⟩
    exact .more item others

end Json

namespace Config

open Json

theorem NameAt.takes {name : String} {cs rest : List Char} (h : NameAt name cs rest) :
    Takes (NameAt name) cs rest := by
  cases h with
  | string string => exact string.takes.marked.map fun ⟨_, front, string⟩ => front ▸ .string string
  | object before key colon between behind =>
    refine (before.takes.followed (key.takes.followed (colon.takes.followed
      (between.takes.followed (behind.takes.followed .mark).marked.marked.marked.marked).marked)
        ).marked).marked.map ?_
    rintro _ _ ⟨_, rfl, _, before, _, rfl, _, key, _, colon, _, rfl, _, between, _, rfl, _, rfl, _,
      rfl, _, rfl, _, behind, _, rfl, rfl⟩
    exact .object before key colon between behind

theorem Entry.ValueAt.takes {e : Entry} {cs rest : List Char} (h : e.ValueAt cs rest) :
    Takes e.ValueAt cs rest := by
  cases e with
  | capacity | attempts => exact Number.IntegerAt.takes h
  | scheme | strategy => exact NameAt.takes h
  | other => exact Part.At.takes h

/-! ## Either form -/

theorem PlacedAt.takes {name : String} {rule : List Char → List Char → Prop} {b : Skip.Bracket}
    {cs rest : List Char} (h : PlacedAt name rule b cs rest)
    (value : ∀ {cs rest}, rule cs rest → Takes rule cs rest) :
    Takes (PlacedAt name rule b) cs rest := by
  cases h with
  | element before h =>
    exact (before.takes.followed (value h)).map fun ⟨_, before, h⟩ => .element before h
  | member before key colon between h =>
    refine (before.takes.followed (key.takes.followed (colon.takes.followed
      (between.takes.followed (value h)).marked)).marked).map ?_
    rintro _ _ ⟨_, before, _, rfl, _, key, _, colon, _, rfl, _, between, h⟩
    exact .member before key colon between h

theorem LeadAt.takes {b : Skip.Bracket} {es : List Entry} {cs rest : List Char}
    (h : LeadAt b es cs rest) : Takes (LeadAt b es) cs rest := by
  induction h with
  | nothing => exact .nothing fun _ => .nothing
  | entry entry comma _ ih =>
    refine ((entry.takes Entry.ValueAt.takes).followed (comma.takes.followed ih.marked)).map ?_
    rintro _ _ ⟨_, entry, _, comma, _, rfl, more⟩
    exact .entry entry comma more

/-! ## Offences -/

theorem IntegerOffence.takes {wanted : Want} {least greatest : Int} {c : Complaint}
    {cs rest : List Char} (h : IntegerOffence wanted least greatest c cs rest) :
    Takes (IntegerOffence wanted least greatest c) cs rest := by
  cases h with
  | null => exact ⟨['n', 'u', 'l', 'l'], rfl, fun _ => .null⟩
  | yes => exact ⟨['t', 'r', 'u', 'e'], rfl, fun _ => .yes⟩
  | no => exact ⟨['f', 'a', 'l', 's', 'e'], rfl, fun _ => .no⟩
  | string string => exact string.takes.marked.map fun ⟨_, front, string⟩ => front ▸ .string string
  | list => exact ⟨['['], rfl, fun _ => .list⟩
  | object => exact ⟨['\x7b'], rfl, fun _ => .object⟩
  | integer number word outside => exact number.takes.map fun number => .integer number word outside

theorem Shape.OffenceAt.takes {shape : Shape} {c : Complaint} {cs rest : List Char}
    (h : shape.OffenceAt c cs rest) : Takes (shape.OffenceAt c) cs rest := by
  cases shape with
  | integer wanted least greatest => exact IntegerOffence.takes h
  | name choices =>
    cases h with
    | string string unknown =>
      exact string.takes.marked.map fun ⟨_, front, string⟩ => front ▸ .string string unknown

theorem MemberOffence.takes {es : List Entry} {c : Complaint} {cs rest : List Char}
    (h : MemberOffence es c cs rest) : Takes (MemberOffence es c) cs rest := by
  cases h with
  | repeated given before key =>
    refine (before.takes.followed key.takes.marked).map ?_
    rintro _ _ ⟨_, before, _, rfl, key⟩
    exact .repeated given before key
  | value new placed => exact (placed.takes Shape.OffenceAt.takes).map (.value new)

theorem OffendsAt.takes {es : List Entry} {c : Complaint} {cs rest : List Char}
    (h : OffendsAt es c cs rest) : Takes (OffendsAt es c) cs rest := by
  cases h with
  | mk start lead offence =>
    refine (start.takes.followed (lead.takes.followed offence.takes).marked).map ?_
    rintro _ _ ⟨_, start, _, rfl, _, lead, offence⟩
    exact .mk start lead offence

end Config

end HiLo
