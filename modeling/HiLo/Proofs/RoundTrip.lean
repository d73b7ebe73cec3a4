/-
HiLo.Proofs.RoundTrip — a written configuration is read as itself.

`parse_json`: every configuration comes back from its text, whatever blanks are put between the
tokens of the text. So the layout is the same, or is refused for the same reason, and two
configurations with one text are equal.

The tokens of a configuration, spaced in any way, are an object with one entry for each setting
(`isObject_of_spaced`); what such an object is read as was shown in `Proofs.Objects`. What is left
is that a number is the one its digits denote.
-/
import HiLo.Config.Written
import HiLo.Proofs.Objects

namespace HiLo

/-! ## Digits -/

namespace Decimal

theorem digitValue_digitChar {d : Nat} (h : d < 10) : digitValue (digitChar d) = d := by
  have all : ∀ d < 10, digitValue (digitChar d) = d := by decide
  exact all d h

theorem isDigit_digitChar {d : Nat} (h : d < 10) : isDigit (digitChar d) = true := by
  have all : ∀ d < 10, isDigit (digitChar d) = true := by decide
  exact all d h

/-- The digits of a number denote it. -/
theorem value_digits (n : Nat) : value (digits n) = n := by
  fun_induction digits n with
  | case1 n small => simp [value, digitValue_digitChar small]
  | case2 n _ ih =>
    rw [value_append_singleton, ih, digitValue_digitChar (by omega)]
    omega

theorem digits_ne_nil (n : Nat) : digits n ≠ [] := by
  rw [digits]
  split <;> simp

theorem isDigit_of_mem_digits {n : Nat} {c : Char} (h : c ∈ digits n) : isDigit c = true := by
  fun_induction digits n with
  | case1 n small =>
    rw [List.mem_singleton.mp h]
    exact isDigit_digitChar small
  | case2 n _ ih =>
    rcases List.mem_append.mp h with front | last
    · exact ih front
    · rw [List.mem_singleton.mp last]
      exact isDigit_digitChar (by omega)

/-- A number has no zero in front, unless it is zero. -/
theorem head?_digits_ne {n : Nat} (h : n ≠ 0) : (digits n).head? ≠ some '0' := by
  fun_induction digits n with
  | case1 n small =>
    have all : ∀ d < 10, d ≠ 0 → digitChar d ≠ '0' := by decide
    simpa using all n small h
  | case2 n large ih =>
    rw [List.head?_append_of_ne_nil _ (digits_ne_nil _)]
    exact ih (by omega)

end Decimal

namespace Json.Number

theorem isWhole_digits (n : Nat) : IsWhole (Decimal.digits n) := by
  refine ⟨⟨Decimal.digits_ne_nil n, fun d hd => Decimal.isDigit_of_mem_digits hd⟩, fun zero => ?_⟩
  cases n with
  | zero => simp [Decimal.digits, Decimal.digitChar]
  | succ n => exact absurd zero (Decimal.head?_digits_ne (Nat.succ_ne_zero n))

/-- A written integer is a number that denotes it. -/
theorem integerAt_signed (z : Int) (rest : List Char) :
    IntegerAt z (Decimal.signed z ++ rest) rest := by
  cases z with
  | ofNat n =>
    refine ⟨⟨false, Decimal.digits n, none, none⟩, .unsigned rfl ?_, ?_⟩
    · exact .mk (isWhole_digits n) .absent .absent
    · simp [Token.integer?, Decimal.value_digits]
  | negSucc n =>
    refine ⟨⟨true, Decimal.digits (n + 1), none, none⟩, .negative rfl ?_, ?_⟩
    · exact .mk (isWhole_digits (n + 1)) .absent .absent
    · rw [Token.integer?, Decimal.value_digits, if_pos ⟨rfl, rfl⟩, if_pos rfl,
        if_neg (Nat.succ_ne_zero n)]
      rfl

end Json.Number

namespace Config

open Json

/-! ## Spaced tokens -/

theorem Spaced.uncons {t cs : List Char} {ts : List (List Char)} (h : Spaced (t :: ts) cs) :
    ∃ cs', Blanks cs (t ++ cs') ∧ Spaced ts cs' := by
  cases h with
  | token before more => exact ⟨_, before, more⟩

/-- The same blanks may stand before every token, or none. -/
theorem spaced_flatMap {gap : List Char} (blank : ∀ rest, Blanks (gap ++ rest) rest)
    (ts : List (List Char)) : Spaced ts (ts.flatMap (gap ++ ·)) := by
  induction ts with
  | nil => exact .nothing .nothing
  | cons t ts ih =>
    refine .token ?_ ih
    rw [List.flatMap_cons, List.append_assoc]
    exact blank _

/-! ## Settings -/

def entry (c : Config) : Field → Entry
  | .capacity => .capacity c.capacity
  | .scheme => .scheme c.scheme
  | .strategy => .strategy c.strategy
  | .attempts => .attempts c.attempts

theorem key_entry (c : Config) (f : Field) : (c.entry f).key = f.key := by
  cases f <;> rfl

/-- A written name is a string with the characters of the name, if none of them needs an escape. -/
theorem at_jsonName {s : String} (plain : ∀ c ∈ s.toList, Text.IsPlain c) (rest : List Char) :
    ∃ cs, jsonName s ++ rest = '"' :: cs ∧ Text.At s.toList cs rest :=
  ⟨s.toList ++ '"' :: rest, by simp [jsonName], Text.at_of_plain plain rest⟩

theorem valueAt_jsonValue (c : Config) (f : Field) (rest : List Char) :
    (c.entry f).ValueAt (c.jsonValue f ++ rest) rest := by
  cases f with
  | capacity => exact Number.integerAt_signed c.capacity.toInt rest
  | attempts => exact Number.integerAt_signed c.attempts.toNat rest
  | scheme =>
    have plain : ∀ d ∈ c.scheme.name.toList, Text.IsPlain d := by
      cases c.scheme <;> exact Text.isPlain_of_all (by decide)
    obtain ⟨cs, text, string⟩ := at_jsonName plain rest
    rw [jsonValue, text]
    exact .string string
  | strategy =>
    have plain : ∀ d ∈ c.strategy.name.toList, Text.IsPlain d := by
      cases c.strategy <;> exact Text.isPlain_of_all (by decide)
    obtain ⟨cs, text, string⟩ := at_jsonName plain rest
    rw [jsonValue, text]
    exact .string string

/-! ## Objects -/

/-- The tokens of a setting are its entry, up to the mark behind it. -/
theorem entryAt_of_spaced {c : Config} {f : Field} {mark : Char} {ts : List (List Char)}
    {cs : List Char} (h : Spaced (c.jsonMember f ++ [mark] :: ts) cs) :
    ∃ rest, (c.entry f).At cs (mark :: rest) ∧ Spaced ts rest := by
  obtain ⟨cs₁, before, h⟩ := Spaced.uncons h
  obtain ⟨cs₂, colon, h⟩ := Spaced.uncons h
  obtain ⟨cs₃, between, h⟩ := Spaced.uncons h
  obtain ⟨rest, behind, h⟩ := Spaced.uncons h
  obtain ⟨text, quote, key⟩ := at_jsonName f.isPlain_key cs₁
  rw [quote] at before
  rw [← c.key_entry f] at key
  exact ⟨rest, .mk before key colon between (c.valueAt_jsonValue f cs₃) behind, h⟩

/-- The tokens of several settings are their entries, up to the brace behind them. -/
theorem entriesAt_of_spaced {c : Config} {ts : List (List Char)} (f : Field) (fs : List Field) :
    ∀ {cs : List Char},
      Spaced ([[',']].intercalate ((f :: fs).map c.jsonMember) ++ ['\x7d'] :: ts) cs →
      ∃ rest, EntriesAt ((f :: fs).map c.entry) cs ('\x7d' :: rest) ∧ Spaced ts rest := by
  induction fs generalizing f with
  | nil =>
    intro cs h
    have one : Spaced (c.jsonMember f ++ ['\x7d'] :: ts) cs := by simpa using h
    obtain ⟨rest, entry, h⟩ := entryAt_of_spaced one
    exact ⟨rest, .last entry, h⟩
  | cons g fs ih =>
    intro cs h
    have first : Spaced (c.jsonMember f ++ [','] ::
        ([[',']].intercalate ((g :: fs).map c.jsonMember) ++ ['\x7d'] :: ts)) cs := by
      simpa [List.intercalate_cons_cons] using h
    obtain ⟨cs', entry, h⟩ := entryAt_of_spaced first
    obtain ⟨rest, others, h⟩ := ih g h
    exact ⟨rest, .more entry others, h⟩

/-- The tokens of a configuration are an object with an entry for each setting. -/
theorem isObject_of_spaced {c : Config} {s : String} (h : Spaced c.jsonTokens s.toList) :
    IsObject (Field.all.map c.entry) s := by
  obtain ⟨cs, before, h⟩ := Spaced.uncons h
  obtain ⟨rest, entries, h⟩ := entriesAt_of_spaced .capacity _ h
  cases h with
  | nothing behind => exact ⟨_, rest, before, .filled entries, behind⟩

theorem given_entries (c : Config) : Given (Field.all.map c.entry) c where
  capacity := by simp [Field.all, entry]
  scheme := .inl (by simp [Field.all, entry])
  strategy := .inl (by simp [Field.all, entry])
  attempts := .inl (by simp [Field.all, entry])

theorem parse_of_spaced {c : Config} {s : String} (h : Spaced c.jsonTokens s.toList) :
    parse s = .ok c := by
  have once : Field.all.Nodup := by decide
  exact parse_of_given (isObject_of_spaced h) once c.given_entries

theorem spaced_json (c : Config) : Spaced c.jsonTokens c.json.toList := by
  have none : ∀ rest, Blanks ([] ++ rest) rest := fun _ => .nothing
  rw [json, String.toList_ofList, ← List.flatMap_id]
  exact spaced_flatMap none _

/-- Every configuration is read from its text, and from its text with blanks between and around the
tokens, and its layout is made or refused as before. No two configurations have one text. -/
theorem parse_json (c : Config) :
    (∀ s : String, Spaced c.jsonTokens s.toList →
      parse s = .ok c ∧ (parse s).map Config.layout = .ok c.layout) ∧
    parse c.json = .ok c ∧ ∀ c' : Config, c'.json = c.json → c' = c := by
  have back (c : Config) : parse c.json = .ok c := parse_of_spaced c.spaced_json
  refine ⟨fun s spaced => ?_, back c, fun c' same => ?_⟩
  · rw [parse_of_spaced spaced]
    exact ⟨rfl, rfl⟩
  · have both : (.ok c' : Reader.Read Config) = .ok c := by rw [← back c', same, back c]
    exact Except.ok.inj both

/-- The least capacity, with a line break and a space before every token. -/
theorem parse_json_spaced :
    let c : Config := ⟨Int64.minValue, .pooled, .stamped, 0⟩
    let s := String.ofList (c.jsonTokens.flatMap (['\n', ' '] ++ ·))
    Spaced c.jsonTokens s.toList ∧ parse s = .ok c ∧
      (parse s).map Config.layout = .ok (.error (.capacity Int64.minValue)) := by
  intro c s
  have spaced : Spaced c.jsonTokens s.toList := by
    rw [String.toList_ofList]
    exact spaced_flatMap (fun _ => .blank (by decide) (.blank (by decide) .nothing)) _
  obtain ⟨read, layout⟩ := (parse_json c).1 s spaced
  exact ⟨spaced, read, layout⟩

end Config

end HiLo
