/-
HiLo.Proofs.Tokens — the reader knows each token of a JSON text.

Each reading function is matched with the rule of the grammar for what it reads: where the rule
finds a string, an escape or the digits of a number at the front of a text, the function succeeds,
with the meaning that the rule gives and the same rest.

A string ends where the rule says. A number does so only if it cannot go on there (`Ends`), for
the reader takes every digit it can get.
-/
import HiLo.Json.Grammar
import Mathlib.Algebra.Order.Ring.Int
import Mathlib.Data.List.DropRight

namespace HiLo

theorem Decimal.value_append_singleton (ds : List Char) (d : Char) :
    value (ds ++ [d]) = 10 * value ds + digitValue d := by
  simp [value, List.foldl_append]

namespace Json

variable {δ : Type}

/-! ## Blanks -/

@[simp] theorem skipBlank_cons_of_isBlank {c : Char} {cs : List Char} (h : isBlank c = true) :
    skipBlank (c :: cs) = skipBlank cs :=
  List.dropWhile_cons_of_pos h

theorem skipBlank_cons {c : Char} {cs : List Char} (h : isBlank c = false) :
    skipBlank (c :: cs) = c :: cs :=
  List.dropWhile_cons_of_neg (by simp [h])

theorem skipBlank_skipBlank (cs : List Char) : skipBlank (skipBlank cs) = skipBlank cs :=
  List.dropWhile_idempotent _ _

/-- The reader does not see blanks. -/
theorem Blanks.skip {cs rest : List Char} (h : Blanks cs rest) : skipBlank cs = skipBlank rest := by
  induction h with
  | nothing => rfl
  | @blank c cs rest blank _ ih =>
    rw [skipBlank_cons_of_isBlank (by simpa [isBlank, or_assoc] using blank), ih]

theorem Blanks.skip_cons {cs rest : List Char} {c : Char} (h : Blanks cs (c :: rest))
    (visible : isBlank c = false) : skipBlank cs = c :: rest := by
  rw [h.skip, skipBlank_cons visible]

theorem Blanks.punctuation {cs rest : List Char} {mark : Char} (h : Blanks cs (mark :: rest))
    (visible : isBlank mark = false) :
    Json.punctuation mark cs = (.ok rest : Reading δ (List Char)) := by
  simp [Json.punctuation, h.skip_cons visible]

/-- A text of given characters is these characters, without blanks in front. -/
theorem blanks_ofList (cs : List Char) : Blanks (String.ofList cs).toList cs := by
  rw [String.toList_ofList]
  exact .nothing

theorem literal_append (word rest : List Char) :
    literal word (word ++ rest) = (.ok rest : Reading δ (List Char)) := by
  induction word with
  | nil => rfl
  | cons w ws ih => simpa [literal] using ih

/-! ## Strings -/

namespace Text

theorem IsHex.value {c : Char} {n : Nat} (h : IsHex c n) : hexValue? c = some n := by
  obtain ⟨p, at_n, either⟩ := h
  have bound : n < 16 := (List.getElem?_eq_some_iff.mp at_n).1
  have all : ∀ n < 16, ∀ p ∈ hexDigits[n]?, hexValue? p.1 = some n ∧ hexValue? p.2 = some n := by
    decide
  obtain ⟨lower, upper⟩ := all n bound p at_n
  rcases either with rfl | rfl
  · exact lower
  · exact upper

theorem UnitAt.codeUnit {n : Nat} {cs rest : List Char} (h : UnitAt n cs rest) :
    Text.codeUnit cs = (.ok (n, rest) : Reading δ (Nat × List Char)) := by
  cases h with
  | mk first second third fourth =>
    simp only [Text.codeUnit, first.value, second.value, third.value, fourth.value]
    congr 2
    omega

theorem shortEscape?_of_mem {mark c : Char} (h : (mark, c) ∈ escapes) :
    shortEscape? mark = some c ∧ mark ≠ 'u' := by
  have all : ∀ p ∈ escapes, shortEscape? p.1 = some p.2 ∧ p.1 ≠ 'u' := by decide
  exact all _ h

theorem EscapeAt.escape {c : Char} {cs rest : List Char} (h : EscapeAt c cs rest) :
    Text.escape cs = (.ok (c, rest) : Reading δ (Char × List Char)) := by
  cases h with
  | short known =>
    obtain ⟨char, other⟩ := shortEscape?_of_mem known
    simp [Text.escape, char]
  | @unit n cs _ unit plain =>
    have low : isLow n = false := by simp [isLow]; omega
    have high : isHigh n = false := by simp [isHigh]; omega
    simp [Text.escape, unit.codeUnit, bind, Except.bind, low, high]
  | @pair high low _ cs' _ first isHigh' second isLow' =>
    have isHigh : isHigh high = true := by simp [isHigh]; omega
    have notLow : isLow high = false := by simp [isLow]; omega
    have isLow : isLow low = true := by simp [isLow]; omega
    simp [Text.escape, lowHalf, first.codeUnit, second.codeUnit, bind, Except.bind, notLow, isHigh,
      isLow, Text.pair]

theorem IsPlain.not_control {c : Char} (h : IsPlain c) : ¬ c.toNat < 0x20 := by
  have := h.2.2
  omega

theorem read_of_escape {c : Char} {cs cs' : List Char}
    (h : Text.escape cs = (.ok (c, cs') : Reading δ (Char × List Char))) :
    Text.read ('\\' :: cs) =
      (Text.read cs' : Reading δ (List Char × List Char)).map fun p => (c :: p.1, p.2) := by
  rw [Text.read, if_neg (by decide), if_pos rfl]
  split
  · simp_all
  · simp_all

theorem skip_of_skipEscape {cs cs' : List Char}
    (h : skipEscape cs = (.ok cs' : Reading δ (List Char))) :
    Text.skip ('\\' :: cs) = (Text.skip cs' : Reading δ (List Char)) := by
  rw [Text.skip, if_neg (by decide), if_pos rfl]
  split
  · simp_all
  · simp_all

/-- A string is read to its end, and with its characters. -/
theorem At.read {s cs rest : List Char} (h : At s cs rest) :
    Text.read cs = (.ok (s, rest) : Reading δ (List Char × List Char)) := by
  induction h with
  | closed => simp [Text.read]
  | plain plain _ ih =>
    rw [Text.read]
    simp [plain.1, plain.2.1, plain.not_control, ih, Except.map]
  | escaped escape _ ih => simp [read_of_escape escape.escape, ih, Except.map]

/-- Whether all characters stand for themselves can be computed. -/
theorem isPlain_of_all {s : List Char} (h : s.all (fun c => decide (IsPlain c)) = true) :
    ∀ c ∈ s, IsPlain c := fun c hc => of_decide_eq_true (List.all_eq_true.mp h c hc)

theorem At.append_plain {s t cs rest : List Char} (plain : ∀ c ∈ s, IsPlain c)
    (h : Text.At t cs rest) : Text.At (s ++ t) (s ++ cs) rest := by
  induction s with
  | nil => exact h
  | cons c s ih =>
    exact .plain (plain c List.mem_cons_self) (ih fun d hd => plain d (List.mem_cons_of_mem c hd))

/-- Characters that stand for themselves are a string with a quote behind them. -/
theorem at_of_plain {s : List Char} (plain : ∀ c ∈ s, IsPlain c) (rest : List Char) :
    Text.At s (s ++ '"' :: rest) rest := by
  have closed : Text.At [] ('"' :: rest) rest := .closed
  simpa using At.append_plain plain closed

/-- Any string is skipped to its end. -/
theorem AnyAt.skip {cs rest : List Char} (h : AnyAt cs rest) :
    Text.skip cs = (.ok rest : Reading δ (List Char)) := by
  induction h with
  | closed => simp [Text.skip]
  | plain plain _ ih =>
    rw [Text.skip]
    simp [plain.1, plain.2.1, plain.not_control, ih]
  | @short mark c cs _ known _ ih =>
    obtain ⟨char, other⟩ := shortEscape?_of_mem known
    have escape : skipEscape (mark :: cs) = (.ok cs : Reading δ (List Char)) := by
      simp [skipEscape, char]
    rw [skip_of_skipEscape escape, ih]
  | @unit n cs cs' _ unit _ ih =>
    have escape : skipEscape ('u' :: cs) = (.ok cs' : Reading δ (List Char)) := by
      simp [skipEscape, unit.codeUnit, bind, Except.bind]
    rw [skip_of_skipEscape escape, ih]

end Text

/-! ## The parts of a number -/

namespace Number

open Decimal (isDigit)

def NoDigit (rest : List Char) : Prop := ∀ c, rest.head? = some c → isDigit c = false

theorem Ends.noDigit {rest : List Char} (h : Ends rest) : NoDigit rest :=
  fun c hc => (h c hc).1

theorem ends_nil : Ends [] := nofun

theorem ends_cons {c : Char} {rest : List Char} (digit : isDigit c = false)
    (mark : c ∉ ['.', 'e', 'E']) : Ends (c :: rest) := by
  rintro _ ⟨⟩
  exact ⟨digit, mark⟩

/-- A number ends before blanks if it ends behind them. -/
theorem Ends.of_blanks {cs rest : List Char} (h : Ends rest) (blanks : Blanks cs rest) :
    Ends cs := by
  cases blanks with
  | nothing => exact h
  | blank blank _ =>
    simp only [List.mem_cons, List.not_mem_nil, or_false] at blank
    rcases blank with rfl | rfl | rfl | rfl <;> exact ends_cons (by decide) (by decide)

theorem ends_of_comma {cs rest : List Char} (comma : Blanks cs (',' :: rest)) : Ends cs :=
  (ends_cons rfl (by decide)).of_blanks comma

theorem someDigits_append {ds rest : List Char} (digits : IsDigits ds) (behind : NoDigit rest) :
    someDigits (ds ++ rest) = (.ok (ds, rest) : Reading δ (List Char × List Char)) := by
  have stop : rest.takeWhile isDigit = [] ∧ rest.dropWhile isDigit = rest := by
    cases rest with
    | nil => exact ⟨rfl, rfl⟩
    | cons c cs => simp [behind c rfl]
  have taken : (ds ++ rest).takeWhile isDigit = ds := by
    rw [List.takeWhile_append_of_pos digits.2, stop.1, List.append_nil]
  have dropped : (ds ++ rest).dropWhile isDigit = rest := by
    rw [List.dropWhile_append_of_pos digits.2, stop.2]
  unfold someDigits
  rw [taken, dropped]
  cases ds with
  | nil => exact absurd rfl digits.1
  | cons d ds => rfl

theorem scanWhole_append {ds rest : List Char} (whole : IsWhole ds) (behind : NoDigit rest) :
    scanWhole (ds ++ rest) = (.ok (ds, rest) : Reading δ (List Char × List Char)) := by
  simp only [scanWhole, someDigits_append whole.1 behind, bind, Except.bind]
  split
  · simpa using whole.2 rfl
  · rfl

theorem SignAt.scanSign {down : Bool} {cs rest : List Char} (h : SignAt down cs rest)
    (digit : ∃ c, rest.head? = some c ∧ isDigit c = true) : Number.scanSign cs = (down, rest) := by
  cases h with
  | absent =>
    obtain ⟨c, head, digit⟩ := digit
    unfold Number.scanSign
    split
    · cases head
      cases digit
    · cases head
      cases digit
    · rfl
  | plus => rfl
  | minus => rfl

/-- What follows the digits before an exponent. -/
theorem ExponentAt.before {x : Option (Bool × List Char)} {cs rest : List Char}
    (h : ExponentAt x cs rest) (ends : Ends rest) :
    NoDigit cs ∧ cs.head? ≠ some '.' := by
  cases h with
  | absent => exact ⟨ends.noDigit, fun point => (ends _ point).2 (by simp)⟩
  | present either _ _ =>
    rcases either with rfl | rfl
    · exact ⟨by rintro _ ⟨⟩; rfl, by simp⟩
    · exact ⟨by rintro _ ⟨⟩; rfl, by simp⟩

theorem ExponentAt.scanExponent {x : Option (Bool × List Char)} {cs rest : List Char}
    (h : ExponentAt x cs rest) (ends : Ends rest) : Number.scanExponent cs =
      (.ok (x, rest) : Reading δ (Option (Bool × List Char) × List Char)) := by
  cases h with
  | absent =>
    cases cs with
    | nil => rfl
    | cons c cs =>
      have other : ¬ (c = 'e' ∨ c = 'E') := by
        have := (ends c rfl).2
        simp_all
      simp [Number.scanExponent, other]
  | @present mark down cs ds _ either sign digits =>
    have first : ∃ c, (ds ++ rest).head? = some c ∧ isDigit c = true := by
      cases ds with
      | nil => exact absurd rfl digits.1
      | cons d ds => exact ⟨d, rfl, digits.2 d (by simp)⟩
    simp [Number.scanExponent, either, sign.scanSign first, someDigits_append digits ends.noDigit,
      bind, Except.bind]

theorem FractionAt.before {x : Option (List Char)} {cs rest : List Char}
    (h : FractionAt x cs rest) (behind : NoDigit rest) : NoDigit cs := by
  cases h with
  | absent => exact behind
  | present _ =>
    rintro _ ⟨⟩
    rfl

theorem FractionAt.scanFraction {x : Option (List Char)} {cs rest : List Char}
    (h : FractionAt x cs rest) (behind : NoDigit rest) (point : rest.head? ≠ some '.') :
    Number.scanFraction cs = (.ok (x, rest) : Reading δ (Option (List Char) × List Char)) := by
  cases h with
  | absent =>
    unfold Number.scanFraction
    split
    · simp at point
    · rfl
  | present digits =>
    simp [Number.scanFraction, someDigits_append digits behind, bind, Except.bind]

/-- A number that cannot go on is read to its end, and in its parts. -/
theorem UnsignedAt.scanToken {t : Token} {cs rest : List Char} (h : UnsignedAt t cs rest)
    (ends : Ends rest) (negative : Bool) : Number.scanToken negative cs =
      (.ok ({ t with negative }, rest) : Reading δ (Token × List Char)) := by
  cases h with
  | mk whole fraction exponent =>
    obtain ⟨noDigit, point⟩ := exponent.before ends
    simp [Number.scanToken, scanWhole_append whole (fraction.before noDigit),
      fraction.scanFraction noDigit point, exponent.scanExponent ends, bind, Except.bind]

/-- A number that cannot go on is skipped to its end. -/
theorem UnsignedAt.skip {t : Token} {cs rest : List Char} (h : UnsignedAt t cs rest)
    (ends : Ends rest) : Number.skip cs = (.ok rest : Reading δ (List Char)) := by
  simp [Number.skip, h.scanToken ends]

theorem UnsignedAt.head {t : Token} {cs rest : List Char} (h : UnsignedAt t cs rest) :
    ∃ c cs', cs = c :: cs' ∧ isDigit c = true := by
  cases h with
  | mk whole _ _ =>
    cases hw : t.whole with
    | nil => exact absurd hw whole.1.1
    | cons c ds => exact ⟨c, _, rfl, whole.1.2 c (by simp [hw])⟩

/-! ## Integers -/

theorem collectWhole_append_singleton {ds : List Char} {d : Char} {n : Nat}
    (taken : (collectWhole ds).take? d = some n) :
    collectWhole (ds ++ [d]) = { collectWhole ds with significand := n } := by
  unfold collectWhole at *
  simp only [List.foldl_append, List.foldl_cons, List.foldl_nil, taken]

/-- Digits whose number fits are collected without a loss. -/
theorem collectWhole_of_le {ds : List Char} (fits : Decimal.value ds ≤ largest) :
    collectWhole ds = ⟨Decimal.value ds, 0, false⟩ := by
  induction ds using List.reverseRecOn with
  | nil => rfl
  | append_singleton ds d ih =>
    rw [Decimal.value_append_singleton] at fits ⊢
    have before := ih (by omega)
    have taken : (collectWhole ds).take? d =
        some (10 * Decimal.value ds + Decimal.digitValue d) := by
      simp [before, Collected.take?, Nat.not_lt.mpr fits]
    rw [collectWhole_append_singleton taken, before]

/-- An integer of 64 bits, with a sign or without, is read as such. -/
theorem Token.value?_of_integer? {t : Token} {z : Int} (integer : t.integer? = some z)
    (low : -2 ^ 63 ≤ z) (high : z < 2 ^ 64) : t.value? = some (.integer z) := by
  obtain ⟨negative, whole, fraction, exponent⟩ := t
  have plain : fraction = none ∧ exponent = none := by
    by_contra other
    simp [Token.integer?, other] at integer
  obtain ⟨rfl, rfl⟩ := plain
  cases negative with
  | false =>
    have value : (Decimal.value whole : Int) = z := by simpa [Token.integer?] using integer
    have fits : Decimal.value whole ≤ largest := by
      simp only [largest, UInt64.size]
      omega
    simp [Token.value?, collectWhole_of_le fits, ofWhole, value]
  | true =>
    have nonzero : Decimal.value whole ≠ 0 := by
      intro zero
      simp [Token.integer?, zero] at integer
    have value : -(Decimal.value whole : Int) = z := by
      simpa [Token.integer?, nonzero] using integer
    have fits : Decimal.value whole ≤ largest := by
      simp only [largest, UInt64.size]
      omega
    have inside : Decimal.value whole ≤ 9223372036854775808 := by omega
    simp [Token.value?, collectWhole_of_le fits, ofWhole, nonzero, inside, value]

end Number

end Json

end HiLo
