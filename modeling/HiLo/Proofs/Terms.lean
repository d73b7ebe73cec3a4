/-
HiLo.Proofs.Terms — a progression, term by term.

The counter of a progression runs through an arithmetic sequence of words, and every
term of it is handed out but the reserved one. `skips` counts the terms that were left
out: value number `j` is the term number `j + p.skips j` (`reply_source`), and `skips`
grows by one just where the next term is the reserved one (`skips_succ`). Nothing is left
out while the terms do not wrap (`skips_eq_zero`).
-/
import HiLo.Proofs.Draws
import HiLo.Proofs.Words
import HiLo.Source.Progression
import Mathlib.Algebra.Order.Ring.Int
import Mathlib.Data.Nat.Count

namespace HiLo.Progression

variable {p : Progression} {i j : Nat}

/-! ## Terms -/

/-- The counter after `i` steps. -/
def term (p : Progression) (i : Nat) : Int64 := p.upcoming + .ofNat i * p.step

/-- How many terms are left out before the value that is handed out next. -/
def due (p : Progression) : Nat := if p.upcoming = reserved then 1 else 0

/-- How many terms are left out before value number `j`, counted from zero. -/
def skips : Nat → Progression → Nat
  | 0, p => p.due
  | j + 1, p => p.due + skips j p.next.2

@[simp] theorem term_zero (p : Progression) : p.term 0 = p.upcoming := by
  unfold term
  grind

theorem term_succ (p : Progression) (i : Nat) : p.term (i + 1) = p.term i + p.step := by
  unfold term
  rw [Int64.ofNat_add]
  grind

theorem step_ne_zero (p : Progression) : p.step ≠ 0 := by
  have := p.positive
  grind

/-- One step on from the reserved value it is not due again. -/
theorem term_succ_ne_reserved (h : p.term i = reserved) : p.term (i + 1) ≠ reserved := by
  rw [term_succ, h]
  intro heq
  exact p.step_ne_zero (by grind)

/-- What is handed out next is the first term that is not left out, and the terms go on
from there. -/
theorem next_eq_term (p : Progression) : p.next.1 = p.term p.due := by
  unfold next due
  split
  · rw [term_succ, term_zero]
    rfl
  · rw [term_zero]

theorem term_next (p : Progression) (i : Nat) : p.next.2.term i = p.term (p.due + 1 + i) := by
  have hterms : ∀ n, p.term (n + i) = p.term n + .ofNat i * p.step := by
    intro n
    unfold term
    rw [Int64.ofNat_add]
    grind
  rw [hterms, term_succ, ← next_eq_term]
  unfold next
  split <;> rfl

/-! ## What is handed out -/

/-- The values after the next one are those of the progression as it is then. -/
theorem term_skips_succ (p : Progression) (j : Nat) :
    p.term (j + 1 + p.skips (j + 1)) = p.next.2.term (j + p.next.2.skips j) := by
  rw [term_next, skips]
  exact congrArg p.term (by omega)

/-- Value number `j` is the term number `j + p.skips j`. -/
theorem reply_source (ε : Type) (j : Nat) :
    ∀ p : Progression, (source ε).reply j p = .value (p.term (j + p.skips j)) := by
  induction j with
  | zero =>
    intro p
    rw [skips, Nat.zero_add, ← next_eq_term]
    rfl
  | succ j ih =>
    intro p
    rw [term_skips_succ]
    exact ih p.next.2

/-- The reserved value is never handed out. -/
theorem term_skips_ne_reserved (j : Nat) :
    ∀ p : Progression, p.term (j + p.skips j) ≠ reserved := by
  induction j with
  | zero =>
    intro p
    rw [skips, Nat.zero_add, due]
    split
    · next h => exact term_succ_ne_reserved (p.term_zero.trans h)
    · next h => rwa [term_zero]
  | succ j ih =>
    intro p
    rw [term_skips_succ]
    exact ih p.next.2

/-- A further term is left out between two values exactly if it is the reserved one. -/
theorem skips_succ (j : Nat) :
    ∀ p : Progression, p.skips (j + 1)
      = p.skips j + if p.term (j + p.skips j + 1) = reserved then 1 else 0 := by
  induction j with
  | zero =>
    intro p
    have hnext : p.next.2.upcoming = p.term (p.due + 1) := by
      rw [← term_zero, term_next]
    simp only [skips, due, hnext, Nat.zero_add]
  | succ j ih =>
    intro p
    have hindex : j + 1 + p.skips (j + 1) + 1 = p.due + 1 + (j + p.next.2.skips j + 1) := by
      rw [skips]
      omega
    rw [hindex, ← term_next, skips, ih, skips]
    omega

/-- As many terms are left out as are the reserved value so far. -/
theorem skips_eq_count (p : Progression) (j : Nat) :
    p.skips j = Nat.count (fun i => p.term i = reserved) (j + p.skips j) := by
  induction j with
  | zero =>
    simp only [skips, due, Nat.zero_add]
    split
    · next h => simp [Nat.count_succ, h]
    · rfl
  | succ j ih =>
    -- the value itself is no reserved one, so only the term after it can add to the count
    have hne := term_skips_ne_reserved j p
    rw [skips_succ]
    split
    · next h =>
      rw [show j + 1 + (p.skips j + 1) = j + p.skips j + 1 + 1 by omega, Nat.count_succ,
        Nat.count_succ, if_neg hne, if_pos h, ← ih]
    · rw [show j + 1 + (p.skips j + 0) = j + p.skips j + 1 by omega, Nat.count_succ,
        if_neg hne, ← ih]

/-! ## Terms among the integers -/

theorem toInt_reserved : reserved.toInt = -2 ^ 63 := rfl

/-- A term is the integer at its place in the sequence, up to wrapping. -/
theorem toInt_term (p : Progression) (i : Nat) :
    (p.term i).toInt = (p.upcoming.toInt + i * p.step.toInt).bmod (2 ^ 64) := by
  unfold term
  rw [Int64.toInt_add, Int64.toInt_mul, Int.add_bmod_bmod, Int64.toInt_ofNat',
    show Int64.size = 2 ^ 64 from rfl]
  calc (p.upcoming.toInt + Int.bmod i (2 ^ 64) * p.step.toInt).bmod (2 ^ 64)
      = (p.upcoming.toInt + (Int.bmod i (2 ^ 64) * p.step.toInt).bmod (2 ^ 64)).bmod (2 ^ 64) :=
        Int.add_bmod_bmod.symm
    _ = (p.upcoming.toInt + i * p.step.toInt).bmod (2 ^ 64) := by
        rw [Int.bmod_mul_bmod, Int.add_bmod_bmod]

theorem step_toInt_pos (p : Progression) : 0 < p.step.toInt := Int64.lt_iff_toInt_lt.mp p.positive

/-- A term that did not wrap is the integer at its place. -/
theorem toInt_term_of_lt (h : p.upcoming.toInt + i * p.step.toInt < 2 ^ 63) :
    (p.term i).toInt = p.upcoming.toInt + i * p.step.toInt := by
  have hlow := p.upcoming.le_toInt
  have hrise : 0 ≤ (i : Int) * p.step.toInt :=
    Int.mul_nonneg (Int.natCast_nonneg i) (Int.le_of_lt p.step_toInt_pos)
  rw [toInt_term]
  exact Int.bmod_eq_of_le (by omega) (by omega)

/-- Nothing is left out while the terms do not wrap. -/
theorem skips_eq_zero (hfirst : p.upcoming ≠ reserved) :
    ∀ {j : Nat}, p.upcoming.toInt + j * p.step.toInt < 2 ^ 63 → p.skips j = 0
  | 0, _ => if_neg hfirst
  | j + 1, h => by
    have hstep := p.step_toInt_pos
    rw [Int.natCast_succ, Int.add_mul, Int.one_mul] at h
    have hzero : p.skips j = 0 := skips_eq_zero hfirst (by omega)
    have hterm : (p.term (j + 1)).toInt = p.upcoming.toInt + (j + 1) * p.step.toInt :=
      toInt_term_of_lt (by rw [Int.natCast_succ, Int.add_mul, Int.one_mul]; omega)
    have hne : p.term (j + 1) ≠ reserved := by
      intro heq
      have hlow := p.upcoming.le_toInt
      have hrise : 0 ≤ (j : Int) * p.step.toInt :=
        Int.mul_nonneg (Int.natCast_nonneg j) (Int.le_of_lt hstep)
      rw [heq, toInt_reserved, Int.add_mul, Int.one_mul] at hterm
      omega
    rw [skips_succ, hzero, Nat.add_zero, if_neg hne]

/-! ## The start -/

/-- A progression that was started has its first value and its gap, which are sound. -/
theorem of_start {start gap : Int64} (made : Progression.start start gap = .ok p) :
    start ≠ reserved ∧ p.upcoming = start ∧ 0 ≤ gap ∧ p.step = gap + 1 := by
  unfold Progression.start at made
  split at made
  · cases made
  next hstart =>
  split at made
  · cases made
  next hgap =>
  split at made
  · cases made
    exact ⟨hstart, rfl, Int64.not_lt.mp hgap, rfl⟩
  · cases made

/-- The step of a progression is its gap and one, which does not wrap. -/
theorem step_of_start {start gap : Int64} (made : Progression.start start gap = .ok p) :
    p.step.toInt = gap.toInt + 1 := by
  obtain ⟨-, -, hgap, hstep⟩ := of_start made
  have hpos := p.step_toInt_pos
  have hlow : 0 ≤ gap.toInt := Int64.le_iff_toInt_le.mp hgap
  have hhigh := gap.toInt_lt
  rw [hstep] at hpos ⊢
  rcases Int.lt_or_eq_of_le (Int.add_one_le_of_lt hhigh) with hlt | heq
  · exact toInt_add_one hlt
  · -- a gap at the end of the range would make the step wrap below zero
    rw [Int64.toInt_add, show (1 : Int64).toInt = 1 from rfl, heq] at hpos
    exact absurd hpos (by decide)

end HiLo.Progression
