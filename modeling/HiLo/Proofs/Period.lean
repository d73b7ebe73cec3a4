/-
HiLo.Proofs.Period — the values of a progression, all the way round.

`progression_values`: what a progression hands out are its terms without the reserved one, in their
order, whatever delay it is behind. They rise until the terms wrap, and none comes twice within a
period less one. A period is 2^64 without the factors of two in the step.

Value number `j` is the term number `j + p.skips j` (`take_eq_map`). Two terms of one period differ
(`eq_of_term_eq`), so the reserved value is among them once at most, and no more than one term is
left out (`skips_le_one`).
-/
import HiLo.Proofs.Terms
import Mathlib.Data.List.Nodup
import Mathlib.Data.Nat.Prime.Int
import Mathlib.Logic.Function.Iterate

namespace HiLo

namespace Progression

variable {p : Progression} {i j n v : Nat}

/-! ## Values in a row -/

theorem length_take (n : Nat) : ∀ p : Progression, (p.take n).1.length = n := by
  induction n with
  | zero => exact fun _ => rfl
  | succ n ih => exact fun p => congrArg (· + 1) (ih p.next.2)

/-- The last of `n + 1` values is the one that comes after `n`. -/
theorem take_succ_eq_append (n : Nat) :
    ∀ p : Progression, (p.take (n + 1)).1 = (p.take n).1 ++ [(p.take n).2.next.1] := by
  induction n with
  | zero => exact fun _ => rfl
  | succ n ih => exact fun p => congrArg (p.next.1 :: ·) (ih p.next.2)

/-- The values are the terms at the places that `skips` says. -/
theorem take_eq_map (n : Nat) :
    ∀ p : Progression, (p.take n).1 = (List.range n).map fun j => p.term (j + p.skips j) := by
  induction n with
  | zero => exact fun _ => rfl
  | succ n ih =>
    intro p
    have hfirst : p.next.1 = p.term (0 + p.skips 0) := by
      rw [next_eq_term, skips, Nat.zero_add]
    have hothers : (p.next.2.take n).1 =
        (List.range n).map ((fun j => p.term (j + p.skips j)) ∘ Nat.succ) := by
      rw [ih]
      exact List.map_congr_left fun j _ => (p.term_skips_succ j).symm
    rw [List.range_succ_eq_map, List.map_cons, List.map_map, ← hfirst, ← hothers]
    rfl

/-! ## Terms without the reserved one -/

/-- The first `m` terms without the reserved value. -/
def kept (p : Progression) (m : Nat) : List Int64 :=
  ((List.range m).map p.term).filter (· ≠ reserved)

theorem term_stepped (p : Progression) (i : Nat) : p.stepped.term i = p.term (i + 1) := by
  unfold term stepped
  rw [Int64.ofNat_add]
  grind

theorem kept_succ (p : Progression) (m : Nat) :
    p.kept (m + 1) = (if p.upcoming = reserved then [] else [p.upcoming]) ++ p.stepped.kept m := by
  have hterms : p.term ∘ Nat.succ = p.stepped.term := funext fun i => (p.term_stepped i).symm
  unfold kept
  rw [List.range_succ_eq_map, List.map_cons, List.map_map, hterms, term_zero]
  by_cases hdue : p.upcoming = reserved <;> simp [hdue]

/-- The values are the terms up to some place, without the reserved one. -/
theorem take_eq_kept (n : Nat) : ∀ p : Progression, (p.take n).1 = p.kept (n + p.skips n) := by
  induction n with
  | zero =>
    intro p
    rw [skips, due, Nat.zero_add]
    split
    · next hdue =>
      rw [kept_succ, if_pos hdue]
      rfl
    · rfl
  | succ n ih =>
    intro p
    have htake : (p.take (n + 1)).1 = p.next.1 :: p.next.2.kept (n + p.next.2.skips n) := by
      rw [← ih]
      rfl
    rw [htake, skips, due]
    by_cases hdue : p.upcoming = reserved
    · -- the reserved term is left out, and the one after it is another
      have hnext : p.next = (p.stepped.upcoming, p.stepped.stepped) := if_pos hdue
      have hother : p.stepped.upcoming ≠ reserved := by
        rw [← term_zero, term_stepped]
        exact term_succ_ne_reserved (p.term_zero.trans hdue)
      rw [hnext, if_pos hdue, show n + 1 + (1 + p.stepped.stepped.skips n) =
        n + p.stepped.stepped.skips n + 1 + 1 by omega, kept_succ, if_pos hdue, kept_succ,
        if_neg hother]
      rfl
    · have hnext : p.next = (p.upcoming, p.stepped) := if_neg hdue
      rw [hnext, if_neg hdue, show n + 1 + (0 + p.stepped.skips n) =
        n + p.stepped.skips n + 1 by omega, kept_succ, if_neg hdue]
      rfl

theorem strictMono_place (p : Progression) : StrictMono fun j => j + p.skips j :=
  strictMono_nat_of_lt_succ fun j => by
    rw [skips_succ]
    omega

/-! ## One period -/

section

variable (hdvd : (2 : Int) ^ v ∣ p.step.toInt) (hmost : ¬ (2 : Int) ^ (v + 1) ∣ p.step.toInt)

include hdvd hmost

/-- Terms of one period differ. If they were equal, 2^64 would divide the way from one to the
other. -/
theorem eq_of_term_eq (hi : i < 2 ^ (64 - v)) (hj : j < 2 ^ (64 - v))
    (heq : p.term i = p.term j) : i = j := by
  have hv : v < 63 := by
    have hle : (2 : Int) ^ v ≤ p.step.toInt := Int.le_of_dvd p.step_toInt_pos hdvd
    exact (pow_lt_pow_iff_right₀ one_lt_two).mp (hle.trans_lt p.step.toInt_lt)
  obtain ⟨odd, hstep⟩ := hdvd
  have hodd : ¬ (2 : Int) ∣ odd := by
    intro heven
    rw [hstep, pow_succ] at hmost
    exact hmost (mul_dvd_mul_left _ heven)
  have hway : (2 : Int) ^ 64 ∣ ((i : Int) - j) * p.step.toInt := by
    have hbmod := congrArg Int64.toInt heq
    rw [toInt_term, toInt_term, Int.bmod_eq_bmod_iff_bmod_sub_eq_zero] at hbmod
    have hdiff := Int.dvd_of_bmod_eq_zero hbmod
    rwa [add_sub_add_left_eq_sub, ← sub_mul] at hdiff
  have hperiod : (2 : Int) ^ (64 - v) ∣ (i : Int) - j := by
    have hsplit : (2 : Int) ^ 64 = 2 ^ (64 - v) * 2 ^ v := by
      rw [← pow_add, Nat.sub_add_cancel (by omega)]
    rw [hstep, hsplit, mul_left_comm, mul_comm] at hway
    exact Prime.pow_dvd_of_dvd_mul_right Int.prime_two _ hodd
      ((mul_dvd_mul_iff_left (pow_ne_zero v two_ne_zero)).mp hway)
  have hnear : |(i : Int) - j| < 2 ^ (64 - v) := by
    have hi' : (i : Int) < 2 ^ (64 - v) := by exact_mod_cast hi
    have hj' : (j : Int) < 2 ^ (64 - v) := by exact_mod_cast hj
    rw [abs_lt]
    omega
  exact Int.ofNat.inj (sub_eq_zero.mp (Int.eq_zero_of_abs_lt_dvd hperiod hnear))

/-- At most one term of a period is left out. -/
theorem skips_le_one : ∀ {j : Nat}, j + 1 < 2 ^ (64 - v) → p.skips j ≤ 1
  | 0, _ => by
    rw [skips, due]
    split <;> omega
  | j + 1, h => by
    have hbefore : p.skips j ≤ 1 := skips_le_one (by omega)
    rw [skips_succ]
    split
    · next hleft =>
      -- another term left out before would be the same one
      have hnone : p.skips j = 0 := by
        rw [skips_eq_count, Nat.count_iff_forall_not]
        intro i hi hleft'
        have := eq_of_term_eq hdvd hmost (by omega) (by omega) (hleft'.trans hleft.symm)
        omega
      omega
    · exact hbefore

/-- No value comes twice within a period less one. -/
theorem nodup_take (hn : n < 2 ^ (64 - v)) : (p.take n).1.Nodup := by
  have hplace : ∀ {j}, j < n → j + p.skips j < 2 ^ (64 - v) := by
    intro j hj
    have hone : p.skips j ≤ 1 := skips_le_one hdvd hmost (by omega)
    omega
  rw [take_eq_map]
  refine List.Nodup.map_on (fun j hj k hk heq => ?_) List.nodup_range
  exact p.strictMono_place.injective (eq_of_term_eq hdvd hmost (hplace (List.mem_range.mp hj))
    (hplace (List.mem_range.mp hk)) heq)

end

/-- The values rise as long as the terms do not wrap. -/
theorem take_pairwise_lt (hfirst : p.upcoming ≠ reserved)
    (inside : ∀ j < n, p.upcoming.toInt + j * p.step.toInt < 2 ^ 63) :
    (p.take n).1.Pairwise (· < ·) := by
  have hvalue : ∀ j < n, (p.term (j + p.skips j)).toInt = p.upcoming.toInt + j * p.step.toInt := by
    intro j hj
    rw [skips_eq_zero hfirst (inside j hj), Nat.add_zero]
    exact toInt_term_of_lt (inside j hj)
  rw [take_eq_map, List.pairwise_map]
  refine List.pairwise_lt_range.imp_of_mem fun {j k} hj hk hlt => ?_
  rw [Int64.lt_iff_toInt_lt, hvalue j (List.mem_range.mp hj), hvalue k (List.mem_range.mp hk)]
  have := Int.mul_lt_mul_of_pos_right (Int.ofNat_lt.mpr hlt) p.step_toInt_pos
  omega

end Progression

/-! ## Behind a delay -/

/-- A delay does not change the values, and each of them costs one pause. -/
theorem Paced.take_eq {π : Type} (Z : Latency π) (n : Nat) :
    ∀ (p : Progression) (pace : π), Paced.take Z n ⟨p, pace⟩ =
      ((p.take n).1, ⟨(p.take n).2, (fun z => (Z.pause z).2)^[n] pace⟩) := by
  induction n with
  | zero => exact fun _ _ => rfl
  | succ n ih =>
    intro p pace
    have hothers := ih p.next.2 (Z.pause pace).2
    have hfirst : Paced.take Z (n + 1) ⟨p, pace⟩ =
        (p.next.1 :: (Paced.take Z n ⟨p.next.2, (Z.pause pace).2⟩).1,
          (Paced.take Z n ⟨p.next.2, (Z.pause pace).2⟩).2) := rfl
    rw [hfirst, hothers, Function.iterate_succ_apply]
    rfl

/-! ## The whole of it -/

/-- From any start and with any gap, `n` requests are answered with the first `n` terms of the
arithmetic sequence without the reserved value. What is upcoming is the next value unless it is the
reserved one. The values rise while the terms do not wrap, and differ within a period less one. A
delay is asked once for each of them, and changes none. -/
theorem progression_values {first sparseness : Int64} {p : Progression}
    (started : Progression.start first sparseness = .ok p) (n : Nat) :
    let step := sparseness.toInt + 1
    let term (i : Nat) := Int64.ofInt (first.toInt + i * step)
    let values := (p.take n).1
    let rest := (p.take n).2
    (values.length = n ∧ ∃ m, values = ((List.range m).map term).filter (· ≠ reserved)) ∧
    reserved ∉ values ∧
    (rest.upcoming ≠ reserved → (p.take (n + 1)).1 = values ++ [rest.upcoming]) ∧
    ((∀ j < n, first.toInt + j * step < 2 ^ 63) → values.Pairwise (· < ·)) ∧
    (∀ v, 2 ^ v ∣ step → ¬ 2 ^ (v + 1) ∣ step → n < 2 ^ (64 - v) → values.Nodup) ∧
    ∀ (π : Type) (Z : Latency π) (pace : π),
      Paced.take Z n ⟨p, pace⟩ = (values, ⟨rest, (fun z => (Z.pause z).2)^[n] pace⟩) := by
  intro step term values rest
  obtain ⟨hfirst, hupcoming, -, -⟩ := Progression.of_start started
  have hstep : p.step.toInt = step := Progression.step_of_start started
  have hterm : p.term = term := by
    funext i
    simp only [term, Progression.term, hupcoming, ← hstep, Int64.ofInt_add, Int64.ofInt_mul,
      Int64.ofInt_toInt]
    rfl
  have hkept : values = ((List.range (n + p.skips n)).map term).filter (· ≠ reserved) := by
    rw [← hterm]
    exact p.take_eq_kept n
  refine ⟨⟨p.length_take n, _, hkept⟩, ?_, fun hnext => ?_, fun inside => ?_,
    fun v hdvd hmost hn => ?_, fun π Z pace => Paced.take_eq Z n p pace⟩
  · rw [hkept]
    simp
  · rw [p.take_succ_eq_append, Progression.next, if_neg hnext]
  · exact Progression.take_pairwise_lt (hupcoming ▸ hfirst) (by rwa [hupcoming, hstep])
  · rw [← hstep] at hdvd hmost
    exact Progression.nodup_take hdvd hmost hn

/-- A quarter of all words is a step, and one of the four terms of a period is the reserved one:
three values differ, and the fourth is the first again. -/
theorem progression_values_of_quarters :
    let p : Progression := ⟨0, 4611686018427387904, by decide⟩
    Progression.start 0 4611686018427387903 = .ok p ∧
      (p.take 3).1 = [0, 4611686018427387904, -4611686018427387904] ∧ (p.take 3).1.Nodup ∧
      (p.take 4).1 = (p.take 3).1 ++ [0] ∧ (Paced.take .counting 3 ⟨p, 0⟩).2.pace = 3 := by
  intro p
  have started : Progression.start 0 4611686018427387903 = .ok p := rfl
  obtain ⟨-, -, hnext, -, hnodup, hpaced⟩ := progression_values started 3
  have hupcoming : (p.take 3).2.upcoming = 0 := by decide
  rw [hupcoming] at hnext
  refine ⟨started, by decide, hnodup 62 (by decide) (by decide) (by decide), hnext (by decide), ?_⟩
  rw [hpaced]
  rfl

end HiLo
