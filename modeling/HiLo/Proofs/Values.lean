/-
HiLo.Proofs.Values — identifiers read as integers.

The arithmetic of identifiers wraps. `Layout.value` is the identifier that a pair
would have among the integers, and a pair is `Exact` where that integer fits into
a word. An exact pair makes just this identifier (`compose_of_exact`), and pairs
make identifiers in their own order, as long as no block reaches into the next
one (`value_lt`).
-/
import HiLo.Outcome
import HiLo.Proofs.Words

namespace HiLo

namespace Layout

variable (L : Layout)

/-- The identifier of a pair among the integers. -/
def value (hi lo : Int64) : Int :=
  match L.scheme with
  | .hilo => hi.toInt * L.size + lo.toInt
  | .pooled => hi.toInt + lo.toInt

/-- The identifier of a pair does not overflow. -/
def Exact (hi lo : Int64) : Prop := -2 ^ 63 ≤ L.value hi lo ∧ L.value hi lo < 2 ^ 63

/-- The second hi is greater than the first, and where identifiers are counted from
hi itself, by a whole block at least. -/
def Apart (hi hi' : Int64) : Prop :=
  match L.scheme with
  | .hilo => hi.toInt < hi'.toInt
  | .pooled => hi.toInt + L.size ≤ hi'.toInt

variable {L} {L' : Layout} {hi hi' lo lo' : Int64}

/-- The composition computes the integer, up to wrapping. -/
theorem toInt_combine :
    (L.scheme.combine hi lo L.capacity).toInt = (L.value hi lo).bmod (2 ^ 64) := by
  unfold Scheme.combine value
  cases L.scheme with
  | hilo =>
    simp only [Int64.toInt_add, Int64.toInt_mul, Int.bmod_add_bmod, L.capacity_toInt]
  | pooled => simp only [Int64.toInt_add]

/-- A lo inside the block makes an identifier with a hi that is not reserved. -/
theorem compose_eq_ok (hhi : hi ≠ reserved) (hlo : 0 ≤ lo) (inside : lo < L.capacity) :
    L.compose hi lo = .ok (L.scheme.combine hi lo L.capacity) := by
  have hpos : ¬ L.capacity ≤ 0 := Int64.not_le.mpr L.positive
  unfold compose HiLo.compose
  rw [if_neg hpos, if_neg hhi,
    if_neg (not_or.mpr ⟨Int64.not_lt.mpr hlo, Int64.not_le.mpr inside⟩)]

/-- So does every lo that is counted from zero below the size. -/
theorem compose_ofNat {given : Nat} (hhi : hi ≠ reserved) (hlo : given < L.size) :
    L.compose hi (.ofNat given) = .ok (L.scheme.combine hi (.ofNat given) L.capacity) :=
  compose_eq_ok hhi (lo_nonneg hlo) (lo_lt_capacity hlo)

/-- An exact pair makes the identifier that it has among the integers. -/
theorem toInt_combine_of_exact (exact : L.Exact hi lo) :
    (L.scheme.combine hi lo L.capacity).toInt = L.value hi lo := by
  have hlow := exact.1
  have hhigh := exact.2
  rw [toInt_combine]
  exact Int.bmod_eq_of_le (by omega) (by omega)

theorem compose_of_exact (hhi : hi ≠ reserved) (hlo : 0 ≤ lo) (inside : lo < L.capacity)
    (exact : L.Exact hi lo) : ∃ id, L.compose hi lo = .ok id ∧ id.toInt = L.value hi lo :=
  ⟨_, compose_eq_ok hhi hlo inside, toInt_combine_of_exact exact⟩

/-- Where hi is multiplied, blocks of different hi values are apart. -/
theorem apart_of_hilo (scheme : L.scheme = .hilo) (scheme' : L'.scheme = .hilo)
    (ne : hi ≠ hi') : L.Apart hi hi' ∨ L'.Apart hi' hi := by
  have hne : hi.toInt ≠ hi'.toInt := fun h => ne (Int64.toInt.inj h)
  unfold Apart
  rw [scheme, scheme']
  exact Int.lt_or_gt_of_ne hne

/-- Where identifiers are counted from hi, blocks are apart if their hi values differ by the
size of both. -/
theorem apart_of_pooled (scheme : L.scheme = .pooled) (scheme' : L'.scheme = .pooled)
    (size : L.size ≤ (hi.toInt - hi'.toInt).natAbs)
    (size' : L'.size ≤ (hi.toInt - hi'.toInt).natAbs) : L.Apart hi hi' ∨ L'.Apart hi' hi := by
  unfold Apart
  rw [scheme, scheme']
  dsimp only
  omega

/-- Inside one block identifiers follow lo. -/
theorem value_lt_of_lo (hlo : lo < lo') : L.value hi lo < L.value hi lo' := by
  rw [Int64.lt_iff_toInt_lt] at hlo
  unfold value
  cases L.scheme with
  | hilo => exact Int.add_lt_add_left hlo _
  | pooled => exact Int.add_lt_add_left hlo _

/-- The identifiers of a later block are greater. -/
theorem value_lt_of_apart (hapart : L.Apart hi hi') (inside : lo < L.capacity) (hlo : 0 ≤ lo') :
    L.value hi lo < L.value hi' lo' := by
  rw [Int64.lt_iff_toInt_lt, L.capacity_toInt] at inside
  rw [Int64.le_iff_toInt_le, show (0 : Int64).toInt = 0 from rfl] at hlo
  unfold Apart at hapart
  unfold value
  cases hscheme : L.scheme with
  | hilo =>
    rw [hscheme] at hapart
    have hblock : (hi.toInt + 1) * L.size ≤ hi'.toInt * L.size :=
      Int.mul_le_mul_of_nonneg_right (Int.add_one_le_of_lt hapart) (Int.natCast_nonneg _)
    rw [Int.add_mul, Int.one_mul] at hblock
    dsimp only
    omega
  | pooled =>
    rw [hscheme] at hapart
    dsimp only at hapart ⊢
    omega

/-- Pairs make identifiers in their own order, if their blocks do not overlap. -/
theorem value_lt (h : L.Apart hi hi' ∨ hi = hi' ∧ lo < lo') (inside : lo < L.capacity)
    (hlo : 0 ≤ lo') : L.value hi lo < L.value hi' lo' := by
  rcases h with hapart | ⟨rfl, hlt⟩
  · exact value_lt_of_apart hapart inside hlo
  · exact value_lt_of_lo hlt

/-- Different pairs make different identifiers, also under two layouts that read pairs
alike, if no block of the one reaches into a block of the other. -/
theorem value_ne (alike : ∀ hi lo, L'.value hi lo = L.value hi lo)
    (hapart : hi ≠ hi' → L.Apart hi hi' ∨ L'.Apart hi' hi) (hlo : 0 ≤ lo) (inside : lo < L.capacity)
    (hlo' : 0 ≤ lo') (inside' : lo' < L'.capacity) (ne : hi = hi' → lo ≠ lo') :
    L.value hi lo ≠ L'.value hi' lo' := by
  by_cases hhi : hi = hi'
  · subst hhi
    rw [alike]
    rcases Int64.lt_or_lt_of_ne (ne rfl) with hlt | hlt
    · exact Int.ne_of_lt (value_lt_of_lo hlt)
    · exact Int.ne_of_gt (value_lt_of_lo hlt)
  · rcases hapart hhi with h | h
    · rw [alike]
      exact Int.ne_of_lt (value_lt_of_apart h inside hlo')
    · rw [← alike]
      exact Int.ne_of_gt (value_lt_of_apart h inside' hlo)

end Layout

/-- Only a pair makes an identifier. -/
theorem Ending.claimed_of_id? {ε : Type} {L : Layout} {e : Ending ε} {id : Int64}
    (h : (e.outcome L).id? = some id) :
    ∃ p : Int64 × Int64, e = .claimed p.1 p.2 ∧ L.compose p.1 p.2 = .ok id := by
  cases e with
  | claimed hi lo =>
    refine ⟨(hi, lo), rfl, ?_⟩
    simp only [Ending.outcome] at h
    split at h
    · next hid => rw [hid, Option.some.inj h]
    · cases h
  | _ => cases h

end HiLo
