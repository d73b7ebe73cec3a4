/-
HiLo.Proofs.Words — a lo read as an integer.

A lo is an `Int64` that is counted up and would wrap. The lemmas here say when a
count up is an ordinary one, and give a layout its size as a natural number, so
that everything that follows is arithmetic of integers.
-/
import HiLo.Layout
import Mathlib.Algebra.Order.Ring.Int

namespace HiLo

/-! ## Counting up -/

theorem toInt_add_one {x : Int64} (h : x.toInt + 1 < 2 ^ 63) :
    (x + 1).toInt = x.toInt + 1 := by
  have hlow := x.le_toInt
  rw [Int64.toInt_add, show (1 : Int64).toInt = 1 from rfl]
  exact Int.bmod_eq_of_le (by omega) (by omega)

/-! ## The size of a block -/

namespace Layout

variable (L : Layout)

/-- The number of identifiers in a block. -/
def size : Nat := L.capacity.toInt.toNat

theorem capacity_toInt : L.capacity.toInt = L.size := by
  have h : (0 : Int64).toInt < L.capacity.toInt := Int64.lt_iff_toInt_lt.mp L.positive
  rw [show (0 : Int64).toInt = 0 from rfl] at h
  exact (Int.toNat_of_nonneg (by omega)).symm

theorem size_pos : 0 < L.size := by
  have h : (0 : Int64).toInt < L.capacity.toInt := Int64.lt_iff_toInt_lt.mp L.positive
  rw [show (0 : Int64).toInt = 0 from rfl, L.capacity_toInt] at h
  omega

theorem size_lt : L.size < 2 ^ 63 := by
  have h := L.capacity.toInt_lt
  rw [L.capacity_toInt] at h
  omega

theorem toInt_capacity_sub_one : (L.capacity - 1).toInt = L.size - 1 := by
  have hpos := L.size_pos
  have hlt := L.size_lt
  rw [Int64.toInt_sub, L.capacity_toInt, show (1 : Int64).toInt = 1 from rfl]
  exact Int.bmod_eq_of_le (by omega) (by omega)

/-- A lo is past its block when it reaches the size. -/
theorem capacity_le {lo : Int64} : L.capacity ≤ lo ↔ (L.size : Int) ≤ lo.toInt := by
  rw [Int64.le_iff_toInt_le, L.capacity_toInt]

/-- A lo counted from zero is inside while it is below the size. -/
theorem not_capacity_le {given : Nat} (h : given < L.size) :
    ¬ L.capacity ≤ Int64.ofNat given := by
  have := L.size_lt
  rw [L.capacity_le, Int64.toInt_ofNat_of_lt (by omega)]
  omega

variable {L}

/-- A lo counted from zero below the size is the number that was counted. -/
theorem toInt_lo {given : Nat} (h : given < L.size) : (Int64.ofNat given).toInt = given := by
  have := L.size_lt
  exact Int64.toInt_ofNat_of_lt (by omega)

theorem lo_nonneg {given : Nat} (h : given < L.size) : 0 ≤ Int64.ofNat given := by
  rw [Int64.le_iff_toInt_le, toInt_lo h]
  exact Int.natCast_nonneg given

theorem lo_lt_capacity {given : Nat} (h : given < L.size) : Int64.ofNat given < L.capacity :=
  Int64.not_le.mp (L.not_capacity_le h)

end Layout

end HiLo
