/-
HiLo.Routine.Stamped — calls that count without the lock under a stamp.

Whoever holds the lock adds one to the version before and after its work, so
the version is odd meanwhile and never returns to an earlier value soon. An
attempt takes an even version as its stamp, reads hi, checks the stamp, adds
one to lo and checks the stamp again. If it still holds and lo is inside the
block, the pair belongs to the call. A stale stamp found before lo is touched
costs nothing; one found afterwards costs that lo. With no hi or with the block
used up, and after its last attempt, a call takes the lock.
-/
import HiLo.Routine.Exclusive

namespace HiLo.Stamped

variable {ε : Type}

def exclusive (L : Layout) : Routine ε := Check.version.exclusive L

/-- A call with `n` attempts left. -/
def attempt (L : Layout) : Nat → Routine ε
  | 0 => exclusive L
  | n + 1 =>
    .readVersion fun stamp =>
    if stamp % 2 = 1 then attempt L n
    else .readHi fun hi =>
      if hi = reserved then exclusive L
      else .readVersion fun before =>
        if before ≠ stamp then attempt L n
        else .bumpLo fun lo =>
          if L.capacity ≤ lo then exclusive L
          else .readVersion fun later =>
            if later = stamp then .finish (.claimed hi lo) else attempt L n

def routine (L : Layout) (attempts : UInt32) : Routine ε :=
  .note .entered (attempt L attempts.toNat)

end HiLo.Stamped
