/-
HiLo.Routine.Optimistic — calls that count without the lock and look twice.

An attempt reads hi, adds one to lo and reads hi again. If hi is still the
same and lo is inside the block, the pair belongs to the call. If hi has
changed meanwhile, the lo may belong to either block and is given up; the call
tries again as often as it may. With no hi or with the block used up, and after
its last attempt, a call takes the lock.
-/
import HiLo.Routine.Exclusive

namespace HiLo.Optimistic

variable {ε : Type}

def exclusive (L : Layout) : Routine ε := Check.reread.exclusive L

/-- A call with `n` attempts left. -/
def attempt (L : Layout) : Nat → Routine ε
  | 0 => exclusive L
  | n + 1 =>
    .readHi fun hi =>
    if hi = reserved then exclusive L
    else .bumpLo fun lo =>
      if L.capacity ≤ lo then exclusive L
      else .readHi fun again =>
        if again = hi then .finish (.claimed hi lo) else attempt L n

def routine (L : Layout) (attempts : UInt32) : Routine ε :=
  .note .entered (attempt L attempts.toNat)

end HiLo.Optimistic
