/-
HiLo.Proofs.Check — how attempts check the lo that they claim.

The parts of an attempt get names here, so that each point at which another thread may come
in between is a term of its own.
-/
import HiLo.Generator

namespace HiLo

def Check.design (c : Check) (attempts : UInt32) : Design :=
  match c with
  | .reread => .optimistic attempts
  | .version => .stamped attempts

/-! ## Attempts that look at hi twice -/

namespace Optimistic

variable {ε : Type} (L : Layout) (n : Nat)

def confirm (hi lo : Int64) : Routine ε :=
  .readHi fun again => if again = hi then .finish (.claimed hi lo) else attempt L n

def claim (hi : Int64) : Routine ε :=
  .bumpLo fun lo => if L.capacity ≤ lo then exclusive L else confirm L n hi lo

theorem attempt_succ :
    (attempt L (n + 1) : Routine ε)
      = .readHi fun hi => if hi = reserved then exclusive L else claim L n hi := rfl

end Optimistic

/-! ## Attempts under a stamp -/

namespace Stamped

variable {ε : Type} (L : Layout) (n : Nat) (stamp : UInt64)

/-- Checks the stamp after a lo was claimed. -/
def confirm (hi lo : Int64) : Routine ε :=
  .readVersion fun later => if later = stamp then .finish (.claimed hi lo) else attempt L n

def claim (hi : Int64) : Routine ε :=
  .bumpLo fun lo => if L.capacity ≤ lo then exclusive L else confirm L n stamp hi lo

/-- Checks the stamp after hi was seen. -/
def check (hi : Int64) : Routine ε :=
  .readVersion fun before => if before ≠ stamp then attempt L n else claim L n stamp hi

/-- Looks at hi under a stamp. -/
def look : Routine ε :=
  .readHi fun hi => if hi = reserved then exclusive L else check L n stamp hi

theorem attempt_succ :
    (attempt L (n + 1) : Routine ε)
      = .readVersion fun stamp => if stamp % 2 = 1 then attempt L n else look L n stamp := rfl

end Stamped

end HiLo
