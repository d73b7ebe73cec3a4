/-
HiLo.Routine.Exclusive — the exclusive section of calls that count without the lock.

Two designs count without the lock. They differ in how they check a lo that they
claimed: by hi itself, or by a version. Under the lock they do the same work, except that
the second kind counts the version up at both ends of it. `Check` names the kind, and
the section is written over it.

Nobody counts while there is no hi, so the lo that is claimed with the first hi is the
first one of the block. Later on a new hi is set before lo starts over: whoever claims a lo
of the new block is then sure to see the new hi.
-/
import HiLo.Routine

namespace HiLo

/-- How a call that counts without the lock checks its lo: by reading hi again, or
by a version that every holder of the lock moves on. -/
inductive Check where
  | reread
  | version
  deriving DecidableEq

namespace Check

variable {ε : Type} (c : Check) (L : Layout)

def enter (rest : Routine ε) : Routine ε :=
  match c with
  | .reread => rest
  | .version => .bumpVersion rest

/-- Ends the work under the lock. The version is made even before the lock is released,
also in a crash. -/
def leave (crashed : Bool) (rest : Routine ε) : Routine ε :=
  match c with
  | .reread => .release crashed rest
  | .version => .bumpVersion (.release crashed rest)

def drawThen (adopt : Int64 → Routine ε) : Routine ε := .drawThen c.leave adopt

def publishFirst (hi lo : Int64) : Routine ε :=
  .writeHi hi (c.leave false (.note (.initialized hi) (.finish (.claimed hi lo))))

def claimFirst (hi : Int64) : Routine ε := .bumpLo fun lo => c.publishFirst hi lo

/-- Starts lo over after a new hi was set. -/
def restart (hi : Int64) : Routine ε :=
  .writeLo 0 (.note (.advanced hi) (c.leave false (.finish (.claimed hi 0))))

def publish (hi : Int64) : Routine ε := .writeHi hi (c.restart hi)

def claimNext (hi : Int64) : Routine ε :=
  .bumpLo fun lo =>
  if L.capacity ≤ lo then c.drawThen c.publish
  else c.leave false (.finish (.claimed hi lo))

def work : Routine ε :=
  .readHi fun hi => if hi = reserved then c.drawThen c.claimFirst else c.claimNext L hi

def exclusive : Routine ε := .acquire (c.enter (c.work L))

end Check

end HiLo
