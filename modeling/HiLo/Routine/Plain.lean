/-
HiLo.Routine.Plain — calls of a generator that one thread owns.

Such a generator needs no lock. The next lo is one more than the last. When it
leaves the block, a new hi is drawn and lo starts over; while there is no hi,
one is drawn and lo is kept. Both cells are set only once a hi is at hand, so
a failed call leaves them as they were.
-/
import HiLo.Routine

namespace HiLo.Plain

variable {ε : Type}

-- there is no lock to give back
def leave (_crashed : Bool) (rest : Routine ε) : Routine ε := rest

def commit (hi lo : Int64) : Routine ε := .commit leave hi lo

def drawFor (lo : Int64) : Routine ε := .drawThen leave (commit · lo)

def routine (L : Layout) : Routine ε :=
  .note .entered (.countOn L (drawFor 0) drawFor commit)

end HiLo.Plain
