/-
HiLo.Routine.Locked — calls that take the lock from beginning to end.

Under the lock a call works as if it were alone: the next lo is one more than
the last, a new hi is drawn when the block is used up or when there is no hi
yet, and both cells are set only once a hi is at hand. Adopting a hi for a new
block is reported; the first hi is not.
-/
import HiLo.Routine

namespace HiLo.Locked

variable {ε : Type}

def commit (hi lo : Int64) : Routine ε := .commit .release hi lo

def drawThen (adopt : Int64 → Routine ε) : Routine ε := .drawThen .release adopt

def rollover : Routine ε := drawThen fun hi => .note (.advanced hi) (commit hi 0)

def work (L : Layout) : Routine ε :=
  .countOn L rollover (fun lo => drawThen (commit · lo)) commit

def routine (L : Layout) : Routine ε := .note .entered (.acquire (work L))

end HiLo.Locked
