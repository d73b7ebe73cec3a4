/-
HiLo.Note — what a generator reports about its work.

Notes go to whoever observes the generator and change nothing. A span marks
each call; a warning marks each reserved value that a source answered; two
events tell which hi values were adopted, and one that a generator was made.
-/
import HiLo.Config

namespace HiLo

/-- One report: a call has begun, the source answered the reserved value, the
first or a later hi value was adopted, or a generator was made from a
configuration. -/
inductive Note where
  | entered
  | reservedAnswer
  | initialized (hi : Int64)
  | advanced (hi : Int64)
  | created (layout : Layout) (strategy : Strategy)
  deriving DecidableEq

namespace Note

/-- The importance of a report: it marks the course of the work, tells of a
change, or of something that should not be. -/
inductive Level where
  | trace
  | debug
  | warn
  deriving DecidableEq

def Level.name : Level → String
  | .trace => "TRACE"
  | .debug => "DEBUG"
  | .warn => "WARN"

def level : Note → Level
  | .entered => .trace
  | .reservedAnswer => .warn
  | .initialized _ | .advanced _ | .created _ _ => .debug

def span? : Note → Option String
  | .entered => some "try_generate"
  | _ => none

def message? : Note → Option String
  | .entered => none
  | .reservedAnswer =>
    some "hi source returned the reserved UNINITIALIZED value; requesting another"
  | .initialized _ => some "initialized hi"
  | .advanced _ => some "advanced hi"
  | .created _ _ => some "created id generator"

def hi? : Note → Option Int64
  | .initialized hi | .advanced hi => some hi
  | _ => none

/-- The texts that a report carries besides its sentence, by name. -/
def texts : Note → List (String × String)
  | .created layout strategy => [("layout", layout.text), ("strategy", strategy.name)]
  | _ => []

end Note

end HiLo
