/-
HiLo.Outcome — what a caller gets from a call.

A claimed pair becomes an identifier under the layout. The composition checks
its numbers again; a pair that does not pass ends the call in a crash, just as
a crash of the source does.
-/
import HiLo.Routine
import HiLo.Source.Cause

namespace HiLo

/-- What broke down: the source, or the composition of the identifier. -/
inductive Crash where
  | source (text : String)
  | misuse (m : Misuse)
  deriving DecidableEq

def Crash.message : Crash → String
  | .source text => text
  | .misuse m => m.message

/-- What a caller gets: an identifier, a failure, a crash, or no answer as far
as the source was followed. -/
inductive Outcome (ε : Type) where
  | id (value : Int64)
  | failed (f : Failure ε)
  | crashed (c : Crash)
  | unsettled
  deriving DecidableEq

def Ending.outcome {ε : Type} (L : Layout) : Ending ε → Outcome ε
  | .claimed hi lo =>
    match L.compose hi lo with
    | .ok value => .id value
    | .error m => .crashed (.misuse m)
  | .failed f => .failed f
  | .crashed text => .crashed (.source text)
  | .unsettled => .unsettled

def Outcome.id? {ε : Type} : Outcome ε → Option Int64
  | .id value => some value
  | _ => none

namespace Failure

def name {ε : Type} : Failure ε → String
  | .source _ => "HiSource"
  | .poisoned => "LockPoisoned"

def message : Failure Cause → String
  | .source cause => "hi source failed: " ++ cause.outline.line
  | .poisoned => "lock poisoned by a panic in another thread"

def outline (f : Failure Cause) : Outline :=
  match f with
  | .source cause => .tuple f.name [cause.outline]
  | .poisoned => .word f.name

end Failure

end HiLo
