/-
HiLo.Generator — generators of identifiers.

A generator has a design, which says how its calls keep apart, a layout and
its cells. A call reads the design's routine from beginning to end and turns
the claimed pair into an identifier. The source is not part of the generator:
several generators may share one.
-/
import HiLo.Outcome
import HiLo.Routine.Locked
import HiLo.Routine.Optimistic
import HiLo.Routine.Plain
import HiLo.Routine.Stamped

namespace HiLo

/-! ## Designs -/

/-- How the calls of a generator keep apart: not at all (one thread owns the
generator), by taking the lock in every call, or by counting without the lock
and checking that hi stayed the same or that a version did. -/
inductive Design where
  | plain
  | locked
  | optimistic (attempts : UInt32)
  | stamped (attempts : UInt32)
  deriving DecidableEq

namespace Design

def routine {ε : Type} (d : Design) (L : Layout) : Routine ε :=
  match d with
  | .plain => Plain.routine L
  | .locked => Locked.routine L
  | .optimistic attempts => Optimistic.routine L attempts
  | .stamped attempts => Stamped.routine L attempts

def attempts? : Design → Option UInt32
  | .plain | .locked => none
  | .optimistic attempts | .stamped attempts => some attempts

/-- Whether several threads may call at once. -/
def isShared : Design → Bool
  | .plain => false
  | .locked | .optimistic _ | .stamped _ => true

def ofStrategy (s : Strategy) (attempts : UInt32) : Design :=
  match s with
  | .lock => .locked
  | .optimistic => .optimistic attempts
  | .stamped => .stamped attempts

end Design

/-! ## Generators -/

/-- A generator of identifiers: its design, the layout that makes identifiers of
pairs, and its cells. -/
structure Generator where
  design : Design
  layout : Layout
  memory : Memory
  deriving DecidableEq

/-- A call that was made: how it ended, the generator and the source afterwards,
and every action of the call in order. -/
structure Called (σ ε : Type) where
  ending : Ending ε
  generator : Generator
  source : σ
  acts : List (Act ε)

def Called.outcome {σ ε : Type} (c : Called σ ε) : Outcome ε :=
  c.ending.outcome c.generator.layout

namespace Generator

variable {σ ε : Type}

def fresh (d : Design) (L : Layout) : Generator := ⟨d, L, .fresh⟩

/-- One call that nothing disturbs. -/
def call (S : Source σ ε) (kind : LockKind) (g : Generator) (s : σ) : Called σ ε :=
  let p := (g.design.routine g.layout).run S kind g.memory s
  { ending := p.ending
    generator := { g with memory := p.memory }
    source := p.source
    acts := p.acts }

def calls (S : Source σ ε) (kind : LockKind) : Nat → Generator → σ → List (Called σ ε)
  | 0, _, _ => []
  | n + 1, g, s =>
    let c := g.call S kind s
    c :: calls S kind n c.generator c.source

end Generator

end HiLo
