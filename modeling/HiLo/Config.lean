/-
HiLo.Config — the settings of an identifier generator.

A configuration holds a capacity that need not be valid yet, a scheme, a
locking strategy and the number of optimistic attempts a call may make before
it takes the lock. `layout` is where the capacity is checked.
-/
import HiLo.Layout

namespace HiLo

/-! ## Strategies -/

/-- How concurrent calls of one generator are kept apart: every call takes the
lock, or calls count up without it and check that hi stayed the same or that a
version did. -/
inductive Strategy where
  | lock
  | optimistic
  | stamped
  deriving DecidableEq

namespace Strategy

/-- The strategy of a configuration that names none. -/
instance : Inhabited Strategy := ⟨.optimistic⟩

/-- The name in texts and in configuration files. -/
def name : Strategy → String
  | .lock => "lock"
  | .optimistic => "optimistic"
  | .stamped => "stamped"

/-- The name in descriptions. -/
def label : Strategy → String
  | .lock => "Lock"
  | .optimistic => "Optimistic"
  | .stamped => "Stamped"

/-- All strategies, in the order in which messages list them. -/
def all : List Strategy := [.lock, .optimistic, .stamped]

def ofName? (s : String) : Option Strategy := all.find? (·.name == s)

def outline (s : Strategy) : Outline := .word s.label

end Strategy

/-! ## Configurations -/

def defaultAttempts : UInt32 := 4

/-- The settings of a generator. The block size is checked only when a layout is
made; `attempts` is how often a call tries without the lock. -/
structure Config where
  capacity : Int64
  scheme : Scheme := default
  strategy : Strategy := default
  attempts : UInt32 := defaultAttempts
  deriving DecidableEq

namespace Config

def ofCapacity (capacity : Int64) : Config := { capacity }

def ofLayout (L : Layout) : Config := { capacity := L.capacity, scheme := L.scheme }

def withScheme (c : Config) (scheme : Scheme) : Config := { c with scheme }

def withStrategy (c : Config) (strategy : Strategy) : Config := { c with strategy }

def withAttempts (c : Config) (attempts : UInt32) : Config := { c with attempts }

def layout (c : Config) : Except Refusal Layout := Layout.make c.capacity c.scheme

/-- Whether two configurations have the same layout, or are refused for the
same reason. -/
def sameLayout (a b : Config) : Bool :=
  match a.layout, b.layout with
  | .ok L, .ok M => decide (L = M)
  | .error r, .error s => decide (r = s)
  | _, _ => false

def outline (c : Config) : Outline :=
  .whole "HiLoConfig"
    [("capacity", .word (Decimal.text c.capacity.toInt)),
     ("mode", c.scheme.outline),
     ("strategy", c.strategy.outline),
     ("max_optimistic_attempts", .word (Decimal.text c.attempts.toNat))]

end Config

/-! ## One setting at a time -/

/-- A single change of the settings. -/
inductive Setting where
  | scheme (scheme : Scheme)
  | strategy (strategy : Strategy)
  | attempts (attempts : UInt32)
  deriving DecidableEq

def Config.set (c : Config) : Setting → Config
  | .scheme m => c.withScheme m
  | .strategy s => c.withStrategy s
  | .attempts n => c.withAttempts n

end HiLo
