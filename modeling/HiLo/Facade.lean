/-
HiLo.Facade — generators made from a configuration.

A facade chooses the design at run time, by the strategy of its configuration,
and remembers the configuration. It is made from a configuration, from a
builder that collects the settings one by one, or from a layout with the
default settings.
-/
import HiLo.Generator

namespace HiLo

/-! ## Facades -/

/-- A generator with the configuration it was made from. -/
structure Facade where
  config : Config
  engine : Generator
  deriving DecidableEq

namespace Facade

def ofConfig (c : Config) : Except Refusal Facade :=
  match c.layout with
  | .ok L => .ok ⟨c, .fresh (.ofStrategy c.strategy c.attempts) L⟩
  | .error r => .error r

/-- The facade of a layout, with the default settings otherwise. -/
def ofLayout (L : Layout) : Facade :=
  ⟨.ofLayout L, .fresh (.optimistic defaultAttempts) L⟩

def layout (f : Facade) : Layout := f.engine.layout

def strategy (f : Facade) : Strategy := f.config.strategy

/-- The facade as a record; what is inside the generator stays hidden. -/
def outline (f : Facade) : Outline :=
  .record "IdGenerator" [("config", f.config.outline)] true

def creation (f : Facade) : Note := .created f.layout f.strategy

def call {σ ε : Type} (S : Source σ ε) (kind : LockKind) (f : Facade) (s : σ) :
    Called σ ε × Facade :=
  let c := f.engine.call S kind s
  (c, { f with engine := c.generator })

def calls {σ ε : Type} (S : Source σ ε) (kind : LockKind) :
    Nat → Facade → σ → List (Called σ ε)
  | 0, _, _ => []
  | n + 1, f, s =>
    let (c, f') := f.call S kind s
    c :: calls S kind n f' c.source

end Facade

/-! ## Builders -/

/-- Settings on their way to a facade. -/
structure Builder where
  config : Config
  deriving DecidableEq

namespace Builder

def ofCapacity (capacity : Int64) : Builder := ⟨.ofCapacity capacity⟩

def set (b : Builder) : Setting → Builder
  | .scheme m => { config := { b.config with scheme := m } }
  | .strategy s => { config := { b.config with strategy := s } }
  | .attempts n => { config := { b.config with attempts := n } }

def build (b : Builder) : Except Refusal Facade := Facade.ofConfig b.config

def outline (b : Builder) : Outline :=
  .whole "IdGeneratorBuilder" [("config", b.config.outline)]

end Builder

end HiLo
