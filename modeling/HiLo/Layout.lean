/-
HiLo.Layout — how a hi value and a lo value make an identifier.

Every hi value stands for a block of `capacity` identifiers and lo counts
inside the block. Under the `hilo` scheme the blocks are numbered by hi, so
the identifier is `hi * capacity + lo`; under the `pooled` scheme hi is itself
the first identifier of its block. The arithmetic is that of 64-bit words and
wraps.

`compose` checks its numbers first. A `Layout` has a capacity that is known
to be positive, which leaves two of the three checks.
-/
import HiLo.Refusal

namespace HiLo

/-! ## Schemes -/

/-- How blocks are numbered: by consecutive numbers, which are multiplied by the
capacity, or by their first identifier. -/
inductive Scheme where
  | hilo
  | pooled
  deriving DecidableEq

namespace Scheme

/-- The scheme of a layout that names none. -/
instance : Inhabited Scheme := ⟨.hilo⟩

/-- The name in texts and in configuration files. -/
def name : Scheme → String
  | .hilo => "hilo"
  | .pooled => "pooled"

/-- The name in descriptions. -/
def label : Scheme → String
  | .hilo => "HiLo"
  | .pooled => "Pooled"

/-- All schemes, in the order in which messages list them. -/
def all : List Scheme := [.hilo, .pooled]

def ofName? (s : String) : Option Scheme := all.find? (·.name == s)

def outline (m : Scheme) : Outline := .word m.label

def combine (m : Scheme) (hi lo capacity : Int64) : Int64 :=
  match m with
  | .hilo => hi * capacity + lo
  | .pooled => hi + lo

end Scheme

/-! ## Checked composition -/

/-- Numbers that make no identifier: a capacity that is zero or negative, the
reserved hi, or a lo outside its block. -/
inductive Misuse where
  | capacity
  | hi
  | lo
  deriving DecidableEq

def Misuse.message : Misuse → String
  | .capacity => "capacity must be positive"
  | .hi => "hi must not be UNINITIALIZED"
  | .lo => "lo must be in [0, capacity)"

/-- The identifier of a pair. The capacity is checked first, then hi, then
lo. -/
def compose (hi lo capacity : Int64) (scheme : Scheme) : Except Misuse Int64 :=
  if capacity ≤ 0 then .error .capacity
  else if hi = reserved then .error .hi
  else if lo < 0 ∨ capacity ≤ lo then .error .lo
  else .ok (scheme.combine hi lo capacity)

/-! ## Layouts -/

/-- A scheme with blocks of a positive number of identifiers. -/
structure Layout where
  capacity : Int64
  scheme : Scheme
  positive : 0 < capacity
  deriving DecidableEq

namespace Layout

def make (capacity : Int64) (scheme : Scheme) : Except Refusal Layout :=
  if h : 0 < capacity then .ok ⟨capacity, scheme, h⟩ else .error (.capacity capacity)

def compose (L : Layout) (hi lo : Int64) : Except Misuse Int64 :=
  HiLo.compose hi lo L.capacity L.scheme

def text (L : Layout) : String :=
  L.scheme.name ++ "(capacity=" ++ Decimal.text L.capacity.toInt ++ ")"

def outline (L : Layout) : Outline :=
  .whole "Layout"
    [("capacity", .word (Decimal.text L.capacity.toInt)), ("mode", L.scheme.outline)]

end Layout

end HiLo
