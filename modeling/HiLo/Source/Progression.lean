/-
HiLo.Source.Progression — hi values from a counter held in memory.

A progression hands out its upcoming value and then adds its step, wrapping at
the end of the 64-bit range. It never hands out the reserved value: when that
one is due, it is skipped. One further step cannot land on it again, because a
step is positive and shorter than the whole range.

A gap of `g` unused numbers between two values is a step of `g + 1`. With a
gap of `capacity - 1` the values are the first identifiers of pooled blocks.
-/
import HiLo.Latency
import HiLo.Source

namespace HiLo

/-- A counter that rises by a positive step; `upcoming` is the value due
next. -/
structure Progression where
  upcoming : Int64
  step : Int64
  positive : 0 < step

namespace Progression

/-- The progression from a first value with a gap after each value. The first
value is checked before the gap. -/
def start (first sparseness : Int64) : Except Refusal Progression :=
  if first = reserved then .error (.reservedHi first)
  else if sparseness < 0 then .error (.sparseness sparseness)
  else if h : 0 < sparseness + 1 then .ok ⟨first, sparseness + 1, h⟩
  else .error (.sparseness sparseness)

/-- All numbers from zero. -/
instance : Inhabited Progression := ⟨⟨0, 1, by decide⟩⟩

/-- The number of unused values between two values. -/
def sparseness (p : Progression) : Int64 := p.step - 1

def stepped (p : Progression) : Progression := { p with upcoming := p.upcoming + p.step }

/-- The next value that is not the reserved one. -/
def next (p : Progression) : Int64 × Progression :=
  if p.upcoming = reserved then (p.stepped.upcoming, p.stepped.stepped)
  else (p.upcoming, p.stepped)

def take : Nat → Progression → List Int64 × Progression
  | 0, p => ([], p)
  | n + 1, p =>
    let (hi, p') := p.next
    let (his, q) := take n p'
    (hi :: his, q)

/-- A progression as a source: it never fails and needs one request. -/
def source (ε : Type) : Source Progression ε where
  next p := (.value p.next.1, p.next.2)
  patience _ := 1

end Progression

/-! ## Slow progressions -/

/-- A progression behind a delay, with the state of the delay. -/
structure Paced (π : Type) where
  progression : Progression
  pace : π

namespace Paced

variable {π : Type}

/-- The next value, after one pause. -/
def next (Z : Latency π) (p : Paced π) : Int64 × Paced π :=
  let (hi, rest) := p.progression.next
  (hi, ⟨rest, (Z.pause p.pace).2⟩)

def take (Z : Latency π) : Nat → Paced π → List Int64 × Paced π
  | 0, p => ([], p)
  | n + 1, p =>
    let (hi, p') := p.next Z
    let (his, q) := take Z n p'
    (hi :: his, q)

/-- What a copy hands out in `n` requests, the copy afterwards, and the slow
progression it was taken from: its values have not moved, but it shares the
delay with the copy. -/
def ahead (Z : Latency π) (n : Nat) (p : Paced π) : List Int64 × Paced π × Paced π :=
  let (his, copy) := take Z n p
  (his, copy, { p with pace := copy.pace })

/-- A slow progression as a record; the delay is described by `pace`. -/
def outline (pace : Outline) (p : Paced π) : Outline :=
  .whole "InMemoryHiSource"
    [("next", .word (Decimal.text p.progression.upcoming.toInt)),
     ("step", .word (Decimal.text p.progression.step.toInt)),
     ("sleeper", pace)]

end Paced

def Latency.noneOutline : Outline := .word "NoopSleeper"

def Latency.fixedOutline (d : Duration) : Outline :=
  .whole "FixedSleeper" [("duration", .word d.text)]

end HiLo
