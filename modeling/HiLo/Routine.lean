/-
HiLo.Routine — a call for an identifier, action by action.

A generator keeps a few cells: the current hi, the last lo claimed, a version
and a lock around its source. One call is a tree of single actions on these
cells; where an action has an answer, the tree branches on it. Each action is
indivisible, so the tree says all there is to know about a call, whether calls
follow one another or overlap.

`run` is the reading for a call that nothing disturbs: it performs the whole
tree at once. (`HiLo.Machine` has the reading for calls that overlap, where
any thread may perform its next action.)
-/
import HiLo.Note
import HiLo.Source

namespace HiLo

/-! ## How calls end -/

/-- Why a call has no identifier: the source failed, or a crash has left the
lock behind. -/
inductive Failure (ε : Type) where
  | source (cause : ε)
  | poisoned
  deriving DecidableEq

/-- How a call ends: with a pair of hi and lo that belongs to this call, with a
failure, with a crash of the source, or not at all, as far as the source was
followed. -/
inductive Ending (ε : Type) where
  | claimed (hi lo : Int64)
  | failed (f : Failure ε)
  | crashed (text : String)
  | unsettled
  deriving DecidableEq

/-! ## Cells -/

/-- The cells of a generator: the current hi (the reserved value while there is
none), the last lo that was claimed, a version that is odd while the lock is
held for writing, and whether a crash has spoiled the lock. -/
structure Memory where
  hi : Int64 := reserved
  lo : Int64 := -1
  version : UInt64 := 0
  poisoned : Bool := false
  deriving DecidableEq

def Memory.fresh : Memory := {}

/-- What a crash does to the lock that is held meanwhile: the lock is spoiled
for good, or released as usual. -/
inductive LockKind where
  | poisoning
  | forgiving
  deriving DecidableEq

/-- The cells after the lock was released, in a crash or not. -/
def Memory.released (kind : LockKind) (crashed : Bool) (m : Memory) : Memory :=
  { m with poisoned := m.poisoned || (crashed && kind == .poisoning) }

/-! ## Routines -/

/-- The rest of a call. `bumpLo` and `bumpVersion` add one, wrapping, and
`bumpLo` goes on with the sum; `acquire` fails the call where the lock is
spoiled; `release` says whether it happens in a crash; `draw` goes on with an
answer that is not the reserved value. -/
inductive Routine (ε : Type) where
  | finish (e : Ending ε)
  | note (n : Note) (rest : Routine ε)
  | readHi (rest : Int64 → Routine ε)
  | readLo (rest : Int64 → Routine ε)
  | writeHi (hi : Int64) (rest : Routine ε)
  | writeLo (lo : Int64) (rest : Routine ε)
  | bumpLo (rest : Int64 → Routine ε)
  | readVersion (rest : UInt64 → Routine ε)
  | bumpVersion (rest : Routine ε)
  | acquire (rest : Routine ε)
  | release (crashed : Bool) (rest : Routine ε)
  | draw (rest : Reply ε → Routine ε)

/-- An action that was performed, with what came of it: the value that was read
or set, the sum that was counted up to, or the answer of the source. `refused`
is an attempt to take a lock that was spoiled. -/
inductive Act (ε : Type) where
  | noted (n : Note)
  | sawHi (hi : Int64)
  | sawLo (lo : Int64)
  | wroteHi (hi : Int64)
  | wroteLo (lo : Int64)
  | bumpedLo (lo : Int64)
  | sawVersion (version : UInt64)
  | bumpedVersion (version : UInt64)
  | acquired
  | refused
  | released (crashed : Bool)
  | asked (r : Reply ε)
  deriving DecidableEq

/-- What an action lets an observer know. -/
def Act.note? {ε : Type} : Act ε → Option Note
  | .noted n => some n
  | .asked r => if r.isReserved then some .reservedAnswer else none
  | _ => none

/-! ## Shared parts -/

namespace Routine

variable {ε : Type}

/-- Draws a hi. Without one the call goes through `leave`, which is told of a crash, and
ends. -/
def drawThen (leave : Bool → Routine ε → Routine ε) (adopt : Int64 → Routine ε) : Routine ε :=
  .draw fun
    | .value hi => adopt hi
    | .failure cause => leave false (.finish (.failed (.source cause)))
    | .crash text => leave true (.finish (.crashed text))

/-- Sets both cells and ends with their pair. -/
def commit (leave : Bool → Routine ε → Routine ε) (hi lo : Int64) : Routine ε :=
  .writeHi hi (.writeLo lo (leave false (.finish (.claimed hi lo))))

/-- Counts on from the last lo: to `commit` with the next one, or to `spent` if that one is
past the block, or to `first` with it if there is no hi. -/
def countOn (L : Layout) (spent : Routine ε) (first : Int64 → Routine ε)
    (commit : Int64 → Int64 → Routine ε) : Routine ε :=
  .readLo fun last =>
  if L.capacity ≤ last + 1 then spent
  else .readHi fun hi => if hi = reserved then first (last + 1) else commit hi (last + 1)

end Routine

/-! ## Undisturbed calls -/

/-- A call that was performed as a whole: how it ended, the cells and the source
afterwards, and every action in order. -/
structure Performed (σ ε : Type) where
  ending : Ending ε
  memory : Memory
  source : σ
  acts : List (Act ε)

def Performed.prepend {σ ε : Type} (a : Act ε) (p : Performed σ ε) : Performed σ ε :=
  { p with acts := a :: p.acts }

def Draw.acts {σ ε : Type} (d : Draw σ ε) : List (Act ε) :=
  List.replicate d.skipped (.asked (.value reserved))
    ++ (match d.reply with
        | some r => [.asked r]
        | none => [])

/-- Performs a call with nothing in between. -/
def Routine.run {σ ε : Type} (S : Source σ ε) (kind : LockKind) :
    Routine ε → Memory → σ → Performed σ ε
  | .finish e, m, s => ⟨e, m, s, []⟩
  | .note n rest, m, s => (rest.run S kind m s).prepend (.noted n)
  | .readHi rest, m, s => ((rest m.hi).run S kind m s).prepend (.sawHi m.hi)
  | .readLo rest, m, s => ((rest m.lo).run S kind m s).prepend (.sawLo m.lo)
  | .writeHi hi rest, m, s => (rest.run S kind { m with hi } s).prepend (.wroteHi hi)
  | .writeLo lo rest, m, s => (rest.run S kind { m with lo } s).prepend (.wroteLo lo)
  | .bumpLo rest, m, s =>
    ((rest (m.lo + 1)).run S kind { m with lo := m.lo + 1 } s).prepend (.bumpedLo (m.lo + 1))
  | .readVersion rest, m, s =>
    ((rest m.version).run S kind m s).prepend (.sawVersion m.version)
  | .bumpVersion rest, m, s =>
    (rest.run S kind { m with version := m.version + 1 } s).prepend
      (.bumpedVersion (m.version + 1))
  | .acquire rest, m, s =>
    if m.poisoned then ⟨.failed .poisoned, m, s, [.refused]⟩
    else (rest.run S kind m s).prepend .acquired
  | .release crashed rest, m, s =>
    (rest.run S kind (m.released kind crashed) s).prepend (.released crashed)
  | .draw rest, m, s =>
    let d := S.draw s
    match d.reply with
    | some r =>
      let p := (rest r).run S kind m d.state
      { p with acts := d.acts ++ p.acts }
    | none => ⟨.unsettled, m, d.state, d.acts⟩

end HiLo
