/-
HiLo.Machine — calls that overlap.

Several threads call one generator. A machine holds the cells, the holder of
the lock, the source and, for each thread, the rest of its call. A move lets
one thread perform its next action; an idle thread begins a call. Nothing else
happens in between, so the interleavings of the threads are the lists of
thread numbers in the order in which they move.

A thread that wants a held lock cannot move. A draw asks the source once per
move and is over with the first answer that is not the reserved value.

The log keeps what happened, latest first.
-/
import HiLo.Generator

namespace HiLo

/-! ## Machines -/

/-- What the log keeps of a thread: that a call has begun, an action, or the end
of a call. -/
inductive Event (ε : Type) where
  | began
  | did (a : Act ε)
  | ended (e : Ending ε)
  deriving DecidableEq

/-- Threads that call one generator: its cells, the thread that holds the lock,
the state of the source, the rest of each thread's call (an idle thread has
none), and what happened, latest first, with the thread it happened to. -/
structure Machine (σ ε : Type) where
  memory : Memory
  holder : Option Nat
  source : σ
  threads : List (Option (Routine ε))
  log : List (Nat × Event ε)

/-- What does not change while a machine runs: how the source answers, what a
crash does to the lock, and the calls that are made. -/
structure Arena (σ ε : Type) where
  source : Source σ ε
  kind : LockKind
  call : Routine ε

namespace Machine

variable {σ ε : Type}

def idle (threads : Nat) (m : Memory) (s : σ) : Machine σ ε :=
  ⟨m, none, s, List.replicate threads none, []⟩

/-- A thread has performed an action and goes on with the rest of its call. -/
def proceed (M : Machine σ ε) (i : Nat) (a : Act ε) (rest : Routine ε) : Machine σ ε :=
  { M with threads := M.threads.set i (some rest), log := (i, .did a) :: M.log }

def acts (M : Machine σ ε) (i : Nat) : List (Act ε) :=
  M.log.reverse.filterMap fun
    | (j, .did a) => if j = i then some a else none
    | _ => none

/-- How the calls of a thread ended, latest first. -/
def endings (M : Machine σ ε) (i : Nat) : List (Ending ε) :=
  M.log.filterMap fun
    | (j, .ended e) => if j = i then some e else none
    | _ => none

end Machine

namespace Arena

variable {σ ε : Type}

/-! ## Moves -/

def act (A : Arena σ ε) (M : Machine σ ε) (i : Nat) : Routine ε → Option (Machine σ ε)
  | .finish e =>
    some { M with threads := M.threads.set i none, log := (i, .ended e) :: M.log }
  | .note n rest => some (M.proceed i (.noted n) rest)
  | .readHi rest => some (M.proceed i (.sawHi M.memory.hi) (rest M.memory.hi))
  | .readLo rest => some (M.proceed i (.sawLo M.memory.lo) (rest M.memory.lo))
  | .writeHi hi rest =>
    some ({ M with memory := { M.memory with hi } }.proceed i (.wroteHi hi) rest)
  | .writeLo lo rest =>
    some ({ M with memory := { M.memory with lo } }.proceed i (.wroteLo lo) rest)
  | .bumpLo rest =>
    let lo := M.memory.lo + 1
    some ({ M with memory := { M.memory with lo } }.proceed i (.bumpedLo lo) (rest lo))
  | .readVersion rest =>
    some (M.proceed i (.sawVersion M.memory.version) (rest M.memory.version))
  | .bumpVersion rest =>
    let version := M.memory.version + 1
    some ({ M with memory := { M.memory with version } }.proceed i
      (.bumpedVersion version) rest)
  | .acquire rest =>
    match M.holder with
    | some _ => none
    | none =>
      if M.memory.poisoned then
        some (M.proceed i .refused (.finish (.failed .poisoned)))
      else some ({ M with holder := some i }.proceed i .acquired rest)
  | .release crashed rest =>
    some ({ M with
        memory := M.memory.released A.kind crashed
        holder := none }.proceed i (.released crashed) rest)
  | .draw rest =>
    let (r, source) := A.source.next M.source
    let M' := { M with source }
    some (M'.proceed i (.asked r) (if r.isReserved then .draw rest else rest r))

/-- One move of a thread: an idle one begins a call, a busy one acts. -/
def move (A : Arena σ ε) (M : Machine σ ε) (i : Nat) : Option (Machine σ ε) :=
  match M.threads[i]? with
  | none => none
  | some none =>
    some { M with threads := M.threads.set i (some A.call), log := (i, .began) :: M.log }
  | some (some rest) => A.act M i rest

/-- The machine after the moves of an interleaving, if all of them are
possible. -/
def run (A : Arena σ ε) (M : Machine σ ε) : List Nat → Option (Machine σ ε)
  | [] => some M
  | i :: rest => (A.move M i).bind fun M' => A.run M' rest

/-! ## Schedules -/

/-- Lets a busy thread move until its call is over, it cannot move, or the
rest of its call is as wanted; at most `n` times. -/
def driveUntil (A : Arena σ ε) (wanted : Routine ε → Bool) (i : Nat) :
    Nat → Machine σ ε → Machine σ ε
  | 0, M => M
  | n + 1, M =>
    match M.threads[i]? with
    | some (some rest) =>
      if wanted rest then M
      else
        match A.act M i rest with
        | some M' => A.driveUntil wanted i n M'
        | none => M
    | _ => M

def drive (A : Arena σ ε) (i n : Nat) (M : Machine σ ε) : Machine σ ε :=
  A.driveUntil (fun _ => false) i n M

def begin (A : Arena σ ε) (i : Nat) (M : Machine σ ε) : Machine σ ε :=
  (A.move M i).getD M

def aboutToDraw : Routine ε → Bool
  | .draw _ => true
  | _ => false

/-- Two calls that overlap: the second one begins when the first is about to
draw, and gets as far as it can before the first goes on. Neither gets more
than `n` moves at a stretch; a call that still spins then goes on in its next
one. -/
def overlap (A : Arena σ ε) (n : Nat) (m : Memory) (s : σ) : Machine σ ε :=
  (Machine.idle 2 m s : Machine σ ε)
    |> A.begin 0 |> A.driveUntil aboutToDraw 0 n
    |> A.begin 1 |> A.drive 1 n
    |> A.drive 0 n |> A.drive 1 n

end Arena

def Generator.arena {σ ε : Type} (S : Source σ ε) (kind : LockKind) (g : Generator) :
    Arena σ ε :=
  ⟨S, kind, g.design.routine g.layout⟩

end HiLo
