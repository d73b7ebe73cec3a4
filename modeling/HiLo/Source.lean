/-
HiLo.Source — where hi values come from.

A source is a state machine: each request is answered by a hi value, by a
failure or by a crash, and leaves a new state. A value may be the reserved one,
which is of no use to a generator, so a generator draws: it asks again until
the answer is anything else.

`next` alone says what a source does. `patience` bounds how many answers one draw may
look at; a draw that finds only reserved values within the bound stays unsettled.
-/
import HiLo.Refusal

namespace HiLo

/-- The answer to one request for a hi value: a value, possibly the reserved
one; a failure with its cause in `ε`; or the source broke down while serving the
request. -/
inductive Reply (ε : Type) where
  | value (hi : Int64)
  | failure (cause : ε)
  | crash (text : String)
  deriving DecidableEq

def Reply.isReserved {ε : Type} : Reply ε → Bool
  | .value hi => hi == reserved
  | .failure _ | .crash _ => false

/-- A source of hi values with states in `σ`: the answer to a request with the
state after it, and how many answers a draw from a state may look at. -/
structure Source (σ ε : Type) where
  next : σ → Reply ε × σ
  patience : σ → Nat

/-! ## Drawing a usable answer -/

/-- The result of a draw: the first answer that is not the reserved value, if
one was found, how many reserved values came before it, and the state after the
last request. -/
structure Draw (σ ε : Type) where
  reply : Option (Reply ε)
  skipped : Nat
  state : σ

namespace Source

variable {σ ε : Type}

/-- Asks until the answer is not the reserved value, at most `n` times. -/
def drawWithin (S : Source σ ε) : Nat → σ → Draw σ ε
  | 0, s => ⟨none, 0, s⟩
  | n + 1, s =>
    let (r, s') := S.next s
    if r.isReserved then
      let d := S.drawWithin n s'
      { d with skipped := d.skipped + 1 }
    else ⟨some r, 0, s'⟩

def draw (S : Source σ ε) (s : σ) : Draw σ ε := S.drawWithin (S.patience s) s

/-! ## The answers to come -/

def after (S : Source σ ε) : Nat → σ → σ
  | 0, s => s
  | n + 1, s => S.after n (S.next s).2

/-- The answer to the request number `n`, counted from zero. -/
def reply (S : Source σ ε) (n : Nat) (s : σ) : Reply ε := (S.next (S.after n s)).1

end Source

end HiLo
