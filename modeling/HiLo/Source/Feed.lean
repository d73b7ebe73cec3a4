/-
HiLo.Source.Feed — one source of many kinds.

A feed supplies values from a progression, from a plain arithmetic sequence
that does not skip the reserved value, or from a script of prepared answers.
It counts its requests, can be taken down and brought back, and may have no
failures at all: what would be a failure is then a crash that shows the cause.
-/
import HiLo.Source.Cause
import HiLo.Source.Progression

namespace HiLo

/-! ## Scripts -/

/-- Prepared answers, those of them that are still to be given, and whether the
script starts over after its last one. -/
structure Script where
  answers : List (Reply Cause)
  pending : List (Reply Cause)
  loops : Bool

namespace Script

def ofList (answers : List (Reply Cause)) (loops : Bool) : Script :=
  ⟨answers, answers, loops⟩

/-- The failure of a script that has come to its end. -/
def exhausted : Reply Cause := .failure (.text "exhausted")

def next (t : Script) : Reply Cause × Script :=
  match t.pending with
  | r :: rest => (r, { t with pending := rest })
  | [] =>
    match t.loops, t.answers with
    | true, r :: rest => (r, { t with pending := rest })
    | _, _ => (exhausted, t)

def push (t : Script) (more : List (Reply Cause)) : Script :=
  { t with answers := t.answers ++ more, pending := t.pending ++ more }

end Script

/-! ## Feeds -/

/-- Where the answers of a feed come from: a progression, which skips the
reserved value, an arithmetic sequence, which does not, or a script. -/
inductive Supply where
  | progression (p : Progression)
  | arithmetic (upcoming step : Int64)
  | script (t : Script)

namespace Supply

def next : Supply → Reply Cause × Supply
  | .progression p => (.value p.next.1, .progression p.next.2)
  | .arithmetic upcoming step => (.value upcoming, .arithmetic (upcoming + step) step)
  | .script t => (t.next.1, .script t.next.2)

/-- How many answers to look at: a progression needs one, an arithmetic
sequence two, and a script at most a whole round beyond what is pending. -/
def patience : Supply → Nat
  | .progression _ => 1
  | .arithmetic _ _ => 2
  | .script t => t.pending.length + t.answers.length + 1

end Supply

/-- A supply with its switches and its counter: the failure of every request
while the feed is down, whether failures are crashes, and how many requests
there were. -/
structure Feed where
  supply : Supply
  down : Option Cause
  infallible : Bool
  requests : Nat

namespace Feed

/-- A feed that is up and was never asked. -/
def ofSupply (supply : Supply) (infallible : Bool) : Feed := ⟨supply, none, infallible, 0⟩

/-- The answer that reaches the generator. -/
def deliver (infallible : Bool) : Reply Cause → Reply Cause
  | .failure c => if infallible then .crash c.outline.line else .failure c
  | r => r

/-- The answer to a request. While the feed is down, its supply stays as it
is. -/
def next (f : Feed) : Reply Cause × Feed :=
  match f.down with
  | some c => (deliver f.infallible (.failure c), { f with requests := f.requests + 1 })
  | none =>
    let (r, supply) := f.supply.next
    (deliver f.infallible r, { f with supply, requests := f.requests + 1 })

def patience (f : Feed) : Nat :=
  match f.down with
  | some _ => 1
  | none => f.supply.patience

def source : Source Feed Cause := ⟨next, patience⟩

/-- Takes the feed down with a cause, or brings it back. -/
def setDown (f : Feed) (down : Option Cause) : Feed := { f with down }

/-- Appends answers to a script; other supplies stay as they are. -/
def push (f : Feed) (more : List (Reply Cause)) : Feed :=
  match f.supply with
  | .script t => { f with supply := .script (t.push more) }
  | .progression _ | .arithmetic _ _ => f

end Feed

end HiLo
