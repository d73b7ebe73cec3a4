/-
HiLo.Session — work with a fleet, request by request.

A session holds a fleet on one feed. Requests ask a member for identifiers in
a row, from many threads or in two overlapping calls, switch the feed, or ask
what a member is. Every answer comes with what was reported meanwhile.
-/
import HiLo.Fleet
import HiLo.Machine
import HiLo.Source.Feed
import HiLo.Tally

namespace HiLo

/-! ## Requests and answers -/

/-- What can be asked of a member: identifiers, one call after another, as they
are or summed up; identifiers for several threads with a number of calls each,
as they are or surveyed against a floor; two calls that overlap; or what it
is. -/
inductive Demand where
  | identifiers (count : Nat)
  | total (count : Nat)
  | threads (threads each : Nat)
  | survey (threads each : Nat) (floor : Int64)
  | overlap
  | describe

def Demand.isShared : Demand → Bool
  | .threads _ _ | .survey _ _ _ | .overlap => true
  | .identifiers _ | .total _ | .describe => false

/-- What can be asked of a session: to ask a member, to take the feed down or
bring it back, or to append answers to its script. -/
inductive Request where
  | ask (member : Nat) (d : Demand)
  | down (cause : Option Cause)
  | push (answers : List (Reply Cause))

/-- What a session answers. A total has the number of identifiers, their sum,
and the first and the last outcome; a survey tells the number of identifiers and
of different ones, whether all reach the floor, and whether those of each thread
rise. -/
inductive Response where
  | outcomes (os : List (Outcome Cause))
  | total (count : Nat) (sum : Int64) (first last : Option (Outcome Cause))
  | gathered (ids : List Int64) (losses : Tally.Losses)
  | surveyed (count distinct : Nat) (atLeastFloor rising : Bool)
  | both (first second : Outcome Cause)
  | done
  | described (m : Member)
  | noMember
  | notShared
  deriving Inhabited

/-- A fleet at work, and what a crash does to the lock of a member. -/
structure Session where
  kind : LockKind
  fleet : Fleet Feed

namespace Session

def notesOf (acts : List (Act Cause)) : List Note := acts.filterMap Act.note?

/-- Calls of one member in a row, with what they reported. -/
def callInRow (W : Session) (i n : Nat) : List (Outcome Cause) × List Note × Session :=
  let (cs, F) := W.fleet.calls Feed.source W.kind (List.replicate n i)
  (cs.map (·.2.outcome), notesOf (cs.flatMap (·.2.acts)), { W with fleet := F })

def pieces {α : Type} (length : Nat) : Nat → List α → List (List α)
  | 0, _ => []
  | n + 1, xs => xs.take length :: pieces length n (xs.drop length)

/-- How many moves a call may make at a stretch, besides those of its draw. Only
a call that spins needs more than a dozen. -/
def stretch : Nat := 4096

/-- Two overlapping calls of a generator, with the generator and the feed
afterwards. What the first call reported comes before what the second did. -/
def overlapped (W : Session) (g : Generator) :
    Outcome Cause × Outcome Cause × List Note × Generator × Feed :=
  let feed := W.fleet.source
  let A := g.arena Feed.source W.kind
  let M := A.overlap (stretch + feed.patience) g.memory feed
  let outcome (i : Nat) : Outcome Cause :=
    ((M.endings i).head?.getD .unsettled).outcome g.layout
  (outcome 0, outcome 1, notesOf (M.acts 0 ++ M.acts 1), { g with memory := M.memory },
    M.source)

def meet (W : Session) (i : Nat) (g : Generator) : Demand → Response × List Note × Session
  | .identifiers n =>
    let (os, notes, W') := W.callInRow i n
    (.outcomes os, notes, W')
  | .total n =>
    let (os, notes, W') := W.callInRow i n
    let ids := Tally.ids os
    (.total ids.length (Tally.sum ids) os.head? os.getLast?, notes, W')
  | .threads threads each =>
    let (os, notes, W') := W.callInRow i (threads * each)
    (.gathered (Tally.sorted (Tally.ids os)) (Tally.losses os), notes, W')
  | .survey threads each floor =>
    let (os, notes, W') := W.callInRow i (threads * each)
    let ids := Tally.ids os
    let rising := (pieces each threads os).all fun p => Tally.rising (Tally.ids p)
    (.surveyed ids.length (Tally.distinct ids) (Tally.atLeast floor ids) rising, notes, W')
  | .overlap =>
    let (first, second, notes, g', feed) := W.overlapped g
    (.both first second, notes, { W with fleet := W.fleet.settle i g' feed })
  | .describe => (.described (W.fleet.members[i]?.getD (.direct g)), [], W)

def withFeed (W : Session) (feed : Feed) : Session :=
  { W with fleet := { W.fleet with source := feed } }

/-- Carries out a request: the answer, what was reported and the session
afterwards. -/
def serve (W : Session) : Request → Response × List Note × Session
  | .ask i d =>
    match W.fleet.generator? i with
    | none => (.noMember, [], W)
    | some g =>
      if d.isShared && !g.design.isShared then (.notShared, [], W) else W.meet i g d
  | .down cause => (.done, [], W.withFeed (W.fleet.source.setDown cause))
  | .push answers => (.done, [], W.withFeed (W.fleet.source.push answers))

end Session

end HiLo
