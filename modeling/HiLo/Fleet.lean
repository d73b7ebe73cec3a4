/-
HiLo.Fleet — generators that share one source.

The members of a fleet are called in any order; each call goes on from where
the last one, of whichever member, left the source. A member whose settings
were refused cannot be called.
-/
import HiLo.Facade

namespace HiLo

/-! ## Members -/

/-- A place in a fleet: nothing was made here, or a generator, of a fixed design
or behind a facade. -/
inductive Member where
  | refused (r : Refusal)
  | direct (g : Generator)
  | facade (f : Facade)
  deriving DecidableEq

namespace Member

def generator? : Member → Option Generator
  | .refused _ => none
  | .direct g => some g
  | .facade f => some f.engine

def withGenerator (m : Member) (g : Generator) : Member :=
  match m with
  | .refused r => .refused r
  | .direct _ => .direct g
  | .facade f => .facade { f with engine := g }

end Member

/-! ## Fleets -/

/-- Generators with the state of the source they share. -/
structure Fleet (σ : Type) where
  members : List Member
  source : σ

namespace Fleet

variable {σ ε : Type}

def generator? (F : Fleet σ) (i : Nat) : Option Generator :=
  F.members[i]?.bind Member.generator?

def settle (F : Fleet σ) (i : Nat) (g : Generator) (s : σ) : Fleet σ :=
  ⟨F.members.modify i (·.withGenerator g), s⟩

def call? (S : Source σ ε) (kind : LockKind) (F : Fleet σ) (i : Nat) :
    Option (Called σ ε × Fleet σ) :=
  (F.generator? i).map fun g =>
    let c := g.call S kind F.source
    (c, F.settle i c.generator c.source)

/-- Calls of the members named, in this order. Names of no member are passed
over. -/
def calls (S : Source σ ε) (kind : LockKind) (F : Fleet σ) :
    List Nat → List (Nat × Called σ ε) × Fleet σ
  | [] => ([], F)
  | i :: rest =>
    match F.call? S kind i with
    | none => F.calls S kind rest
    | some (c, F') =>
      let (cs, G) := F'.calls S kind rest
      ((i, c) :: cs, G)

end Fleet

end HiLo
