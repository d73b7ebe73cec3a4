/-
HiLo.Proofs.Discipline — what threads may do, and what they may rely on.

A thread at work knows something about the cells and the books. What it knows
has to survive whatever the others do until it moves again (`Meanwhile`): the
books grow, its own ticket stays, nobody else works under a lock that it holds,
and with versions no hi is published while the version stays even. In return
every action it performs has to keep the cells and the books together
(`Coherent`) and has to be one of those that the others rely on.

`Secure` reads a routine along its actions and says at each one that it is
allowed, given what the others may have done. Proofs about the routines of
a design then look at one thread only. `Safe.run` is why that is enough: where
the routine of a call is secure from the start, every interleaving keeps the
cells and the books together.
-/
import HiLo.Proofs.Check
import HiLo.Proofs.Ledger
import HiLo.Proofs.Words

namespace HiLo

variable {σ ε : Type}

/-! ## What threads share -/

/-- The cells that matter here, the holder of the lock, and the books. -/
structure Shared where
  hi : Int64
  lo : Int64
  version : UInt64
  holder : Option Nat
  ledger : Ledger

def Machine.shared (L : Layout) (M : Machine σ ε) : Shared :=
  ⟨M.memory.hi, M.memory.lo, M.memory.version, M.holder, .ofLog L M.log⟩

namespace Shared

def publish (V : Shared) (i : Nat) (hi : Int64) : Shared :=
  { V with hi, ledger := V.ledger.adopt i hi }

def restart (V : Shared) (L : Layout) (i : Nat) (lo : Int64) : Shared :=
  { V with lo, ledger := V.ledger.claim L i lo }

def bump (V : Shared) (L : Layout) (i : Nat) : Shared :=
  { V with
    lo := V.lo + 1
    ledger := { V.ledger.claim L i (V.lo + 1) with bumps := V.ledger.bumps + 1 } }

def turn (V : Shared) : Shared :=
  { V with
    version := V.version + 1
    ledger := { V.ledger with turns := V.ledger.turns + 1 } }

def answered (V : Shared) (r : Reply ε) : Shared :=
  { V with ledger := { V.ledger with usable := V.ledger.usable ++ r.usable?.toList } }

/-- Only usable values are answers for the books. -/
theorem answered_of_usable? (V : Shared) {r : Reply ε} (h : r.usable? = none) :
    V.answered r = V := by
  simp [answered, h]

theorem answered_of_reserved (V : Shared) {r : Reply ε} (h : r.isReserved = true) :
    V.answered r = V := by
  refine V.answered_of_usable? ?_
  cases r with
  | value hi => simpa [Reply.isReserved, Reply.usable?] using h
  | failure cause => rfl
  | crash text => rfl

/-- Nobody works: every hi that was drawn is adopted, and lo was not touched before
the first one. -/
structure Quiet (V : Shared) : Prop where
  settled : V.ledger.usable = V.ledger.adopted
  unstarted : V.ledger.adopted = [] → V.lo = -1

/-- Under a version, somebody works exactly while it is odd. -/
def Even (c : Check) (V : Shared) : Prop := c = .version → V.ledger.turns % 2 = 0

def Odd (c : Check) (V : Shared) : Prop := c = .version → V.ledger.turns % 2 = 1

end Shared

/-! ## The invariant -/

/-- An issued key comes after another one: it belongs to a later block, or to the
same block with a higher lo. -/
def Later (k k' : Nat × Int64) : Prop := k'.1 < k.1 ∨ k'.1 = k.1 ∧ k'.2 < k.2

/-- A call has returned the pair of its ticket: a lo inside the block, with the hi
of this block. -/
def Win.Right (L : Layout) (g : Ledger) (w : Win) : Prop :=
  ∃ b, w.ticket = some ⟨b, w.hi, w.lo⟩ ∧ g.adopted[b]? = some w.hi ∧ 0 ≤ w.lo ∧
    w.lo < L.capacity

/-- The cells and the books belong together. -/
structure Coherent (c : Check) (L : Layout) (V : Shared) : Prop where
  hi : V.hi = V.ledger.published
  version : V.version = .ofNat V.ledger.turns
  useful : ∀ hi ∈ V.ledger.adopted, hi ≠ reserved
  drawn : V.ledger.adopted <+: V.ledger.usable
  low : -1 ≤ V.lo.toInt
  high : V.lo.toInt + 1 ≤ V.ledger.bumps
  started : V.ledger.adopted ≠ [] → 0 ≤ V.lo
  inside : ∀ k ∈ V.ledger.issued, k.2 < L.capacity
  behind : ∀ k ∈ V.ledger.issued, k.1 < V.ledger.block ∨ k.1 = V.ledger.block ∧ k.2 ≤ V.lo
  rising : V.ledger.issued.Pairwise Later
  fair : V.ledger.Fair L
  right : ∀ w ∈ V.ledger.wins, w.Right L V.ledger
  free : V.holder = none → V.Quiet ∧ V.Even c

/-- What is taken for granted of a run: the counters have room, and where hi itself
is the check, no two usable answers of the source are equal. -/
structure Granted (c : Check) (g : Ledger) : Prop where
  bumps : g.bumps < 2 ^ 62
  turns : c = .version → g.turns < 2 ^ 62
  distinct : c = .reread → g.usable.Nodup

theorem Granted.of_grows {c : Check} {g g' : Ledger} (h : Granted c g') (hg : g.Grows g') :
    Granted c g where
  bumps := Nat.lt_of_le_of_lt hg.bumps h.bumps
  turns hc := Nat.lt_of_le_of_lt hg.turns (h.turns hc)
  distinct hc := (h.distinct hc).sublist hg.usable.sublist

/-! ## What others do meanwhile -/

/-- What others can do beside the holder of the lock: they count lo up, once there
is a hi. -/
structure Beside (V W : Shared) : Prop where
  holder : W.holder = V.holder
  adopted : W.ledger.adopted = V.ledger.adopted
  usable : W.ledger.usable = V.ledger.usable
  turns : W.ledger.turns = V.ledger.turns
  lo : V.lo ≤ W.lo
  unstarted : V.ledger.adopted = [] → W.lo = V.lo
  issued : ∀ k ∈ W.ledger.issued, k ∈ V.ledger.issued ∨ V.lo < k.2

/-- What may have happened before a thread moves again. -/
structure Meanwhile (c : Check) (i : Nat) (V W : Shared) : Prop where
  adopted : V.ledger.adopted <+: W.ledger.adopted
  turns : V.ledger.turns ≤ W.ledger.turns
  ticket : W.ledger.tickets i = V.ledger.tickets i
  stable : c = .version → W.ledger.turns = V.ledger.turns → V.ledger.turns % 2 = 0 →
    W.ledger.adopted = V.ledger.adopted
  beside : V.holder = some i → Beside V W

namespace Beside

variable {V W X : Shared}

theorem refl (V : Shared) : Beside V V :=
  ⟨rfl, rfl, rfl, rfl, Int64.le_refl _, fun _ => rfl, fun _ => .inl⟩

theorem trans (h : Beside V W) (h' : Beside W X) : Beside V X where
  holder := h'.holder.trans h.holder
  adopted := h'.adopted.trans h.adopted
  usable := h'.usable.trans h.usable
  turns := h'.turns.trans h.turns
  lo := Int64.le_trans h.lo h'.lo
  unstarted hnil := (h'.unstarted (h.adopted.trans hnil)).trans (h.unstarted hnil)
  issued k hk := by
    rcases h'.issued k hk with hk | hk
    · exact h.issued k hk
    · exact .inr (Int64.lt_of_le_of_lt h.lo hk)

theorem quiet (h : Beside V W) (hq : V.Quiet) : W.Quiet where
  settled := by rw [h.usable, h.adopted, hq.settled]
  unstarted hnil := by
    rw [h.adopted] at hnil
    rw [h.unstarted hnil, hq.unstarted hnil]

theorem odd {c : Check} (h : Beside V W) (ho : V.Odd c) : W.Odd c := fun hc => by
  rw [h.turns, ho hc]

end Beside

namespace Meanwhile

variable {c : Check} {i : Nat} {V W X : Shared}

theorem refl (c : Check) (i : Nat) (V : Shared) : Meanwhile c i V V :=
  ⟨List.prefix_rfl, Nat.le_refl _, rfl, fun _ _ _ => rfl, fun _ => .refl V⟩

theorem trans (h : Meanwhile c i V W) (h' : Meanwhile c i W X) : Meanwhile c i V X where
  adopted := h.adopted.trans h'.adopted
  turns := Nat.le_trans h.turns h'.turns
  ticket := h'.ticket.trans h.ticket
  stable hc hturns heven := by
    -- the turns in between are caught from both sides
    have hW : W.ledger.turns = V.ledger.turns :=
      Nat.le_antisymm (hturns ▸ h'.turns) h.turns
    rw [h'.stable hc (hturns.trans hW.symm) (hW ▸ heven), h.stable hc hW heven]
  beside hholder := by
    have hV := h.beside hholder
    exact hV.trans (h'.beside (hV.holder.trans hholder))

end Meanwhile

/-- A thread may be where it moves again. -/
structure Resumes (c : Check) (L : Layout) (i : Nat) (V W : Shared) : Prop where
  meanwhile : Meanwhile c i V W
  coherent : Coherent c L W
  granted : Granted c W.ledger

/-! ## The discipline -/

/-- A thread works under the lock. -/
structure Working (c : Check) (i : Nat) (V : Shared) : Prop where
  holder : V.holder = some i
  odd : V.Odd c

/-- A thread works under the lock and has drawn a hi that is not adopted yet. -/
structure Pending (c : Check) (i : Nat) (hi : Int64) (V : Shared) : Prop
    extends Working c i V where
  useful : hi ≠ reserved
  drawn : V.ledger.usable = V.ledger.adopted ++ [hi]

/-- A thread may set hi to the value it has just drawn, once lo was claimed. -/
structure MayPublish (c : Check) (i : Nat) (hi : Int64) (V : Shared) : Prop
    extends Pending c i hi V where
  started : 0 ≤ V.lo

/-- A thread may start lo over, once, after it has set hi. -/
structure MayRestart (i : Nat) (lo : Int64) (V : Shared) : Prop where
  holder : V.holder = some i
  zero : lo = 0
  adopted : V.ledger.adopted ≠ []
  spent : ∀ k ∈ V.ledger.issued, k.1 < V.ledger.block

/-- A routine keeps to what others rely on, and ends only with the pair of its
ticket. -/
def Secure (c : Check) (L : Layout) (i : Nat) : Routine ε → Shared → Prop
  | .finish e, V => ∀ W, Resumes c L i V W → ∀ hi lo, e = .claimed hi lo →
      Win.Right L W.ledger ⟨W.ledger.tickets i, hi, lo⟩
  | .note _ rest, V => Secure c L i rest V
  | .readHi rest, V => ∀ W, Resumes c L i V W → Secure c L i (rest W.hi) W
  | .readLo rest, V => ∀ W, Resumes c L i V W → Secure c L i (rest W.lo) W
  | .writeHi hi rest, V => ∀ W, Resumes c L i V W →
      MayPublish c i hi W ∧ Secure c L i rest (W.publish i hi)
  | .writeLo lo rest, V => ∀ W, Resumes c L i V W →
      MayRestart i lo W ∧ Secure c L i rest (W.restart L i lo)
  | .bumpLo rest, V => ∀ W, Resumes c L i V W →
      (W.ledger.adopted ≠ [] ∨ W.holder = some i) ∧ Secure c L i (rest (W.lo + 1)) (W.bump L i)
  | .readVersion rest, V => ∀ W, Resumes c L i V W → Secure c L i (rest W.version) W
  | .bumpVersion rest, V => ∀ W, Resumes c L i V W →
      W.holder = some i ∧ Secure c L i rest W.turn
  | .acquire rest, V => ∀ W, Resumes c L i V W → W.holder = none →
      Secure c L i rest { W with holder := some i }
  | .release _ rest, V => ∀ W, Resumes c L i V W →
      W.holder = some i ∧ W.Quiet ∧ W.Even c ∧ Secure c L i rest { W with holder := none }
  | .draw rest, V => ∀ W, Resumes c L i V W → ∀ r : Reply ε, r.isReserved = false →
      W.holder = some i ∧ Secure c L i (rest r) (W.answered r)

theorem Resumes.of_meanwhile {c : Check} {L : Layout} {i : Nat} {V W X : Shared}
    (h : Meanwhile c i V W) (h' : Resumes c L i W X) : Resumes c L i V X :=
  { h' with meanwhile := h.trans h'.meanwhile }

/-- What is secure stays secure whatever the others do. -/
theorem Secure.meanwhile {c : Check} {L : Layout} {i : Nat} {V W : Shared}
    (hm : Meanwhile c i V W) : ∀ {r : Routine ε}, Secure c L i r V → Secure c L i r W
  | .finish _, h => fun X hX => h X (.of_meanwhile hm hX)
  | .note _ rest, h => meanwhile (r := rest) hm h
  | .readHi _, h => fun X hX => h X (.of_meanwhile hm hX)
  | .readLo _, h => fun X hX => h X (.of_meanwhile hm hX)
  | .writeHi _ _, h => fun X hX => h X (.of_meanwhile hm hX)
  | .writeLo _ _, h => fun X hX => h X (.of_meanwhile hm hX)
  | .bumpLo _, h => fun X hX => h X (.of_meanwhile hm hX)
  | .readVersion _, h => fun X hX => h X (.of_meanwhile hm hX)
  | .bumpVersion _, h => fun X hX => h X (.of_meanwhile hm hX)
  | .acquire _, h => fun X hX => h X (.of_meanwhile hm hX)
  | .release _ _, h => fun X hX => h X (.of_meanwhile hm hX)
  | .draw _, h => fun X hX => h X (.of_meanwhile hm hX)

end HiLo
