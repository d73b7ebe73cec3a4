/-
HiLo.Proofs.Ledger — the books of overlapping calls.

A ledger is kept beside a machine and read off its log: which hi values were
adopted and which the source answered, how often lo and the version were counted
up, what each thread claimed last, and which pairs calls ended with. The machine
never looks at it.

A claim of a lo gives the thread a ticket: the number of the block that was
current then, the hi that was published then, and the lo. The numbers of the
block and the lo, where the lo is inside the block, are what is issued. A call
that ends with a pair redeems its ticket, and `Fair` says that no issued number
is redeemed twice; it holds as long as none is issued twice.
-/
import HiLo.Machine
import HiLo.Proofs.Draws
import Mathlib.Logic.Function.Basic

namespace HiLo

variable {ε : Type}

/-! ## Tickets -/

/-- A lo that a thread has claimed, with the number of the block that was current
then, counted from zero, and the hi that was published then. For a lo that was
claimed before there was any hi, it is the hi that its thread publishes right
after. -/
structure Ticket where
  block : Nat
  hi : Int64
  lo : Int64

def Ticket.key (t : Ticket) : Nat × Int64 := (t.block, t.lo)

/-- The ticket after its thread has published a hi. -/
def Ticket.publish (t : Ticket) (hi : Int64) : Ticket :=
  if t.hi = reserved then { t with hi } else t

/-- A call that ended with a pair, and the ticket that its thread had then. -/
structure Win where
  ticket : Option Ticket
  hi : Int64
  lo : Int64

def Win.pair (w : Win) : Int64 × Int64 := (w.hi, w.lo)

def Win.key (w : Win) : Option (Nat × Int64) := w.ticket.map Ticket.key

def Machine.pairs {σ : Type} (M : Machine σ ε) : List (Int64 × Int64) :=
  M.log.filterMap fun
    | (_, .ended (.claimed hi lo)) => some (hi, lo)
    | _ => none

/-! ## Ledgers -/

/-- The books of a machine: the hi values that were adopted and the usable ones that
the source answered, in order; how often lo and the version were counted up; what
each thread has claimed last in its call; the keys of all tickets with a lo inside
the block, and the calls that ended with a pair, both latest first. -/
structure Ledger where
  adopted : List Int64
  usable : List Int64
  bumps : Nat
  turns : Nat
  tickets : Nat → Option Ticket
  issued : List (Nat × Int64)
  wins : List Win

namespace Ledger

def blank : Ledger := ⟨[], [], 0, 0, fun _ => none, [], []⟩

/-- The hi of the current block, or the reserved value while there is none. -/
def published (g : Ledger) : Int64 := g.adopted.getLast?.getD reserved

/-- No hi is published exactly until one is adopted. -/
theorem published_eq_reserved_iff {g : Ledger} (useful : ∀ hi ∈ g.adopted, hi ≠ reserved) :
    g.published = reserved ↔ g.adopted = [] := by
  unfold published
  cases hlast : g.adopted.getLast? with
  | none => simpa using hlast
  | some hi =>
    have hmem : hi ∈ g.adopted := List.mem_of_getLast? hlast
    refine iff_of_false (useful hi hmem) fun hnil => ?_
    rw [hnil] at hmem
    cases hmem

/-- The number of the current block. The first one counts as current before its
hi is adopted. -/
def block (g : Ledger) : Nat := g.adopted.length - 1

def adopt (g : Ledger) (i : Nat) (hi : Int64) : Ledger :=
  { g with
    adopted := g.adopted ++ [hi]
    tickets := Function.update g.tickets i ((g.tickets i).map (·.publish hi)) }

theorem adopted_adopt_ne_nil (g : Ledger) (i : Nat) (hi : Int64) : (g.adopt i hi).adopted ≠ [] := by
  simp [adopt]

def claim (g : Ledger) (L : Layout) (i : Nat) (lo : Int64) : Ledger :=
  { g with
    tickets := Function.update g.tickets i (some ⟨g.block, g.published, lo⟩)
    issued := if lo < L.capacity then (g.block, lo) :: g.issued else g.issued }

def redeem (g : Ledger) (i : Nat) (hi lo : Int64) : Ledger :=
  { g with
    tickets := Function.update g.tickets i none
    wins := ⟨g.tickets i, hi, lo⟩ :: g.wins }

def forget (g : Ledger) (i : Nat) : Ledger :=
  { g with tickets := Function.update g.tickets i none }

def book (L : Layout) (i : Nat) (g : Ledger) : Event ε → Ledger
  | .began => g.forget i
  | .did (.wroteHi hi) => g.adopt i hi
  | .did (.wroteLo lo) => g.claim L i lo
  | .did (.bumpedLo lo) => { g.claim L i lo with bumps := g.bumps + 1 }
  | .did (.bumpedVersion _) => { g with turns := g.turns + 1 }
  | .did (.asked r) => { g with usable := g.usable ++ r.usable?.toList }
  | .did _ => g
  | .ended (.claimed hi lo) => g.redeem i hi lo
  | .ended _ => g.forget i

def ofLog (L : Layout) : List (Nat × Event ε) → Ledger
  | [] => blank
  | (i, e) :: log => (ofLog L log).book L i e

/-- The wins are the calls that returned a pair. -/
theorem pairs_ofLog {σ : Type} (L : Layout) (M : Machine σ ε) :
    (ofLog L M.log).wins.map Win.pair = M.pairs := by
  unfold Machine.pairs
  induction M.log with
  | nil => rfl
  | cons entry log ih =>
    obtain ⟨i, e⟩ := entry
    cases e with
    | began => exact ih
    | did a => cases a <;> exact ih
    | ended e =>
      cases e with
      | claimed hi lo => exact congrArg ((hi, lo) :: ·) ih
      | _ => exact ih

/-! ## Books only grow -/

/-- What is in the books stays in the books. -/
structure Grows (g g' : Ledger) : Prop where
  adopted : g.adopted <+: g'.adopted
  usable : g.usable <+: g'.usable
  bumps : g.bumps ≤ g'.bumps
  turns : g.turns ≤ g'.turns

theorem Grows.refl (g : Ledger) : Grows g g :=
  ⟨List.prefix_rfl, List.prefix_rfl, Nat.le_refl _, Nat.le_refl _⟩

theorem Grows.trans {g g' g'' : Ledger} (h : Grows g g') (h' : Grows g' g'') : Grows g g'' :=
  ⟨h.adopted.trans h'.adopted, h.usable.trans h'.usable, Nat.le_trans h.bumps h'.bumps,
    Nat.le_trans h.turns h'.turns⟩

theorem grows_book (L : Layout) (i : Nat) (g : Ledger) (e : Event ε) : Grows g (g.book L i e) := by
  have hrefl := Grows.refl g
  unfold book
  split
  · exact { hrefl with }
  · exact { hrefl with adopted := List.prefix_append _ _ }
  · exact { hrefl with }
  · exact { hrefl with bumps := Nat.le_succ _ }
  · exact { hrefl with turns := Nat.le_succ _ }
  · exact { hrefl with usable := List.prefix_append _ _ }
  · exact hrefl
  · exact { hrefl with }
  · exact { hrefl with }

/-- Only the source adds usable values. -/
theorem usable_book {L : Layout} {i : Nat} {g : Ledger} {e : Event ε}
    (h : ∀ r, e ≠ .did (.asked r)) : (g.book L i e).usable = g.usable := by
  unfold book
  split <;> first | rfl | exact absurd rfl (h _)

/-! ## Tickets are redeemed once -/

/-- No issued key is redeemed twice. -/
structure Fair (L : Layout) (g : Ledger) : Prop where
  /-- A ticket that is still held was issued and was not redeemed. -/
  held {i : Nat} {t : Ticket} (ticket : g.tickets i = some t) (inside : t.lo < L.capacity) :
    t.key ∈ g.issued ∧ some t.key ∉ g.wins.map Win.key
  /-- Two threads hold different tickets. -/
  apart {i j : Nat} {t u : Ticket} (ne : i ≠ j) (ticket : g.tickets i = some t)
    (other : g.tickets j = some u) (inside : t.lo < L.capacity) : t.key ≠ u.key
  /-- Only what was issued was redeemed. -/
  known {k : Option (Nat × Int64)} (redeemed : k ∈ g.wins.map Win.key) :
    ∃ x ∈ g.issued, k = some x
  /-- No key was redeemed twice. -/
  once : (g.wins.map Win.key).Nodup

namespace Fair

variable {L : Layout} {g : Ledger} {i : Nat}

theorem blank (L : Layout) : Fair L blank where
  held := nofun
  apart := nofun
  known := nofun
  once := .nil

/-- The books are as fair with fewer tickets, and with other hi values on
them. -/
theorem of_tickets {g' : Ledger} (h : Fair L g) (issued : g'.issued = g.issued)
    (wins : g'.wins = g.wins)
    (tickets : ∀ j u, g'.tickets j = some u → ∃ t, g.tickets j = some t ∧ t.block = u.block ∧
      t.lo = u.lo) : Fair L g' where
  held {j u} hu hin := by
    obtain ⟨t, ht, hblock, hlo⟩ := tickets j u hu
    rw [issued, wins, show u.key = t.key by rw [Ticket.key, Ticket.key, hblock, hlo]]
    exact h.held ht (hlo ▸ hin)
  apart {j j' u u'} ne hu hu' hin := by
    obtain ⟨t, ht, hblock, hlo⟩ := tickets j u hu
    obtain ⟨t', ht', hblock', hlo'⟩ := tickets j' u' hu'
    have := h.apart ne ht ht' (hlo ▸ hin)
    rwa [Ticket.key, Ticket.key, hblock, hlo, hblock', hlo'] at this
  known := by
    rw [issued, wins]
    exact h.known
  once := by
    rw [wins]
    exact h.once

theorem forget (h : Fair L g) (i : Nat) : Fair L (g.forget i) := by
  refine h.of_tickets rfl rfl fun j u hu => ?_
  by_cases hj : j = i
  · subst hj
    simp [Ledger.forget] at hu
  · exact ⟨u, by simpa [Ledger.forget, Function.update_of_ne hj] using hu, rfl, rfl⟩

theorem adopt (h : Fair L g) (i : Nat) (hi : Int64) : Fair L (g.adopt i hi) := by
  refine h.of_tickets rfl rfl fun j u hu => ?_
  by_cases hj : j = i
  · subst hj
    simp only [Ledger.adopt, Function.update_self, Option.map_eq_some_iff] at hu
    obtain ⟨t, ht, rfl⟩ := hu
    refine ⟨t, ht, ?_⟩
    unfold Ticket.publish
    split
    · exact ⟨rfl, rfl⟩
    · exact ⟨rfl, rfl⟩
  · exact ⟨u, by simpa [Ledger.adopt, Function.update_of_ne hj] using hu, rfl, rfl⟩

/-- A claim is fair if its key is new, or its lo outside the block. -/
theorem claim (h : Fair L g) (i : Nat) {lo : Int64}
    (new : lo < L.capacity → (g.block, lo) ∉ g.issued) : Fair L (g.claim L i lo) := by
  have hsub : ∀ {x}, x ∈ g.issued → x ∈ (g.claim L i lo).issued := by
    intro x hx
    simp only [Ledger.claim]
    split
    · exact List.mem_cons_of_mem _ hx
    · exact hx
  have hself : (g.claim L i lo).tickets i = some ⟨g.block, g.published, lo⟩ := by
    simp [Ledger.claim]
  have hother : ∀ {j}, j ≠ i → (g.claim L i lo).tickets j = g.tickets j := fun hj => by
    simp [Ledger.claim, Function.update_of_ne hj]
  refine ⟨?_, ?_, ?_, h.once⟩
  · intro j u hu hin
    by_cases hj : j = i
    · subst hj
      obtain rfl := Option.some.inj (hself.symm.trans hu)
      refine ⟨by simp [Ledger.claim, Ticket.key, show lo < L.capacity from hin], fun hmem => ?_⟩
      obtain ⟨x, hx, hkey⟩ := h.known hmem
      have hkey' : (g.block, lo) = x := Option.some.inj hkey
      exact new hin (hkey' ▸ hx)
    · rw [hother hj] at hu
      exact ⟨hsub (h.held hu hin).1, (h.held hu hin).2⟩
  · intro j j' u u' ne hu hu' hin hkey
    by_cases hj : j = i
    · subst hj
      obtain rfl := Option.some.inj (hself.symm.trans hu)
      rw [hother ne.symm] at hu'
      have hkey' : (g.block, lo) = u'.key := hkey
      have hlo : lo = u'.lo := congrArg Prod.snd hkey'
      exact new hin (hkey' ▸ (h.held hu' (hlo ▸ hin)).1)
    · rw [hother hj] at hu
      by_cases hj' : j' = i
      · subst hj'
        obtain rfl := Option.some.inj (hself.symm.trans hu')
        have hkey' : u.key = (g.block, lo) := hkey
        have hlo : u.lo = lo := congrArg Prod.snd hkey'
        exact new (hlo ▸ hin) (hkey' ▸ (h.held hu hin).1)
      · rw [hother hj'] at hu'
        exact h.apart ne hu hu' hin hkey
  · intro k hk
    obtain ⟨x, hx, rfl⟩ := h.known hk
    exact ⟨x, hsub hx, rfl⟩

/-- A ticket may be redeemed once. -/
theorem redeem (h : Fair L g) {t : Ticket} (ticket : g.tickets i = some t)
    (inside : t.lo < L.capacity) (hi lo : Int64) : Fair L (g.redeem i hi lo) := by
  have hother : ∀ {j u}, (g.redeem i hi lo).tickets j = some u → j ≠ i ∧ g.tickets j = some u := by
    intro j u hu
    by_cases hj : j = i
    · subst hj
      simp [Ledger.redeem] at hu
    · exact ⟨hj, by simpa [Ledger.redeem, Function.update_of_ne hj] using hu⟩
  have hwins : (g.redeem i hi lo).wins.map Win.key = some t.key :: g.wins.map Win.key := by
    simp [Ledger.redeem, Win.key, ticket]
  refine ⟨?_, ?_, ?_, ?_⟩
  · intro j u hu hin
    obtain ⟨hj, hu⟩ := hother hu
    rw [hwins, List.mem_cons, not_or]
    exact ⟨(h.held hu hin).1, fun hkey => h.apart hj hu ticket hin (Option.some.inj hkey),
      (h.held hu hin).2⟩
  · intro j j' u u' ne hu hu' hin
    exact h.apart ne (hother hu).2 (hother hu').2 hin
  · intro k hk
    rw [hwins, List.mem_cons] at hk
    rcases hk with rfl | hk
    · exact ⟨t.key, (h.held ticket inside).1, rfl⟩
    · exact h.known hk
  · rw [hwins, List.nodup_cons]
    exact ⟨(h.held ticket inside).2, h.once⟩

end Fair

end Ledger

end HiLo
