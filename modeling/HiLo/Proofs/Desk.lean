/-
HiLo.Proofs.Desk — a stock behind a lock that a crash may close.

`Stock.serve` is a call while the lock is sound. A `Desk` is a stock, a source and
whether a crash has closed the desk, and `Desk.serve` is a call at any time: a closed
desk refuses, and stays closed. No design needs to look at its lock to get this right.
A crash happens in a draw, so it closes a desk with nothing left, and with nothing left
every call comes to the lock (`Design.routine_approaches`).

`Design.attends` says that an undisturbed call of any design does to its cells what
`serve` does to the desk that they hold, and `Section.attends` says the same of the
work under the lock.
-/
import HiLo.Proofs.Runs
import HiLo.Proofs.Sections

namespace HiLo

variable {σ ε : Type}

/-! ## Desks -/

/-- A stock with its source, and whether the desk is closed. -/
structure Desk (σ : Type) where
  stock : Stock
  closed : Bool
  source : σ

namespace Desk

def serve (S : Source σ ε) (size : Nat) (D : Desk σ) : Served σ ε :=
  if D.closed then ⟨.failed .poisoned, D.stock, D.source, []⟩ else D.stock.serve S size D.source

/-- The desk after a call. A crash closes it, if crashes spoil it. -/
def after (S : Source σ ε) (spoils : Bool) (size : Nat) (D : Desk σ) : Desk σ :=
  let q := D.serve S size
  ⟨q.stock, D.closed || (q.ending.isCrash && spoils), q.source⟩

variable {S : Source σ ε} {spoils : Bool} {size : Nat} {D : Desk σ}

theorem serve_of_open (h : D.closed = false) :
    D.serve S size = D.stock.serve S size D.source := by
  rw [serve, h]
  rfl

theorem serve_of_closed (h : D.closed = true) :
    D.serve S size = ⟨.failed .poisoned, D.stock, D.source, []⟩ := by
  rw [serve, if_pos h]

/-- A closed desk stays as it is. -/
theorem after_of_closed (h : D.closed = true) : D.after S spoils size = D := by
  rw [after, serve_of_closed h]
  obtain ⟨k, c, s⟩ := D
  simp_all

/-- A closed desk, and no other, answers that it is closed. -/
theorem serve_ending_iff : (D.serve S size).ending = .failed .poisoned ↔ D.closed = true := by
  cases hclosed : D.closed with
  | true => simp [serve_of_closed hclosed]
  | false =>
    rw [serve_of_open hclosed]
    refine iff_of_false ?_ nofun
    rcases Stock.serve_cases S size D.stock D.source with ⟨hi, given, -, -, h⟩ | ⟨-, h⟩
    · simp [h]
    · rw [h]
      cases hr : (S.draw D.source).reply with
      | none => simp [Stock.refill, Stock.ended, hr]
      | some r => cases r <;> simp [Stock.refill, Stock.ended, hr]

end Desk

/-- A source crashes only when nothing is left, and leaves it at that. -/
theorem Stock.spent_of_crash {S : Source σ ε} {size : Nat} {k : Stock} {s : σ}
    (h : (k.serve S size s).ending.isCrash = true) : (k.serve S size s).stock.Spent size := by
  rcases serve_cases S size k s with ⟨hi, given, -, -, heq⟩ | ⟨hspent, heq⟩
  · rw [heq] at h
    cases h
  · have hk : k.Spent size := by
      cases k with
      | none => trivial
      | block hi given => exact hspent hi given rfl
    rw [heq] at h ⊢
    simp only [refill, ended, refilled] at h ⊢
    split at h
    · cases h
    · cases h
    · next hr => rw [hr]; exact hk
    · cases h

/-! ## Cells that hold a desk -/

/-- The cells hold a desk, and lo was moved `n` times at most. A desk is closed only
with nothing left. -/
structure Holds (L : Layout) (strict : Bool) (n : Nat) (m : Memory) (D : Desk σ) : Prop where
  fits : Fits L n m D.stock
  poisoned : m.poisoned = D.closed
  spent : D.closed = true → D.stock.Spent L.size
  ranged : strict = true → Ranged L true 0 m.lo

/-- An undisturbed call did what a call at a desk does. -/
structure Attends (L : Layout) (strict : Bool) (n : Nat) (p : Performed σ ε) (q : Served σ ε)
    (D : Desk σ) : Prop where
  ending : p.ending = q.ending
  source : p.source = q.source
  answers : p.acts.filterMap Act.answer? = q.answers
  holds : Holds L strict n p.memory D

section Calls

variable {S : Source σ ε} {kind : LockKind} {L : Layout} {strict : Bool} {n : Nat} {m : Memory}
  {D : Desk σ} {k : Stock} {hi : Int64} {s : σ}

namespace Holds

/-- A new generator holds an open desk with nothing on it. -/
theorem fresh (L : Layout) (strict : Bool) (s : σ) :
    Holds L strict 0 .fresh (⟨.none, false, s⟩ : Desk σ) where
  fits := .fresh L
  poisoned := rfl
  spent := nofun
  ranged _ := .fresh L true 0

theorem mono {n' : Nat} (h : Holds L strict n m D) (le : n ≤ n') : Holds L strict n' m D :=
  { h with fits := h.fits.mono le }

theorem rebound {n' : Nat} (h : Holds L strict n m D) (bound : m.lo.toInt + 1 ≤ n') :
    Holds L strict n' m D :=
  { h with fits := h.fits.rebound bound }

/-- The source is none of the cells. -/
theorem congr {D' : Desk σ} (h : Holds L strict n m D) (stock : D'.stock = D.stock)
    (closed : D'.closed = D.closed) : Holds L strict n m D' where
  fits := stock ▸ h.fits
  poisoned := closed ▸ h.poisoned
  spent hc := stock ▸ h.spent (closed ▸ hc)
  ranged := h.ranged

end Holds

/-- What is left of a stock that is not served from the block. -/
theorem Fits.of_spent (h : Fits L n m k) (spent : k.Spent L.size) :
    (m.hi = reserved ∧ m.lo.toInt = -1) ∨
      (m.hi ≠ reserved ∧ L.size ≤ m.lo.toInt + 1 ∧ m.lo.toInt + 1 ≤ n ∧
        k = .block m.hi L.size) := by
  cases h with
  | none hhi hlo => exact .inl ⟨hhi, hlo⟩
  | room hhi hlo room bound => exact absurd room (Nat.not_lt.mpr spent)
  | spent hhi hlo bound => exact .inr ⟨hhi, hlo, bound, rfl⟩

section Spent

variable (h : Fits L n m k) (spent : k.Spent L.size)

include h spent

theorem Fits.untouched_of_spent (hhi : m.hi = reserved) : m.lo = -1 := by
  rcases h.of_spent spent with ⟨-, hlo⟩ | ⟨hne, -⟩
  · exact Int64.toInt.inj hlo
  · exact absurd hhi hne

theorem Fits.past_of_spent (hn : n < 2 ^ 63) (useful : m.hi ≠ reserved) :
    L.capacity ≤ m.lo + 1 := by
  rcases h.of_spent spent with ⟨hhi, -⟩ | ⟨-, hlo, hbound, -⟩
  · exact absurd hhi useful
  · exact next_of_spent hlo (by omega)

theorem Fits.count_of_spent (hn : n < 2 ^ 63) (useful : m.hi ≠ reserved) :
    Fits L (n + 1) { m with lo := m.lo + 1 } k := by
  rcases h.of_spent spent with ⟨hhi, -⟩ | ⟨hne, hlo, hbound, rfl⟩
  · exact absurd hhi useful
  · exact bump_of_spent hne hlo hbound hn

end Spent

/-- **A call that comes to a spoiled lock is refused.** -/
theorem Approaches.refused {goal : Routine ε → Prop} {r : Routine ε}
    (hgoal : ∀ r, goal r → ∃ w, r = .acquire w) (h : Approaches L hi goal r) :
    ∀ {m : Memory} (s : σ), m.hi = hi → Fits L n m k → k.Spent L.size → n < 2 ^ 63 →
      m.poisoned = true →
      let p := r.run S kind m s
      p.ending = .failed .poisoned ∧ p.source = s ∧ p.acts.filterMap Act.answer? = [] ∧
        Fits L (n + 1) p.memory k ∧ p.memory.poisoned = true := by
  have hrefused : ∀ {r : Routine ε} {n : Nat} {m : Memory} (s : σ), goal r → Fits L n m k →
      m.poisoned = true →
      let p := r.run S kind m s
      p.ending = .failed .poisoned ∧ p.source = s ∧ p.acts.filterMap Act.answer? = [] ∧
        Fits L n p.memory k ∧ p.memory.poisoned = true := by
    intro r n m s hr hfits hm
    obtain ⟨w, rfl⟩ := hgoal r hr
    simp [Routine.run, hm, Act.answer?, hfits]
  have hmono : ∀ {m : Memory}, Fits L n m k → Fits L (n + 1) m k := fun h => h.mono (Nat.le_succ n)
  induction h with
  | arrived there => exact fun s _ hfits _ _ hm => hrefused s there (hmono hfits) hm
  | note _ ih => exact ih
  | readHi _ ih =>
    intro m s hhi hfits
    subst hhi
    exact ih s rfl hfits
  | readLo _ ih =>
    intro m s hhi hfits hspent hn hm
    subst hhi
    exact ih m.lo (hfits.untouched_of_spent hspent) (hfits.past_of_spent hspent hn) s rfl hfits
      hspent hn hm
  | bumpLo useful rest =>
    intro m s hhi hfits hspent hn hm
    subst hhi
    have hgoal := rest _ (hfits.past_of_spent hspent hn useful)
    have hcount := hfits.count_of_spent hspent hn useful
    exact hrefused (m := { m with lo := m.lo + 1 }) s hgoal hcount hm
  | readVersion _ ih => exact fun s hhi => ih _ s hhi
  | bumpVersion _ ih =>
    intro m s hhi hfits
    exact ih (m := { m with version := m.version + 1 }) s hhi (hfits.congr rfl rfl)

/-- A call that follows a call on an open desk attends to it, if it keeps the lock as it
should. -/
theorem Follows.attends {p : Performed σ ε} {spoils : Bool}
    (h : Follows L kind n p (D.stock.serve S L.size D.source)) (hopen : D.closed = false)
    (poisoned : p.memory.poisoned = (p.ending.isCrash && spoils))
    (ranged : strict = true → Ranged L true 0 p.memory.lo) :
    Attends L strict n p (D.serve S L.size) (D.after S spoils L.size) := by
  rw [Desk.after, Desk.serve_of_open hopen]
  refine ⟨h.ending, h.source, h.answers, h.fits, ?_, ?_, ranged⟩
  · rw [poisoned, h.ending, hopen, Bool.false_or]
  · intro hclosed
    rw [hopen, Bool.false_or, Bool.and_eq_true] at hclosed
    exact Stock.spent_of_crash hclosed.1

/-- **The work under a sound lock attends to the desk.** -/
theorem Section.attends {w : Routine ε} (hw : Section S kind L strict w)
    (h : Holds L strict n m D) (hopen : D.closed = false) (hn : n < 2 ^ 63) :
    Attends L strict (n + 1) (w.run S kind m D.source) (D.serve S L.size)
      (D.after S (kind == .poisoning) L.size) := by
  have hm : m.poisoned = false := h.poisoned.trans hopen
  have horderly := hw.orderly m.hi
  refine (hw.follows n m D.stock D.source h.fits hn hm).attends hopen ?_ fun hstrict => ?_
  · exact horderly.run_poisoned S kind m D.source ⟨rfl, hm⟩ h.ranged
  · subst hstrict
    exact horderly.run_strict S kind _ (fun _ _ hst => (Stage.inside.inj hst).1) (h.ranged rfl)

/-- A call that one thread makes by itself writes to its cells only with a pair. -/
theorem Plain.routine_memory (S : Source σ ε) (kind : LockKind) (L : Layout) (m : Memory) (s : σ) :
    let p := (routine L).run S kind m s
    p.memory = m ∨ ∃ hi lo, p.ending = .claimed hi lo ∧ p.memory = { m with hi, lo } := by
  have hdraw : ∀ lo, let p := (drawFor lo : Routine ε).run S kind m s
      p.memory = m ∨ ∃ hi lo, p.ending = .claimed hi lo ∧ p.memory = { m with hi, lo } := by
    intro lo
    simp only [drawFor, Routine.drawThen, Routine.run]
    split
    · next r hr =>
      cases r with
      | value hi => exact .inr ⟨hi, lo, rfl, rfl⟩
      | failure cause => exact .inl rfl
      | crash text => exact .inl rfl
    · exact .inl rfl
  simp only [routine, Routine.countOn, Routine.run, Performed.prepend]
  split
  · exact hdraw 0
  · simp only [Routine.run, Performed.prepend]
    split
    · exact hdraw _
    · exact .inr ⟨_, _, rfl, rfl⟩

/-- A crash spoils the lock of a design that has one, where crashes spoil locks. -/
def Design.spoils (d : Design) (kind : LockKind) : Bool := d.isShared && kind == .poisoning

/-- A strict design moves lo in its block only, so it needs less room. -/
theorem Design.follows_of_room (d : Design) (h : Fits L n m k) (hn : n < 2 ^ 63)
    (room : d.isStrict = false → n + 1 < 2 ^ 63) (hm : m.poisoned = false) :
    Follows L kind (n + 2) ((d.routine L).run S kind m s) (k.serve S L.size s) := by
  cases d with
  | plain => exact Design.plain.routine_follows h (room rfl) hm
  | locked =>
    have hfollows : Follows L kind (n + 1) ((Locked.routine L).run S kind m s) _ :=
      Locked.routine_follows h hn hm
    exact { hfollows with fits := hfollows.fits.mono (Nat.le_succ _) }
  | optimistic attempts => exact (Design.optimistic attempts).routine_follows h (room rfl) hm
  | stamped attempts => exact (Design.stamped attempts).routine_follows h (room rfl) hm

/-- **An undisturbed call of any design attends to the desk that its cells hold.** -/
theorem Design.attends (d : Design) (S : Source σ ε) (kind : LockKind)
    (h : Holds L d.isStrict n m D) (hopen : d.isShared = false → D.closed = false)
    (hn : n < 2 ^ 63) (room : d.isStrict = false → n + 1 < 2 ^ 63) :
    Attends L d.isStrict (n + 2) ((d.routine L).run S kind m D.source) (D.serve S L.size)
      (D.after S (d.spoils kind) L.size) := by
  cases hshared : d.isShared with
  | false =>
    obtain rfl : d = .plain := by cases d <;> first | rfl | cases hshared
    have hm : m.poisoned = false := h.poisoned.trans (hopen rfl)
    refine (Design.plain.follows_of_room h.fits hn room hm).attends (hopen rfl) ?_ nofun
    rw [Design.spoils, Design.isShared, Bool.false_and, Bool.and_false]
    rcases Plain.routine_memory S kind L m D.source with heq | ⟨hi, lo, -, heq⟩
    · exact (congrArg Memory.poisoned heq).trans hm
    · exact (congrArg Memory.poisoned heq).trans hm
  | true =>
    have horderly : Orderly L d.isStrict (.outside false) (d.routine L : Routine ε) :=
      d.routine_orderly hshared
    have hranged : d.isStrict = true →
        Ranged L true 0 ((d.routine L).run S kind m D.source).memory.lo := fun hstrict => by
      rw [hstrict] at horderly
      exact horderly.run_strict S kind _ nofun (h.ranged hstrict)
    have hspoils : d.spoils kind = (kind == .poisoning) := by
      rw [Design.spoils, hshared, Bool.true_and]
    rw [hspoils]
    cases hclosed : D.closed with
    | false =>
      have hm : m.poisoned = false := h.poisoned.trans hclosed
      refine (d.follows_of_room h.fits hn room hm).attends hclosed ?_ hranged
      exact horderly.run_poisoned S kind m D.source hm h.ranged
    | true =>
      have hspent := h.spent hclosed
      have happroaches : Approaches L m.hi (Wants S kind L d.isStrict) (d.routine L) :=
        d.routine_approaches hshared m.hi
      obtain ⟨hending, hsource, hanswers, hfits, hpoisoned⟩ :=
        happroaches.refused (fun r ⟨w, hr, _⟩ => ⟨w, hr⟩) D.source rfl h.fits hspent (by omega)
          (h.poisoned.trans hclosed)
      rw [Desk.after_of_closed hclosed, Desk.serve_of_closed hclosed]
      exact ⟨hending, hsource, hanswers, hfits.mono (Nat.le_succ _), hpoisoned.trans hclosed.symm,
        fun _ => hspent, hranged⟩

end Calls

end HiLo
