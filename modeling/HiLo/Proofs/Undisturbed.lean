/-
HiLo.Proofs.Undisturbed — every design serves its calls from a stock.

`Design.routine_follows`: a call that nothing disturbs follows a call on the stock that
its cells hold, whatever the design. The three states of a stock are the three
cases of every proof: with no hi the call draws the first one, with room it
hands out the next lo, and with a used-up block it draws again.

The designs draw in one way and leave in three: with no lock, by giving it back, or with
one more count of the version. `Leaving` is all that a draw has to know of this.

The designs that count without the lock move lo on the way to a rollover, once
before they take the lock and once under it; `Fits` allows for that.
-/
import HiLo.Proofs.Check
import HiLo.Proofs.Stock

namespace HiLo

section Designs

variable {σ ε : Type} {S : Source σ ε} {kind : LockKind} {L : Layout} {n given : Nat}
  {m : Memory} {s : σ} {k : Stock} {hi lo : Int64}

theorem Stock.serve_room (room : given < L.size) :
    (Stock.block hi given).serve S L.size s
      = ⟨.claimed hi (.ofNat given), .block hi (given + 1), s, []⟩ :=
  if_pos room

theorem Stock.serve_spent :
    (Stock.block hi L.size).serve S L.size s
      = (Stock.block hi L.size).refill (S.draw s) :=
  if_neg (Nat.lt_irrefl _)

/-! ## Shared parts -/

/-- A way for a call to leave, with the stock that its cells hold. -/
structure Leaving (S : Source σ ε) (kind : LockKind) (L : Layout)
    (leave : Bool → Routine ε → Routine ε) : Prop where
  follows : ∀ {n : Nat} {m : Memory} {k : Stock} {s : σ} {crashed : Bool} {e : Ending ε},
    Fits L n m k → m.poisoned = false → (crashed = true → ∃ text, e = .crashed text) →
    Follows L kind n ((leave crashed (.finish e)).run S kind m s) ⟨e, k, s, []⟩

/-- Whoever draws adopts a hi, or leaves. -/
theorem Leaving.drawThen_follows {leave : Bool → Routine ε → Routine ε}
    {adopt : Int64 → Routine ε} (leaving : Leaving S kind L leave) (h : Fits L n m k)
    (hm : m.poisoned = false)
    (hadopt : ∀ hi s, hi ≠ reserved → Follows L kind n ((adopt hi).run S kind m s)
      ⟨.claimed hi 0, .block hi 1, s, []⟩) :
    Follows L kind n ((Routine.drawThen leave adopt).run S kind m s) (k.refill (S.draw s)) := by
  refine .draw h hm hadopt (fun cause s => ?_) (fun text s => ?_)
  · exact leaving.follows h hm nofun
  · exact leaving.follows h hm fun _ => ⟨text, rfl⟩

/-- Whoever commits a pair leaves its block. -/
theorem Leaving.commit_follows {leave : Bool → Routine ε → Routine ε}
    (leaving : Leaving S kind L leave) (hhi : hi ≠ reserved) (hlo : lo = .ofNat given)
    (room : given < L.size) (bound : given < n) (hm : m.poisoned = false) :
    Follows L kind n ((Routine.commit leave hi lo).run S kind m s)
      ⟨.claimed hi lo, .block hi (given + 1), s, []⟩ := by
  have hfits : Fits L n { m with hi, lo } (.block hi (given + 1)) :=
    .of_pair (m := { m with hi, lo }) hhi hlo room bound
  exact .writeHi (.writeLo (leaving.follows hfits hm nofun))

/-- Whoever counts on follows the three states of a stock. -/
theorem Routine.countOn_follows {spent : Routine ε} {first : Int64 → Routine ε}
    {commit : Int64 → Int64 → Routine ε} (h : Fits L n m k) (hn : n < 2 ^ 63)
    (hspent : Follows L kind (n + 1) (spent.run S kind m s) (k.refill (S.draw s)))
    (hfirst : Follows L kind (n + 1) ((first (.ofNat 0)).run S kind m s)
      (k.refill (S.draw s)))
    (hcommit : ∀ {given}, m.hi ≠ reserved → given < L.size → given < n + 1 →
      Follows L kind (n + 1) ((commit m.hi (.ofNat given)).run S kind m s)
        ⟨.claimed m.hi (.ofNat given), .block m.hi (given + 1), s, []⟩) :
    Follows L kind (n + 1) ((countOn L spent first commit).run S kind m s)
      (k.serve S L.size s) := by
  refine .readLo ?_
  cases h with
  | none hhi hlo =>
    rw [Fits.next_of_none hlo, if_neg (L.not_capacity_le L.size_pos)]
    refine .readHi ?_
    rw [if_pos hhi]
    exact hfirst
  | room hhi hlo room bound =>
    rw [Fits.next_of_room hlo room, if_neg (L.not_capacity_le room), Stock.serve_room room]
    refine .readHi ?_
    rw [if_neg hhi]
    exact hcommit hhi room (Nat.lt_succ_of_le bound)
  | spent hhi hlo bound =>
    rw [if_pos (Fits.next_of_spent hlo (by omega)), Stock.serve_spent]
    exact hspent

/-! ## Without a lock -/

namespace Plain

theorem leaving : Leaving S kind L leave where
  follows h hm _ := .finish h (by simp [hm])

theorem drawFor_follows (h : Fits L n m k) (hn : 0 < n) (hm : m.poisoned = false) :
    Follows L kind n ((drawFor (.ofNat 0)).run S kind m s) (k.refill (S.draw s)) :=
  leaving.drawThen_follows h hm fun _ _ hhi => leaving.commit_follows hhi rfl L.size_pos hn hm

theorem routine_follows (h : Fits L n m k) (hn : n < 2 ^ 63) (hm : m.poisoned = false) :
    Follows L kind (n + 1) ((routine L).run S kind m s) (k.serve S L.size s) := by
  have hdraw : Follows L kind (n + 1) ((drawFor (.ofNat 0)).run S kind m s)
      (k.refill (S.draw s)) := drawFor_follows (h.mono (Nat.le_succ n)) (Nat.succ_pos n) hm
  exact .note (Routine.countOn_follows h hn hdraw hdraw fun hhi room bound =>
    leaving.commit_follows hhi rfl room bound hm)

end Plain

/-! ## Under the lock -/

namespace Locked

theorem leaving : Leaving S kind L Routine.release where
  follows h hm he := .release (.finished h rfl rfl (Memory.poisoned_released hm) he)

theorem routine_follows (h : Fits L n m k) (hn : n < 2 ^ 63) (hm : m.poisoned = false) :
    Follows L kind (n + 1) ((routine L).run S kind m s) (k.serve S L.size s) := by
  have h' := h.mono (Nat.le_succ n)
  refine .note (.acquire hm (Routine.countOn_follows h hn ?_ ?_ fun hhi room bound => ?_))
  · exact leaving.drawThen_follows h' hm fun hi s hne =>
      .note (leaving.commit_follows hne rfl L.size_pos (Nat.succ_pos n) hm)
  · exact leaving.drawThen_follows h' hm fun hi s hne =>
      leaving.commit_follows hne rfl L.size_pos (Nat.succ_pos n) hm
  · exact leaving.commit_follows hhi rfl room bound hm

end Locked

/-! ## Around the lock -/

namespace Check

variable (c : Check)

/-- Leaving touches neither hi nor lo, and does not show. -/
theorem leave_follows {rest : Routine ε} {crashed : Bool} {q : Served σ ε}
    (hm : m.poisoned = false)
    (hrest : ∀ m' : Memory, m'.hi = m.hi → m'.lo = m.lo →
      (m'.poisoned = true → kind = .poisoning ∧ crashed = true) →
      Follows L kind n (rest.run S kind m' s) q) :
    Follows L kind n ((c.leave crashed rest).run S kind m s) q := by
  cases c with
  | reread => exact .release (hrest _ rfl rfl (Memory.poisoned_released hm))
  | version => exact .bumpVersion (.release (hrest _ rfl rfl (Memory.poisoned_released hm)))

theorem leaving : Leaving S kind L c.leave where
  follows h hm he := c.leave_follows hm fun _ hhi hlo hp => .finished h hhi hlo hp he

theorem restart_follows (hhi : hi ≠ reserved) (hn : 0 < n) (hm : m.poisoned = false) :
    Follows L kind n ((c.restart hi).run S kind { m with hi } s)
      ⟨.claimed hi 0, .block hi 1, s, []⟩ := by
  have hfits : Fits L n { m with hi, lo := 0 } (.block hi 1) :=
    .of_pair (m := { m with hi, lo := 0 }) hhi rfl L.size_pos hn
  exact .writeLo (.note (c.leaving.follows hfits hm nofun))

theorem claimFirst_follows (hlo : m.lo.toInt = -1) (hhi : hi ≠ reserved) (hn : 0 < n)
    (hm : m.poisoned = false) :
    Follows L kind n ((c.claimFirst hi).run S kind m s)
      ⟨.claimed hi 0, .block hi 1, s, []⟩ := by
  have hfits : Fits L n { m with hi, lo := 0 } (.block hi 1) :=
    .of_pair (m := { m with hi, lo := 0 }) hhi rfl L.size_pos hn
  refine .bumpLo (Fits.next_of_none hlo) (.writeHi ?_)
  exact c.leave_follows (m := { m with hi, lo := 0 }) hm fun _ hhi' hlo' hp =>
    .note (.finished hfits hhi' hlo' hp nofun)

theorem work_follows (h : Fits L n m k) (hn : n < 2 ^ 63) (hm : m.poisoned = false) :
    Follows L kind (n + 1) ((c.work L).run S kind m s) (k.serve S L.size s) := by
  have h' := h.mono (Nat.le_succ n)
  refine .readHi ?_
  cases h with
  | none hhi hlo =>
    rw [if_pos hhi]
    exact c.leaving.drawThen_follows h' hm fun hi s hne =>
      c.claimFirst_follows hlo hne (by omega) hm
  | room hhi hlo room bound =>
    rw [if_neg hhi, Stock.serve_room room]
    refine .bumpLo (Fits.next_of_room hlo room) ?_
    rw [if_neg (L.not_capacity_le room)]
    exact c.leaving.follows (m := { m with lo := .ofNat _ })
      (.of_pair (m := { m with lo := .ofNat _ }) hhi rfl room (by omega)) hm nofun
  | spent hhi hlo bound =>
    rw [if_neg hhi, Stock.serve_spent]
    refine .bumpLo rfl ?_
    rw [if_pos (Fits.next_of_spent hlo (by omega))]
    exact c.leaving.drawThen_follows (m := { m with lo := m.lo + 1 })
      (.bump_of_spent hhi hlo bound hn) hm
      fun hi s hne =>
        .writeHi (c.restart_follows (m := { m with lo := m.lo + 1 }) hne (by omega) hm)

theorem exclusive_follows (h : Fits L n m k) (hn : n < 2 ^ 63) (hm : m.poisoned = false) :
    Follows L kind (n + 1) ((c.exclusive L).run S kind m s) (k.serve S L.size s) := by
  refine .acquire hm ?_
  cases c with
  | reread => exact work_follows _ h hn hm
  | version =>
    exact .bumpVersion
      (work_follows (m := { m with version := m.version + 1 }) _ (h.congr rfl rfl) hn hm)

end Check

/-! ## Attempts without the lock -/

namespace Optimistic

/-- With one attempt or more, the first one decides: nothing comes in between. -/
theorem attempt_follows (h : Fits L n m k) (hn : n + 1 < 2 ^ 63) (hm : m.poisoned = false)
    (attempts : Nat) :
    Follows L kind (n + 2) ((attempt L attempts).run S kind m s) (k.serve S L.size s) := by
  have hexclusive : Follows L kind (n + 2) ((exclusive L).run S kind m s)
      (k.serve S L.size s) :=
    Check.reread.exclusive_follows (h.mono (Nat.le_succ n)) hn hm
  cases attempts with
  | zero => exact hexclusive
  | succ attempts =>
    rw [attempt_succ]
    refine .readHi ?_
    cases h with
    | none hhi hlo =>
      rw [if_pos hhi]
      exact hexclusive
    | room hhi hlo room bound =>
      rw [if_neg hhi, Stock.serve_room room]
      refine .bumpLo (Fits.next_of_room hlo room) ?_
      rw [if_neg (L.not_capacity_le room)]
      refine .readHi ?_
      rw [if_pos rfl]
      exact .finish (m := { m with lo := .ofNat _ })
        (.of_pair (m := { m with lo := .ofNat _ }) hhi rfl room (by omega)) (by simp [hm])
    | spent hhi hlo bound =>
      rw [if_neg hhi]
      refine .bumpLo rfl ?_
      rw [if_pos (Fits.next_of_spent hlo (by omega))]
      exact Check.reread.exclusive_follows (m := { m with lo := m.lo + 1 })
        (.bump_of_spent hhi hlo bound (by omega)) hn hm

end Optimistic

namespace Stamped

/-- An odd version uses up an attempt; an even one stays as it is, and the first
attempt under it decides. -/
theorem attempt_follows (h : Fits L n m k) (hn : n + 1 < 2 ^ 63) (hm : m.poisoned = false)
    (attempts : Nat) :
    Follows L kind (n + 2) ((attempt L attempts).run S kind m s) (k.serve S L.size s) := by
  have hexclusive : Follows L kind (n + 2) ((exclusive L).run S kind m s)
      (k.serve S L.size s) :=
    Check.version.exclusive_follows (h.mono (Nat.le_succ n)) hn hm
  induction attempts with
  | zero => exact hexclusive
  | succ attempts ih =>
    rw [attempt_succ]
    refine .readVersion ?_
    by_cases hodd : m.version % 2 = 1
    · rw [if_pos hodd]
      exact ih
    rw [if_neg hodd]
    refine .readHi ?_
    cases h with
    | none hhi hlo =>
      rw [if_pos hhi]
      exact hexclusive
    | room hhi hlo room bound =>
      rw [if_neg hhi, Stock.serve_room room]
      refine .readVersion ?_
      rw [if_neg (not_not_intro rfl)]
      refine .bumpLo (Fits.next_of_room hlo room) ?_
      rw [if_neg (L.not_capacity_le room)]
      refine .readVersion ?_
      rw [if_pos rfl]
      exact .finish (m := { m with lo := .ofNat _ })
        (.of_pair (m := { m with lo := .ofNat _ }) hhi rfl room (by omega)) (by simp [hm])
    | spent hhi hlo bound =>
      rw [if_neg hhi]
      refine .readVersion ?_
      rw [if_neg (not_not_intro rfl)]
      refine .bumpLo rfl ?_
      rw [if_pos (Fits.next_of_spent hlo (by omega))]
      exact Check.version.exclusive_follows (m := { m with lo := m.lo + 1 })
        (.bump_of_spent hhi hlo bound (by omega)) hn hm

end Stamped

/-! ## All designs -/

/-- **A call of any design follows a call on the stock its cells hold.** -/
theorem Design.routine_follows (d : Design) (h : Fits L n m k) (hn : n + 1 < 2 ^ 63)
    (hm : m.poisoned = false) :
    Follows L kind (n + 2) ((d.routine L).run S kind m s) (k.serve S L.size s) := by
  cases d with
  | plain => exact Plain.routine_follows (h.mono (Nat.le_succ n)) hn hm
  | locked => exact Locked.routine_follows (h.mono (Nat.le_succ n)) hn hm
  | optimistic attempts => exact .note (Optimistic.attempt_follows h hn hm _)
  | stamped attempts => exact .note (Stamped.attempt_follows h hn hm _)

end Designs

end HiLo
