/-
HiLo.Proofs.Sections — the way to the lock and the work under it.

When nothing is left to hand out, a call of a shared design cannot end before it has
taken the lock: it looks at the cells, counts lo up at most once, and wants the lock
(`Design.routine_approaches`). It does not matter what the version is or how far
beyond its block lo has got, so this holds of a call that waits just as of one that
nothing disturbs.

What a call does under the lock is its `Section`. Whatever the design, a section
serves a call from the stock, and with nothing left it gets to the source without
another change of hi, and then goes on with the answer as a refill does.
-/
import HiLo.Proofs.Orderly
import HiLo.Proofs.Undisturbed

namespace HiLo

variable {σ ε : Type}

/-! ## Nothing left -/

/-- Nothing is left: there is no block, or all of it was handed out. -/
def Stock.Spent (size : Nat) : Stock → Prop
  | .none => True
  | .block _ given => size ≤ given

/-- A stock with nothing left has to draw. -/
theorem Stock.serve_of_spent {S : Source σ ε} {size : Nat} {k : Stock} {s : σ}
    (h : k.Spent size) : k.serve S size s = k.refill (S.draw s) := by
  cases k with
  | none => rfl
  | block hi given => exact if_neg (Nat.not_lt.mpr h)

/-- A routine that gets to a goal without ending before, if the cells hold a given hi
and nothing is left of its block. On the way it only looks, counts the version up, or
counts lo up right before the goal. -/
inductive Approaches (L : Layout) (hi : Int64) (goal : Routine ε → Prop) : Routine ε → Prop where
  | arrived {r : Routine ε} (there : goal r) : Approaches L hi goal r
  | note {n : Note} {r : Routine ε} (rest : Approaches L hi goal r) :
      Approaches L hi goal (.note n r)
  | readHi {f : Int64 → Routine ε} (rest : Approaches L hi goal (f hi)) :
      Approaches L hi goal (.readHi f)
  | readLo {f : Int64 → Routine ε} (rest : ∀ lo, (hi = reserved → lo = -1) →
      (hi ≠ reserved → L.capacity ≤ lo + 1) → Approaches L hi goal (f lo)) :
      Approaches L hi goal (.readLo f)
  | bumpLo {f : Int64 → Routine ε} (useful : hi ≠ reserved)
      (rest : ∀ lo, L.capacity ≤ lo → goal (f lo)) : Approaches L hi goal (.bumpLo f)
  | readVersion {f : UInt64 → Routine ε} (rest : ∀ v, Approaches L hi goal (f v)) :
      Approaches L hi goal (.readVersion f)
  | bumpVersion {r : Routine ε} (rest : Approaches L hi goal r) :
      Approaches L hi goal (.bumpVersion r)

/-! ## Answers -/

def Stock.told (k : Stock) (s : σ) : Reply ε → Served σ ε
  | .value hi => ⟨.claimed hi 0, .block hi 1, s, []⟩
  | .failure cause => ⟨.failed (.source cause), k, s, []⟩
  | .crash text => ⟨.crashed text, k, s, []⟩

/-- A refill is told the answer of its draw. -/
theorem Stock.refill_of_reply {k : Stock} {d : Draw σ ε} {r : Reply ε} (h : d.reply = some r) :
    k.refill d = { k.told d.state r with answers := d.answers } := by
  unfold refill ended refilled
  rw [h]
  cases r <;> rfl

/-- What follows a draw goes on with every answer as a refill does. -/
def Refills (S : Source σ ε) (kind : LockKind) (L : Layout) (hi : Int64)
    (f : Reply ε → Routine ε) : Prop :=
  ∀ (n : Nat) (m : Memory) (k : Stock) (s : σ) (r : Reply ε), r.isReserved = false →
    Fits L n m k → 0 < n → m.hi = hi → m.poisoned = false →
    Follows L kind n ((f r).run S kind m s) (k.told s r)

/-- A call draws, and refills the stock with the answer. -/
def Draws (S : Source σ ε) (kind : LockKind) (L : Layout) (hi : Int64) (r : Routine ε) : Prop :=
  ∃ f, r = .draw f ∧ Refills S kind L hi f

/-! ## Sections -/

/-- What a call does under the lock. -/
structure Section (S : Source σ ε) (kind : LockKind) (L : Layout) (strict : Bool)
    (w : Routine ε) : Prop where
  orderly : ∀ hi, Orderly L strict (.inside hi true) w
  follows : ∀ (n : Nat) (m : Memory) (k : Stock) (s : σ), Fits L n m k → n < 2 ^ 63 →
    m.poisoned = false → Follows L kind (n + 1) (w.run S kind m s) (k.serve S L.size s)
  draws : ∀ hi, Approaches L hi (Draws S kind L hi) w

def Wants (S : Source σ ε) (kind : LockKind) (L : Layout) (strict : Bool) (r : Routine ε) :
    Prop :=
  ∃ w, r = .acquire w ∧ Section S kind L strict w

section Designs

variable {S : Source σ ε} {kind : LockKind} {L : Layout} {n : Nat} {m : Memory} {k : Stock}
  {hi : Int64} {s : σ}

/-- Actions other than requests do not show. -/
theorem Follows.of_prepend {a : Act ε} {p : Performed σ ε} {q : Served σ ε}
    (ha : a.answer? = none) (h : Follows L kind n (p.prepend a) q) : Follows L kind n p q :=
  { h with answers := by simpa [Performed.prepend, ha] using h.answers }

/-- What follows a call that takes a sound lock is the work under it. -/
theorem Follows.of_acquire {w : Routine ε} {q : Served σ ε} (hm : m.poisoned = false)
    (h : Follows L kind n ((Routine.acquire w).run S kind m s) q) :
    Follows L kind n (w.run S kind m s) q := by
  simp only [Routine.run, hm] at h
  exact h.of_prepend rfl

/-- Where nothing is left, cells without a hi hold no stock. -/
theorem Fits.eq_none (h : Fits L n m k) (hhi : m.hi = reserved) : k = .none := by
  cases h with
  | none => rfl
  | room hne => exact absurd hhi hne
  | spent hne => exact absurd hhi hne

/-- Whoever draws refills the stock. -/
theorem Leaving.drawThen_draws {leave : Bool → Routine ε → Routine ε} {adopt : Int64 → Routine ε}
    (leaving : Leaving S kind L leave)
    (hadopt : ∀ (n : Nat) (m : Memory) (k : Stock) (first : Int64) (s : σ), first ≠ reserved →
      Fits L n m k → m.hi = hi → 0 < n → m.poisoned = false →
      Follows L kind n ((adopt first).run S kind m s) ⟨.claimed first 0, .block first 1, s, []⟩) :
    Draws S kind L hi (.drawThen leave adopt) := by
  refine ⟨_, rfl, fun n m k s r hr h hn hhi hm => ?_⟩
  cases r with
  | value first => exact hadopt n m k first s (Reply.isReserved_value.mp hr) h hhi hn hm
  | failure cause => exact leaving.follows h hm nofun
  | crash text => exact leaving.follows h hm fun _ => ⟨text, rfl⟩

theorem Locked.work_section : Section S kind L true (work L : Routine ε) where
  orderly := work_orderly
  follows n m k s h hn hm := .of_acquire hm ((routine_follows h hn hm).of_prepend rfl)
  draws hi := by
    refine .readLo fun lo none block => ?_
    split
    · exact .arrived (leaving.drawThen_draws fun n m _ first s hne _ _ hn hm =>
        .note (leaving.commit_follows hne rfl L.size_pos hn hm))
    · next hinside =>
      by_cases hhi : hi = reserved
      · refine .readHi ?_
        rw [if_pos hhi, none hhi]
        exact .arrived (leaving.drawThen_draws fun n m _ first s hne _ _ hn hm =>
          leaving.commit_follows hne rfl L.size_pos hn hm)
      · exact absurd (block hhi) hinside

namespace Check

variable (c : Check)

theorem work_approaches (hi : Int64) :
    Approaches L hi (Draws S kind L hi) (c.work L : Routine ε) := by
  refine .readHi ?_
  by_cases hhi : hi = reserved
  · rw [if_pos hhi]
    refine .arrived (c.leaving.drawThen_draws fun n m k first s hne h hm hn hp => ?_)
    obtain rfl := h.eq_none (hm.trans hhi)
    cases h with
    | none _ hlo => exact c.claimFirst_follows hlo hne hn hp
  · rw [if_neg hhi]
    refine .bumpLo hhi fun lo hlo => ?_
    rw [if_pos hlo]
    exact c.leaving.drawThen_draws fun n m k first s hne _ _ hn hp =>
      .writeHi (c.restart_follows hne hn hp)

theorem enter_section : Section S kind L false (c.enter (c.work L) : Routine ε) where
  orderly hi := by
    cases c with
    | reread => exact work_orderly _ hi
    | version => exact .bumpVersion (work_orderly _ hi)
  follows n m k s h hn hm := .of_acquire hm (c.exclusive_follows h hn hm)
  draws hi := by
    cases c with
    | reread => exact work_approaches _ hi
    | version => exact .bumpVersion (work_approaches _ hi)

theorem exclusive_wants : Wants S kind L false (c.exclusive L : Routine ε) :=
  ⟨_, rfl, c.enter_section⟩

end Check

theorem Optimistic.attempt_approaches (hi : Int64) (n : Nat) :
    Approaches L hi (Wants S kind L false) (attempt L n : Routine ε) := by
  cases n with
  | zero => exact .arrived Check.reread.exclusive_wants
  | succ n =>
    rw [attempt_succ]
    refine .readHi ?_
    by_cases hhi : hi = reserved
    · rw [if_pos hhi]
      exact .arrived Check.reread.exclusive_wants
    · rw [if_neg hhi]
      refine .bumpLo hhi fun lo hlo => ?_
      rw [if_pos hlo]
      exact Check.reread.exclusive_wants

theorem Stamped.attempt_approaches (hi : Int64) (n : Nat) :
    Approaches L hi (Wants S kind L false) (attempt L n : Routine ε) := by
  induction n with
  | zero => exact .arrived Check.version.exclusive_wants
  | succ n ih =>
    rw [attempt_succ]
    refine .readVersion fun stamp => ?_
    split
    · exact ih
    refine .readHi ?_
    by_cases hhi : hi = reserved
    · rw [if_pos hhi]
      exact .arrived Check.version.exclusive_wants
    · rw [if_neg hhi]
      refine .readVersion fun before => ?_
      split
      · exact ih
      refine .bumpLo hhi fun lo hlo => ?_
      rw [if_pos hlo]
      exact Check.version.exclusive_wants

/-- **With nothing left, every call of a shared design comes to the lock.** -/
theorem Design.routine_approaches {d : Design} (shared : d.isShared = true) (hi : Int64) :
    Approaches L hi (Wants S kind L d.isStrict) (d.routine L : Routine ε) := by
  cases d with
  | plain => cases shared
  | locked => exact .note (.arrived ⟨_, rfl, Locked.work_section⟩)
  | optimistic attempts => exact .note (Optimistic.attempt_approaches hi _)
  | stamped attempts => exact .note (Stamped.attempt_approaches hi _)

end Designs

end HiLo
