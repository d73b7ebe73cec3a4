/-
HiLo.Proofs.Stamps — the version of a stamped generator is always restored.

Whoever takes the lock counts the version up, and once more on every way out: with a
pair, with a failure and in a crash. `Guarded` says so of the work under the lock. So
between calls in a row the version is twice the number of times that the lock was taken
(`version_counts_entries`). It is even then, every attempt gets its stamp, and nothing
comes in between: both checks find the stamp as it was, no call makes a second attempt,
and no lo is counted in vain (`Straight`).

A call that never ends does not leave the lock. No call follows it, so the cells are
looked at behind calls that have ended.
-/
import HiLo.Proofs.Check
import HiLo.Proofs.Rows

namespace HiLo

variable {σ ε : Type}

/-! ## Entries -/

def Act.enters : Act ε → Bool
  | .acquired => true
  | _ => false

def acquisitions (acts : List (Act ε)) : Nat := acts.countP Act.enters

theorem acquisitions_append (acts acts' : List (Act ε)) :
    acquisitions (acts ++ acts') = acquisitions acts + acquisitions acts' :=
  List.countP_append

/-- Whether an action neither goes for the lock nor looks at the version. -/
def Act.isInner : Act ε → Bool
  | .acquired | .refused | .sawVersion _ => false
  | _ => true

/-- Inner actions do not take the lock. -/
theorem acquisitions_eq_zero {acts : List (Act ε)} (inner : ∀ a ∈ acts, a.isInner = true) :
    acquisitions acts = 0 := by
  rw [acquisitions, List.countP_eq_zero]
  intro a ha
  have hinner := inner a ha
  cases a with
  | acquired => cases hinner
  | _ => exact Bool.false_ne_true

/-- What a call does once it goes for the lock: it is refused, or works under it. -/
inductive Locks : List (Act ε) → Prop where
  | refused : Locks [.refused]
  | acquired {acts : List (Act ε)} (inner : ∀ a ∈ acts, a.isInner = true) :
      Locks (.acquired :: acts)

/-! ## Under the lock -/

/-- What is left of a call under the lock, with the version counted up for it or counted up again.
On every way out the version comes first. -/
inductive Guarded : Bool → Routine ε → Prop where
  | finish {e : Ending ε} (admitted : e ≠ .failed .poisoned) : Guarded false (.finish e)
  | note {held : Bool} {x : Note} {r : Routine ε} (rest : Guarded held r) : Guarded held (.note x r)
  | readHi {held : Bool} {f : Int64 → Routine ε} (rest : ∀ hi, Guarded held (f hi)) :
      Guarded held (.readHi f)
  | writeHi {held : Bool} {hi : Int64} {r : Routine ε} (rest : Guarded held r) :
      Guarded held (.writeHi hi r)
  | writeLo {held : Bool} {lo : Int64} {r : Routine ε} (rest : Guarded held r) :
      Guarded held (.writeLo lo r)
  | bumpLo {held : Bool} {f : Int64 → Routine ε} (rest : ∀ lo, Guarded held (f lo)) :
      Guarded held (.bumpLo f)
  | draw {f : Reply ε → Routine ε} (rest : ∀ r, Guarded true (f r)) : Guarded true (.draw f)
  | leave {crashed : Bool} {r : Routine ε} (rest : Guarded false r) :
      Guarded true (.bumpVersion (.release crashed r))

/-- What such a rest of a call does: if it ends at all, it counts the version up where that is
due. -/
structure Restores (held : Bool) (version : UInt64) (p : Performed σ ε) : Prop where
  inner : ∀ a ∈ p.acts, a.isInner = true
  version : p.ending ≠ .unsettled → p.memory.version = version + if held then 1 else 0
  admitted : p.ending ≠ .failed .poisoned

theorem Restores.prepend {held : Bool} {version : UInt64} {p : Performed σ ε} {a : Act ε}
    (inner : a.isInner = true) (h : Restores held version p) :
    Restores held version (p.prepend a) := by
  refine ⟨?_, h.version, h.admitted⟩
  intro b hb
  rcases List.mem_cons.mp hb with rfl | hrest
  · exact inner
  · exact h.inner b hrest

section

variable {S : Source σ ε} {kind : LockKind}

/-- **Every way out restores the version.** -/
theorem Guarded.restores {held : Bool} {r : Routine ε} (h : Guarded held r) :
    ∀ (m : Memory) (s : σ), Restores held m.version (r.run S kind m s) := by
  induction h with
  | finish admitted =>
    intro m s
    exact ⟨by simp [Routine.run], fun _ => by simp [Routine.run], admitted⟩
  | note _ ih =>
    intro m s
    exact (ih m s).prepend rfl
  | readHi _ ih =>
    intro m s
    exact (ih m.hi m s).prepend rfl
  | @writeHi _ hi _ _ ih =>
    intro m s
    exact (ih { m with hi } s).prepend rfl
  | @writeLo _ lo _ _ ih =>
    intro m s
    exact (ih { m with lo } s).prepend rfl
  | bumpLo _ ih =>
    intro m s
    exact (ih (m.lo + 1) { m with lo := m.lo + 1 } s).prepend rfl
  | draw _ ih =>
    intro m s
    have hasks : ∀ a ∈ (S.draw s).acts, a.isInner = true := by
      intro a ha
      obtain ⟨r, rfl⟩ := Draw.exists_of_mem_acts ha
      rfl
    simp only [Routine.run]
    cases hr : (S.draw s).reply with
    | none =>
      refine ⟨hasks, fun h => absurd rfl h, ?_⟩
      intro h
      cases h
    | some r =>
      have hrest := ih r m (S.draw s).state
      refine ⟨?_, hrest.version, hrest.admitted⟩
      intro a ha
      rcases List.mem_append.mp ha with hdraw | hlater
      · exact hasks a hdraw
      · exact hrest.inner a hlater
  | @leave crashed r _ ih =>
    intro m s
    have hrest := ih (Memory.released kind crashed { m with version := m.version + 1 }) s
    have hall : Restores false (m.version + 1)
        ((Routine.bumpVersion (.release crashed r)).run S kind m s) :=
      (hrest.prepend rfl).prepend rfl
    refine ⟨hall.inner, ?_, hall.admitted⟩
    intro hsettled
    rw [hall.version hsettled]
    simp

end

/-! ## A call -/

/-- A call moves a version on by two whenever it takes the lock, and leaves it where it was if it is
refused. -/
structure Balances (version : UInt64) (p : Performed σ ε) : Prop where
  settled : p.ending ≠ .unsettled → p.memory.version = version + .ofNat (2 * acquisitions p.acts)
  refused : p.ending = .failed .poisoned → p.memory.version = version

/-- What a call with some attempts does from given cells. It takes one stamp at most, and finds it
as it was whenever it checks it. With no attempts, with no hi or with the block used up it goes for
the lock, and otherwise it ends with the lo that it has counted. -/
inductive Stamped.Straight (L : Layout) (m : Memory) : Nat → Ending ε → List (Act ε) → Prop where
  | barred {e : Ending ε} {acts : List (Act ε)} (locks : Locks acts) : Straight L m 0 e acts
  | empty {n : Nat} {e : Ending ε} {acts : List (Act ε)} (hi : m.hi = reserved)
      (locks : Locks acts) : Straight L m (n + 1) e (.sawVersion m.version :: .sawHi m.hi :: acts)
  | spent {n : Nat} {e : Ending ε} {acts : List (Act ε)} (hi : m.hi ≠ reserved)
      (full : L.capacity ≤ m.lo + 1) (locks : Locks acts) :
      Straight L m (n + 1) e (.sawVersion m.version :: .sawHi m.hi :: .sawVersion m.version ::
        .bumpedLo (m.lo + 1) :: acts)
  | won {n : Nat} (hi : m.hi ≠ reserved) (inside : m.lo + 1 < L.capacity) :
      Straight L m (n + 1) (.claimed m.hi (m.lo + 1)) [.sawVersion m.version, .sawHi m.hi,
        .sawVersion m.version, .bumpedLo (m.lo + 1), .sawVersion m.version]

section

variable {S : Source σ ε} {kind : LockKind} {L : Layout} {m : Memory} {s : σ}

/-- Before it takes the lock, a call leaves the version alone. -/
theorem Balances.prepend {version : UInt64} {p : Performed σ ε} {a : Act ε}
    (outside : a.enters = false) (h : Balances version p) : Balances version (p.prepend a) := by
  have hsame : acquisitions (p.prepend a).acts = acquisitions p.acts :=
    List.countP_cons_of_neg (Bool.eq_false_iff.mp outside)
  refine ⟨?_, h.refused⟩
  rw [hsame]
  exact h.settled

namespace Check

theorem drawThen_guarded {adopt : Int64 → Routine ε} (h : ∀ hi, Guarded true (adopt hi)) :
    Guarded true (version.drawThen adopt) := by
  apply Guarded.draw
  intro r
  cases r with
  | value hi => exact h hi
  | failure cause => exact .leave (.finish nofun)
  | crash text => exact .leave (.finish nofun)

theorem work_guarded : Guarded true (version.work L : Routine ε) := by
  apply Guarded.readHi
  intro hi
  split
  · apply drawThen_guarded
    intro first
    exact .bumpLo fun lo => .writeHi (.leave (.note (.finish nofun)))
  · apply Guarded.bumpLo
    intro lo
    split
    · apply drawThen_guarded
      intro next
      exact .writeHi (.writeLo (.note (.leave (.finish nofun))))
    · exact .leave (.finish nofun)

/-- Whoever goes for the lock is refused, or counts the version up twice. -/
theorem exclusive_balances :
    let p := (version.exclusive L : Routine ε).run S kind m s
    Locks p.acts ∧ Balances m.version p := by
  intro p
  by_cases hpoisoned : m.poisoned = true
  · have hp : p = ⟨.failed .poisoned, m, s, [.refused]⟩ := if_pos hpoisoned
    rw [hp]
    exact ⟨.refused, fun _ => by simp [acquisitions, Act.enters], fun _ => rfl⟩
  · let m' : Memory := { m with version := m.version + 1 }
    let q := (version.work L : Routine ε).run S kind m' s
    have hp : p = (q.prepend (.bumpedVersion m'.version)).prepend .acquired := if_neg hpoisoned
    have hq : Restores true m'.version (q.prepend (.bumpedVersion m'.version)) :=
      (work_guarded.restores m' s).prepend rfl
    have honce : acquisitions p.acts = 1 := by
      rw [hp]
      exact (List.countP_cons_of_pos rfl).trans (congrArg (· + 1) (acquisitions_eq_zero hq.inner))
    refine ⟨?_, ?_, ?_⟩
    · rw [hp]
      exact .acquired hq.inner
    · intro hsettled
      rw [honce]
      rw [hp] at hsettled ⊢
      rw [Performed.prepend, hq.version hsettled]
      simp only [m', if_true, UInt64.add_assoc]
      rfl
    · intro hrefused
      rw [hp] at hrefused
      exact absurd hrefused hq.admitted

end Check

namespace Stamped

/-- **A stamp holds from the beginning of an attempt to its end**, if it is even. -/
theorem attempt_straight (even : m.version % 2 = 0) (n : Nat) :
    let p := (attempt L n : Routine ε).run S kind m s
    Straight L m n p.ending p.acts ∧ Balances m.version p := by
  intro p
  have hexclusive : ∀ m, let q := (exclusive L : Routine ε).run S kind m s
      Locks q.acts ∧ Balances m.version q := fun m => Check.exclusive_balances
  have hstamp : ¬ m.version % 2 = 1 := by
    rw [even]
    decide
  cases n with
  | zero => exact ⟨.barred (hexclusive m).1, (hexclusive m).2⟩
  | succ n =>
    let m' : Memory := { m with lo := m.lo + 1 }
    by_cases hnone : m.hi = reserved
    · have hp : p = (((exclusive L).run S kind m s).prepend (.sawHi m.hi)).prepend
          (.sawVersion m.version) := by
        simp only [p, attempt_succ, Routine.run, if_neg hstamp, look, if_pos hnone]
      rw [hp]
      exact ⟨.empty hnone (hexclusive m).1, ((hexclusive m).2.prepend rfl).prepend rfl⟩
    by_cases hfull : L.capacity ≤ m.lo + 1
    · have hp : p = (((((exclusive L).run S kind m' s).prepend (.bumpedLo (m.lo + 1))).prepend
          (.sawVersion m.version)).prepend (.sawHi m.hi)).prepend (.sawVersion m.version) := by
        simp only [p, m', attempt_succ, Routine.run, if_neg hstamp, look, if_neg hnone, check,
          ne_eq, not_true, if_false, claim, if_pos hfull]
      rw [hp]
      exact ⟨.spent hnone hfull (hexclusive m').1,
        ((((hexclusive m').2.prepend rfl).prepend rfl).prepend rfl).prepend rfl⟩
    · have hp : p = ⟨.claimed m.hi (m.lo + 1), m', s, [.sawVersion m.version, .sawHi m.hi,
          .sawVersion m.version, .bumpedLo (m.lo + 1), .sawVersion m.version]⟩ := by
        simp only [p, m', attempt_succ, Routine.run, if_neg hstamp, look, if_neg hnone, check,
          ne_eq, not_true, if_false, claim, if_neg hfull, confirm, if_true, Performed.prepend]
      rw [hp]
      refine ⟨.won hnone (Int64.not_le.mp hfull), ?_, ?_⟩
      · simp [m', acquisitions, Act.enters]
      · intro h
        cases h

/-- So does a whole call. -/
theorem call_straight (attempts : UInt32) (even : m.version % 2 = 0) :
    let c := Generator.call S kind ⟨.stamped attempts, L, m⟩ s
    (∃ acts, c.acts = .noted .entered :: acts ∧ Straight L m attempts.toNat c.ending acts) ∧
    (c.ending ≠ .unsettled →
      c.generator.memory.version = m.version + .ofNat (2 * acquisitions c.acts)) ∧
    (c.ending = .failed .poisoned → c.generator.memory.version = m.version) := by
  intro c
  let p := (attempt L attempts.toNat : Routine ε).run S kind m s
  obtain ⟨hstraight, hbalances⟩ : Straight L m attempts.toNat p.ending p.acts ∧
      Balances m.version p := attempt_straight even attempts.toNat
  have hcall : Balances m.version (p.prepend (.noted .entered)) := hbalances.prepend rfl
  exact ⟨⟨p.acts, rfl, hstraight⟩, hcall.settled, hcall.refused⟩

end Stamped

/-! ## Calls in a row -/

/-- Twice anything is even, also where the version wraps. -/
theorem even_of_twice {version : UInt64} {k : Nat} (h : version = .ofNat (2 * k)) :
    version % 2 = 0 := by
  rw [h, ← UInt64.toNat_inj]
  simp

/-- **The version counts the entries.** Between any two of any number of calls, if all calls so far
have ended, the version is twice the number of times that the lock was taken, up to wrapping, and
even. So no attempt fails: the next call takes one stamp at most, finds it as it was at both
checks, and keeps the lo that it has counted, or it goes for the lock without another attempt. A
call that is refused leaves the version where it was. -/
theorem version_counts_entries (S : Source σ ε) (kind : LockKind) (attempts : UInt32) (L : Layout)
    (n : Nat) (s : σ) :
    let cs := Generator.calls S kind n (.fresh (.stamped attempts) L) s
    let before (j : Nat) : Memory := Memory.fresh.after (cs.take j)
    ∀ j, (∀ c ∈ cs.take j, c.ending ≠ .unsettled) →
      (before j).version.toNat = 2 * acquisitions (actsOf (cs.take j)) % UInt64.size ∧
      (before j).version % 2 = 0 ∧
      ∀ c, cs[j]? = some c →
        (∃ acts, c.acts = .noted .entered :: acts ∧
          Stamped.Straight L (before j) attempts.toNat c.ending acts) ∧
        (c.ending = .failed .poisoned → c.generator.memory.version = (before j).version) := by
  intro cs before
  have hrow : ∀ j, (∀ c ∈ cs.take j, c.ending ≠ .unsettled) →
      (before j).version = .ofNat (2 * acquisitions (actsOf (cs.take j))) := by
    apply Generator.fresh_keeps (P := fun past m => (∀ c ∈ past, c.ending ≠ .unsettled) →
      m.version = .ofNat (2 * acquisitions (actsOf past)))
    · intro _
      rfl
    · intro past m s h c hsettled
      rw [List.forall_mem_append, List.forall_mem_singleton] at hsettled
      have hversion := h hsettled.1
      have hcall := (Stamped.call_straight attempts (even_of_twice hversion)).2.1 hsettled.2
      rw [actsOf_append, actsOf_singleton, acquisitions_append, Nat.mul_add, UInt64.ofNat_add,
        ← hversion]
      exact hcall
  intro j hsettled
  have hversion := hrow j hsettled
  have heven := even_of_twice hversion
  refine ⟨by rw [hversion]; exact UInt64.toNat_ofNat', heven, ?_⟩
  intro c hc
  obtain ⟨s', rfl⟩ := Generator.exists_call n hc
  exact ⟨(Stamped.call_straight attempts heven).1, (Stamped.call_straight attempts heven).2.2⟩

/-- With blocks of two: a failure, a hi value, a lo without the lock, a crash behind a reserved
value, and a call that is refused. The lock was taken three times. -/
theorem version_counts_entries_after_crash :
    let L : Layout := ⟨2, .hilo, by decide⟩
    let S : Source Nat Unit :=
      ⟨fun n => ([.failure (), .value 5, .value reserved, .crash "boom"][n]?.getD (.value 7),
          n + 1), fun _ => 2⟩
    let cs := Generator.calls S .poisoning 5 (.fresh (.stamped 3) L) 0
    let before (j : Nat) : Memory := Memory.fresh.after (cs.take j)
    (before 4).version.toNat = 6 ∧ (before 4).version % 2 = 0 ∧
      ∃ c, cs[4]? = some c ∧ c.ending = .failed .poisoned ∧
        c.generator.memory.version = (before 4).version := by
  intro L S cs before
  have hsettled : ∀ c ∈ cs.take 4, c.ending ≠ .unsettled := by decide +kernel
  obtain ⟨hversion, heven, hnext⟩ :=
    version_counts_entries S .poisoning 3 L 5 0 4 hsettled
  have hrefused := (hnext _ rfl).2 (by decide +kernel)
  exact ⟨hversion.trans (by decide +kernel), heven, _, rfl, by decide +kernel, hrefused⟩

end

end HiLo
