/-
HiLo.Proofs.Atomicity — both cells or none.

A plain generator, and one with the lock around the whole call, look at lo once in a
call and set hi and lo together, once a hi value is at hand. So there are two states
between calls (`Seated`): no hi, with lo where it was at first, or the last usable hi
value that the source has answered, with a lo inside its block. In both of them one
more than lo is a word, whatever the capacity, every claimed pair passes the checks of
the composition, and what keeps a call from a hi value leaves both cells as they were
(`counting_takes_both_or_none`).

`Careful` is what one call does. The hi value between calls is the one that the reports
tell of (`Chronicle`), and nothing here bounds the number of calls.
-/
import HiLo.Proofs.Reports

namespace HiLo

variable {σ ε : Type}

/-! ## Between calls -/

/-- The cells between calls, after some usable hi values were answered. -/
inductive Seated (L : Layout) (his : List Int64) (m : Memory) : Prop where
  | empty (none : his = []) (hi : m.hi = reserved) (lo : m.lo = -1)
  | block (last : his.getLast? = some m.hi) (useful : m.hi ≠ reserved) (nonneg : 0 ≤ m.lo)
      (inside : m.lo < L.capacity)

/-- A hi value comes with a lo inside its block. -/
def Inside (L : Layout) (m : Memory) : Prop := m.hi ≠ reserved → 0 ≤ m.lo ∧ m.lo < L.capacity

variable {L : Layout} {m : Memory}

/-- One more than a lo inside a block is a word, also at the largest capacity. -/
theorem Layout.toInt_succ {lo : Int64} (inside : lo < L.capacity) :
    (lo + 1).toInt = lo.toInt + 1 := by
  have hsize := L.size_lt
  rw [Int64.lt_iff_toInt_lt, L.capacity_toInt] at inside
  exact toInt_add_one (by omega)

theorem Seated.toInt_succ {his : List Int64} (h : Seated L his m) :
    (m.lo + 1).toInt = m.lo.toInt + 1 := by
  cases h with
  | empty _ _ lo =>
    rw [lo]
    rfl
  | block _ _ _ inside => exact L.toInt_succ inside

theorem Chronicle.seated {d : Design} {past : List (Called σ ε)} (h : Chronicle d past m)
    (inside : Inside L m) : Seated L (usables (actsOf past)) m := by
  have hhi := h.hi
  cases hlast : (usables (actsOf past)).getLast? with
  | none =>
    rw [hlast] at hhi
    exact .empty (List.getLast?_eq_none_iff.mp hlast) hhi (h.untouched hhi)
  | some last =>
    rw [hlast, Option.getD_some] at hhi
    have huseful : m.hi ≠ reserved := by
      rw [hhi]
      exact ne_reserved_of_mem_usables (List.mem_of_getLast? hlast)
    have hinside := inside huseful
    exact .block (hhi ▸ hlast) huseful hinside.1 hinside.2

/-! ## What a call does to the cells -/

def Ending.isClaimed : Ending ε → Bool
  | .claimed _ _ => true
  | _ => false

def Act.seenLo? : Act ε → Option Int64
  | .sawLo lo => some lo
  | _ => none

/-- From given cells to others, a call takes none of hi and lo and claims nothing, or takes both and
claims them. -/
inductive Commits (L : Layout) (m : Memory) (e : Ending ε) (m' : Memory) : Prop where
  | neither (vain : e.isClaimed = false) (hi : m'.hi = m.hi) (lo : m'.lo = m.lo)
  | both (claimed : e = .claimed m'.hi m'.lo) (useful : m'.hi ≠ reserved) (nonneg : 0 ≤ m'.lo)
      (inside : m'.lo < L.capacity)

/-- A call looks at no lo but the one that it has found, and takes both cells or none. -/
structure Careful (L : Layout) (m : Memory) (p : Performed σ ε) : Prop where
  looks : ∀ last ∈ p.acts.filterMap Act.seenLo?, last = m.lo
  commits : Commits L m p.ending p.memory

section Calls

variable {S : Source σ ε} {kind : LockKind} {s : σ} {hi lo : Int64} {p : Performed σ ε}

namespace Careful

theorem prepend {a : Act ε} (other : a.seenLo? = none) (h : Careful L m p) :
    Careful L m (p.prepend a) := by
  refine ⟨?_, h.commits⟩
  rw [Performed.prepend, List.filterMap_cons_none other]
  exact h.looks

/-- A look at the lo that was found. -/
theorem look (h : Careful L m p) : Careful L m (p.prepend (.sawLo m.lo)) := by
  refine ⟨?_, h.commits⟩
  intro last hlast
  rcases List.mem_cons.mp hlast with heq | hrest
  · exact heq
  · exact h.looks last hrest

/-- At a lock that is spoiled a call takes nothing. -/
theorem acquire {rest : Routine ε} (h : Careful L m (rest.run S kind m s)) :
    Careful L m ((Routine.acquire rest).run S kind m s) := by
  simp only [Routine.run]
  split
  · exact ⟨by simp [Act.seenLo?], .neither rfl rfl rfl⟩
  · exact h.prepend rfl

end Careful

/-- Quitting takes nothing. -/
theorem Quits.careful {e : Ending ε} {r : Routine ε} (h : Quits e r)
    (vain : e.isClaimed = false) :
    ∀ (m' : Memory) (s : σ), m'.hi = m.hi → m'.lo = m.lo → Careful L m (r.run S kind m' s) := by
  induction h with
  | finish =>
    intro m' s hhi hlo
    exact ⟨by simp [Routine.run], .neither vain hhi hlo⟩
  | release _ ih =>
    intro m' s hhi hlo
    exact (ih (m'.released kind _) s hhi hlo).prepend rfl
  | bumpVersion _ ih =>
    intro m' s hhi hlo
    exact (ih { m' with version := m'.version + 1 } s hhi hlo).prepend rfl

/-- **Without a hi value a draw takes nothing**, however many reserved values came first. -/
theorem DrawsFor.careful {adopt : Int64 → Routine ε} {r : Routine ε} (h : DrawsFor adopt r)
    (value : ∀ first s, first ≠ reserved → Careful L m ((adopt first).run S kind m s)) :
    Careful L m (r.run S kind m s) := by
  obtain ⟨f, rfl, hvalue, hfailure, hcrash⟩ := h.exists_rest
  have hasks : (S.draw s).acts.filterMap Act.seenLo? = [] := by
    rw [List.filterMap_eq_nil_iff]
    intro a ha
    obtain ⟨r, rfl⟩ := Draw.exists_of_mem_acts ha
    rfl
  have hrest : ∀ r s', r.isReserved = false → Careful L m ((f r).run S kind m s') := by
    intro r s' hother
    cases r with
    | value first =>
      rw [hvalue]
      exact value first s' (Reply.isReserved_value.mp hother)
    | failure cause => exact (hfailure cause).careful rfl m s' rfl rfl
    | crash text => exact (hcrash text).careful rfl m s' rfl rfl
  simp only [Routine.run]
  cases hr : (S.draw s).reply with
  | none => exact ⟨by simp [hasks], .neither rfl rfl rfl⟩
  | some r =>
    have hcareful := hrest r (S.draw s).state (Source.draw_some hr).2.2
    refine ⟨?_, hcareful.commits⟩
    rw [List.filterMap_append, hasks, List.nil_append]
    exact hcareful.looks

/-! ## Calls that count -/

theorem Plain.commit_careful (useful : hi ≠ reserved) (nonneg : 0 ≤ lo) (inside : lo < L.capacity) :
    Careful L m ((Plain.commit hi lo : Routine ε).run S kind m s) := by
  constructor
  · simp [Plain.commit, Plain.leave, Routine.commit, Routine.run, Performed.prepend, Act.seenLo?]
  · exact .both rfl useful nonneg inside

theorem Locked.commit_careful (useful : hi ≠ reserved) (nonneg : 0 ≤ lo)
    (inside : lo < L.capacity) :
    Careful L m ((Locked.commit hi lo : Routine ε).run S kind m s) := by
  constructor
  · simp [Locked.commit, Routine.commit, Routine.run, Performed.prepend, Act.seenLo?]
  · exact .both rfl useful nonneg inside

/-- With a hi, the next lo is inside the block unless the block is used up. -/
theorem Inside.next_nonneg (h : Inside L m) (some : m.hi ≠ reserved) : 0 ≤ m.lo + 1 := by
  obtain ⟨hnonneg, hinside⟩ := h some
  rw [Int64.le_iff_toInt_le] at hnonneg ⊢
  rw [L.toInt_succ hinside]
  omega

/-- Whoever counts on is careful, if drawing and committing are. -/
theorem Routine.countOn_careful {spent : Routine ε} {first : Int64 → Routine ε}
    {commit : Int64 → Int64 → Routine ε} (untouched : m.hi = reserved → m.lo = -1)
    (inside : Inside L m) (hspent : Careful L m (spent.run S kind m s))
    (hfirst : Careful L m ((first 0).run S kind m s))
    (hcommit : ∀ {lo}, m.hi ≠ reserved → 0 ≤ lo → lo < L.capacity →
      Careful L m ((commit m.hi lo).run S kind m s)) :
    Careful L m ((countOn L spent first commit).run S kind m s) := by
  apply countOn_of (P := Careful L m) untouched
  · intro hsome
    exact hspent.look
  · intro hnone
    exact (hfirst.prepend rfl).look
  · intro hsome hnext
    exact ((hcommit hsome (inside.next_nonneg hsome) hnext).prepend rfl).look

/-- **A call of a design without attempts is careful.** -/
theorem Design.routine_careful {d : Design} (counting : d = .plain ∨ d = .locked)
    (untouched : m.hi = reserved → m.lo = -1) (inside : Inside L m) :
    Careful L m ((d.routine L : Routine ε).run S kind m s) := by
  have hstart : (0 : Int64) ≤ 0 := Int64.le_refl 0
  rcases counting with rfl | rfl
  · have hdraw : Careful L m ((Plain.drawFor 0 : Routine ε).run S kind m s) := by
      apply (DrawsFor.plain 0).careful
      intro first s hfirst
      exact Plain.commit_careful hfirst hstart L.positive
    exact (Routine.countOn_careful untouched inside hdraw hdraw Plain.commit_careful).prepend rfl
  · have hspent : Careful L m ((Locked.rollover : Routine ε).run S kind m s) := by
      apply (DrawsFor.locked _).careful
      intro first s hfirst
      exact (Locked.commit_careful hfirst hstart L.positive).prepend rfl
    have hfirst :
        Careful L m ((Locked.drawThen (Locked.commit · 0) : Routine ε).run S kind m s) := by
      apply (DrawsFor.locked _).careful
      intro first s hfirst
      exact Locked.commit_careful hfirst hstart L.positive
    have hwork : Careful L m ((Locked.work L : Routine ε).run S kind m s) :=
      Routine.countOn_careful untouched inside hspent hfirst Locked.commit_careful
    exact hwork.acquire.prepend rfl

/-! ## Calls in a row -/

/-- A call that takes both cells or none keeps lo inside the block. -/
theorem Commits.inside {e : Ending ε} {m' : Memory} (h : Commits L m e m') (inside : Inside L m) :
    Inside L m' := by
  intro huseful
  cases h with
  | neither vain hi lo =>
    rw [lo]
    exact inside (hi ▸ huseful)
  | both claimed useful nonneg inside => exact ⟨nonneg, inside⟩

/-- The composition never finds fault with a pair that was taken. -/
theorem Commits.outcome_ne_misuse {e : Ending ε} {m' : Memory} (h : Commits L m e m') (x : Misuse) :
    e.outcome L ≠ .crashed (.misuse x) := by
  cases h with
  | neither vain hi lo =>
    intro h
    cases e with
    | claimed hi lo => cases vain
    | _ => cases h
  | both claimed useful nonneg inside =>
    rw [claimed, Ending.outcome, L.compose_eq_ok useful nonneg inside]
    intro h
    cases h

/-- A call that returns no identifier has taken nothing. -/
theorem Commits.kept {e : Ending ε} {m' : Memory} (h : Commits L m e m')
    (vain : (e.outcome L).id? = none) : m'.hi = m.hi ∧ m'.lo = m.lo := by
  cases h with
  | neither vain hi lo => exact ⟨hi, lo⟩
  | both claimed useful nonneg inside =>
    rw [claimed, Ending.outcome, L.compose_eq_ok useful nonneg inside] at vain
    cases vain

/-- **Both cells or none.** Between any two of any number of calls, there is either no hi and lo is
where it was at first, or the last usable hi value that the source has answered is in place with a
lo inside its block. So one more than lo never overflows, neither between calls nor where a call
computes it, and no pair fails the checks of the composition. A call whose last answer is a failure
or a crash ends so, and a call that returns no identifier leaves hi and lo as they were. -/
theorem counting_takes_both_or_none (S : Source σ ε) (kind : LockKind) {d : Design}
    (counting : d = .plain ∨ d = .locked) (L : Layout) (n : Nat) (s : σ) :
    let cs := Generator.calls S kind n (.fresh d L) s
    let before (j : Nat) : Memory := Memory.fresh.after (cs.take j)
    (∀ j, Seated L (usables (actsOf (cs.take j))) (before j) ∧
      ((before j).lo + 1).toInt = (before j).lo.toInt + 1) ∧
    ∀ j c, cs[j]? = some c →
      (∀ last, .sawLo last ∈ c.acts → (last + 1).toInt = last.toInt + 1) ∧
      (∀ x, c.outcome ≠ .crashed (.misuse x)) ∧
      (∀ cause, .asked (.failure cause) ∈ c.acts → c.outcome = .failed (.source cause)) ∧
      (∀ text, .asked (.crash text) ∈ c.acts → c.outcome = .crashed (.source text)) ∧
      (c.outcome.id? = none →
        c.generator.memory.hi = (before j).hi ∧ c.generator.memory.lo = (before j).lo) := by
  intro cs before
  have hrow : ∀ j, Chronicle d (cs.take j) (before j) ∧ Inside L (before j) := by
    apply Generator.fresh_keeps (P := fun past m => Chronicle d past m ∧ Inside L m)
    · exact ⟨.fresh d, fun h => absurd rfl h⟩
    · intro past m s h
      have hcareful : Careful L m ((d.routine L).run S kind m s) :=
        d.routine_careful counting h.1.untouched h.2
      exact ⟨h.1.call.1, hcareful.commits.inside h.2⟩
  have hseated : ∀ j, Seated L (usables (actsOf (cs.take j))) (before j) := by
    intro j
    exact (hrow j).1.seated (hrow j).2
  refine ⟨fun j => ⟨hseated j, (hseated j).toInt_succ⟩, ?_⟩
  intro j c hc
  obtain ⟨s', rfl⟩ := Generator.exists_call n hc
  have huntouched := (hrow j).1.untouched
  have hcareful : Careful L (before j) ((d.routine L).run S kind (before j) s') :=
    d.routine_careful counting huntouched (hrow j).2
  refine ⟨?_, hcareful.commits.outcome_ne_misuse, ?_, ?_, hcareful.commits.kept⟩
  · intro last hlast
    rw [hcareful.looks last (List.mem_filterMap.mpr ⟨_, hlast, rfl⟩)]
    exact (hseated j).toInt_succ
  · intro cause hcause
    exact congrArg (Ending.outcome L) (d.routine_ending huntouched hcause rfl)
  · intro text htext
    exact congrArg (Ending.outcome L) (d.routine_ending huntouched htext rfl)

/-- With blocks of one, a failure, a hi value and a crash behind a reserved value: the crash leaves
the hi value in place, with the only lo of its block. -/
theorem counting_takes_both_or_none_in_crash :
    let L : Layout := ⟨1, .hilo, by decide⟩
    let S : Source Nat Unit :=
      ⟨fun n => ([.failure (), .value 5, .value reserved, .crash "boom"][n]?.getD (.value 7),
          n + 1), fun _ => 2⟩
    let cs := Generator.calls S .forgiving 4 (.fresh .locked L) 0
    ∃ c, cs[2]? = some c ∧ c.outcome = .crashed (.source "boom") ∧
      usables (actsOf (cs.take 2)) = [5] ∧
      c.generator.memory.hi = 5 ∧ c.generator.memory.lo = 0 := by
  intro L S cs
  have hcounting := counting_takes_both_or_none S .forgiving (.inr rfl) L 4 0
  obtain ⟨-, -, -, hcrash, hkept⟩ := hcounting.2 2 _ rfl
  have hcrashed := hcrash "boom" (by decide +kernel)
  have hcells := hkept (by rw [hcrashed]; rfl)
  exact ⟨_, rfl, hcrashed, by decide +kernel, hcells.1.trans (by decide +kernel),
    hcells.2.trans (by decide +kernel)⟩

end Calls

end HiLo
