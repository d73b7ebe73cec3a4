/-
HiLo.Proofs.Orderly — how the calls of a shared generator use the lock.

A call is outside the lock, inside, or past it, and at each stage only some actions
are in order. Outside, lo is counted up only after a hi was seen. Inside, hi is set to
useful values only, and whoever moves lo sets a hi before the lock is released. A
call that was inside ends right after the release, and the release says whether it
ends in a crash.

`Orderly` is a property of the routine alone. What it means for the cells is shown
here for calls that nothing disturbs: the lock is spoiled exactly by a crash
(`Orderly.run_poisoned`), and lo moves by the counts of the call (`Orderly.run_lo`).
-/
import HiLo.Proofs.Check
import HiLo.Proofs.Draws
import HiLo.Proofs.Words

namespace HiLo

variable {σ ε : Type}

/-! ## Stages -/

/-- Where a call stands to the lock: outside, where it may have seen a hi; inside,
under a given hi, with lo as it was found or not; or past it, after a release in a
crash or not. -/
inductive Stage where
  | outside (seen : Bool)
  | inside (hi : Int64) (clean : Bool)
  | past (crashed : Bool)

/-- The rest of a call is in order at a stage. A strict design does not count lo up but
sets it to a number of the block, and may rely on finding such a number or the one
before the first; other designs never set lo but to zero. -/
inductive Orderly (L : Layout) (strict : Bool) : Stage → Routine ε → Prop where
  | note {st : Stage} {n : Note} {r : Routine ε} (rest : Orderly L strict st r) :
      Orderly L strict st (.note n r)
  | readVersion {seen : Bool} {f : UInt64 → Routine ε}
      (rest : ∀ v, Orderly L strict (.outside seen) (f v)) :
      Orderly L strict (.outside seen) (.readVersion f)
  | lookHi {seen : Bool} {f : Int64 → Routine ε}
      (none : Orderly L strict (.outside seen) (f reserved))
      (some : ∀ hi, hi ≠ reserved → Orderly L strict (.outside true) (f hi)) :
      Orderly L strict (.outside seen) (.readHi f)
  | countLo {f : Int64 → Routine ε} (may : strict = false)
      (rest : ∀ lo, Orderly L strict (.outside true) (f lo)) :
      Orderly L strict (.outside true) (.bumpLo f)
  | acquire {seen : Bool} {r : Routine ε} (rest : ∀ hi, Orderly L strict (.inside hi true) r) :
      Orderly L strict (.outside seen) (.acquire r)
  | finish {seen : Bool} {e : Ending ε} (sound : ∀ text, e ≠ .crashed text) :
      Orderly L strict (.outside seen) (.finish e)
  | readHi {hi : Int64} {clean : Bool} {f : Int64 → Routine ε}
      (rest : Orderly L strict (.inside hi clean) (f hi)) :
      Orderly L strict (.inside hi clean) (.readHi f)
  | readLo {hi : Int64} {clean : Bool} {f : Int64 → Routine ε} (may : strict = true)
      (rest : ∀ lo, -1 ≤ lo.toInt → lo.toInt < (L.size : Int) →
        Orderly L strict (.inside hi clean) (f lo)) :
      Orderly L strict (.inside hi clean) (.readLo f)
  | bumpLo {hi : Int64} {clean : Bool} {f : Int64 → Routine ε} (may : strict = false)
      (rest : ∀ lo, Orderly L strict (.inside hi false) (f lo)) :
      Orderly L strict (.inside hi clean) (.bumpLo f)
  | bumpVersion {hi : Int64} {clean : Bool} {r : Routine ε}
      (rest : Orderly L strict (.inside hi clean) r) :
      Orderly L strict (.inside hi clean) (.bumpVersion r)
  | writeHi {hi hi' : Int64} {clean : Bool} {r : Routine ε} (useful : hi' ≠ reserved)
      (rest : Orderly L strict (.inside hi' clean) r) :
      Orderly L strict (.inside hi clean) (.writeHi hi' r)
  | writeLo {hi lo : Int64} {clean : Bool} {r : Routine ε} (useful : hi ≠ reserved)
      (low : 0 ≤ lo.toInt) (high : lo.toInt < L.size) (zero : strict = false → lo = 0)
      (rest : Orderly L strict (.inside hi false) r) :
      Orderly L strict (.inside hi clean) (.writeLo lo r)
  | draw {hi : Int64} {clean : Bool} {f : Reply ε → Routine ε}
      (rest : ∀ r, r.isReserved = false → Orderly L strict (.inside hi clean) (f r)) :
      Orderly L strict (.inside hi clean) (.draw f)
  | release {hi : Int64} {clean crashed : Bool} {r : Routine ε}
      (useful : clean = true ∨ hi ≠ reserved) (rest : Orderly L strict (.past crashed) r) :
      Orderly L strict (.inside hi clean) (.release crashed r)
  | ended {crashed : Bool} {e : Ending ε} (told : (∃ text, e = .crashed text) ↔ crashed = true) :
      Orderly L strict (.past crashed) (.finish e)

/-! ## The designs are orderly -/

/-- Whether all calls of a design take the lock from beginning to end, so that lo never
leaves the block. -/
def Design.isStrict : Design → Bool
  | .locked => true
  | .plain | .optimistic _ | .stamped _ => false

section Designs

variable {L : Layout} {hi lo : Int64} {clean : Bool}

/-- Whoever draws is in order if adopting a hi and leaving without one is. -/
theorem Routine.drawThen_orderly {strict : Bool} {leave : Bool → Routine ε → Routine ε}
    {adopt : Int64 → Routine ε}
    (hleave : ∀ {crashed : Bool} {e : Ending ε}, ((∃ text, e = .crashed text) ↔ crashed = true) →
      Orderly L strict (.inside hi clean) (leave crashed (.finish e)))
    (hadopt : ∀ first, first ≠ reserved → Orderly L strict (.inside hi clean) (adopt first)) :
    Orderly L strict (.inside hi clean) (drawThen leave adopt) := by
  refine .draw fun r hr => ?_
  cases r with
  | value first => exact hadopt first (Reply.isReserved_value.mp hr)
  | failure cause => exact hleave (by simp)
  | crash text => exact hleave (by simp)

namespace Locked

theorem commit_orderly (hhi : hi ≠ reserved) (low : 0 ≤ lo.toInt) (high : lo.toInt < L.size)
    {hi' : Int64} :
    Orderly L true (.inside hi' clean) (commit hi lo : Routine ε) :=
  .writeHi hhi (.writeLo hhi low high nofun (.release (.inr hhi) (.ended (by simp))))

theorem drawThen_orderly {adopt : Int64 → Routine ε}
    (hadopt : ∀ first, first ≠ reserved → Orderly L true (.inside hi true) (adopt first)) :
    Orderly L true (.inside hi true) (drawThen adopt) :=
  Routine.drawThen_orderly (fun told => .release (.inl rfl) (.ended told)) hadopt

theorem work_orderly (hi : Int64) :
    Orderly L true (.inside hi true) (work L : Routine ε) := by
  have hsize := L.size_lt
  have zero_le : 0 ≤ (0 : Int64).toInt := Int.le_refl 0
  have zero_lt : (0 : Int64).toInt < L.size := Int.natCast_pos.mpr L.size_pos
  refine .readLo rfl fun last low high => ?_
  have hnext := toInt_add_one (x := last) (by omega)
  split
  · exact drawThen_orderly fun first hfirst =>
      .note (commit_orderly hfirst zero_le zero_lt)
  · next hinside =>
    rw [L.capacity_le] at hinside
    refine .readHi ?_
    split
    · exact drawThen_orderly fun first hfirst => commit_orderly hfirst (by omega) (by omega)
    · next hhi => exact commit_orderly hhi (by omega) (by omega)

theorem routine_orderly : Orderly L true (.outside false) (routine L : Routine ε) :=
  .note (.acquire work_orderly)

end Locked

namespace Check

variable (c : Check)

theorem leave_orderly {crashed : Bool} {rest : Routine ε} (useful : clean = true ∨ hi ≠ reserved)
    (hrest : Orderly L false (.past crashed) rest) :
    Orderly L false (.inside hi clean) (c.leave crashed rest) := by
  cases c with
  | reread => exact .release useful hrest
  | version => exact .bumpVersion (.release useful hrest)

theorem drawThen_orderly {adopt : Int64 → Routine ε} (useful : clean = true ∨ hi ≠ reserved)
    (hadopt : ∀ first, first ≠ reserved → Orderly L false (.inside hi clean) (adopt first)) :
    Orderly L false (.inside hi clean) (c.drawThen adopt) :=
  Routine.drawThen_orderly (fun told => c.leave_orderly useful (.ended told)) hadopt

theorem work_orderly (hi : Int64) : Orderly L false (.inside hi true) (c.work L : Routine ε) := by
  refine .readHi ?_
  split
  · exact c.drawThen_orderly (.inl rfl) fun first hfirst =>
      .bumpLo rfl fun lo =>
        .writeHi hfirst (c.leave_orderly (.inr hfirst) (.note (.ended (by simp))))
  · next hhi =>
    refine .bumpLo rfl fun lo => ?_
    split
    · exact c.drawThen_orderly (.inr hhi) fun next hnext =>
        .writeHi hnext (.writeLo hnext (Int.le_refl 0) (Int.natCast_pos.mpr L.size_pos)
          (fun _ => rfl) (.note (c.leave_orderly (.inr hnext) (.ended (by simp)))))
    · exact c.leave_orderly (.inr hhi) (.ended (by simp))

theorem exclusive_orderly {seen : Bool} :
    Orderly L false (.outside seen) (c.exclusive L : Routine ε) := by
  refine .acquire fun hi => ?_
  cases c with
  | reread => exact work_orderly _ hi
  | version => exact .bumpVersion (work_orderly _ hi)

end Check

theorem Optimistic.attempt_orderly (n : Nat) :
    ∀ {seen : Bool}, Orderly L false (.outside seen) (attempt L n : Routine ε) := by
  induction n with
  | zero => exact Check.reread.exclusive_orderly
  | succ n ih =>
    intro seen
    rw [attempt_succ]
    refine .lookHi ?_ fun hi hhi => ?_
    · rw [if_pos rfl]
      exact Check.reread.exclusive_orderly
    · rw [if_neg hhi]
      refine .countLo rfl fun lo => ?_
      split
      · exact Check.reread.exclusive_orderly
      · refine .lookHi ?_ fun again _ => ?_
        · rw [if_neg (Ne.symm hhi)]
          exact ih
        · split
          · exact .finish nofun
          · exact ih

theorem Stamped.attempt_orderly (n : Nat) :
    ∀ {seen : Bool}, Orderly L false (.outside seen) (attempt L n : Routine ε) := by
  induction n with
  | zero => exact Check.version.exclusive_orderly
  | succ n ih =>
    intro seen
    rw [attempt_succ]
    refine .readVersion fun stamp => ?_
    split
    · exact ih
    · refine .lookHi ?_ fun hi hhi => ?_
      · rw [if_pos rfl]
        exact Check.version.exclusive_orderly
      · rw [if_neg hhi]
        refine .readVersion fun before => ?_
        split
        · exact ih
        · refine .countLo rfl fun lo => ?_
          split
          · exact Check.version.exclusive_orderly
          · refine .readVersion fun later => ?_
            split
            · exact .finish nofun
            · exact ih

/-- **The calls of every shared design are orderly.** -/
theorem Design.routine_orderly {d : Design} (shared : d.isShared = true) :
    Orderly L d.isStrict (.outside false) (d.routine L : Routine ε) := by
  cases d with
  | plain => cases shared
  | locked => exact Locked.routine_orderly
  | optimistic attempts => exact .note (Optimistic.attempt_orderly _)
  | stamped attempts => exact .note (Stamped.attempt_orderly _)

end Designs

/-! ## Undisturbed calls -/

def Ending.isCrash : Ending ε → Bool
  | .crashed _ => true
  | _ => false

theorem Ending.isCrash_iff {e : Ending ε} : e.isCrash = true ↔ ∃ text, e = .crashed text := by
  cases e <;> simp [isCrash]

def Act.isBump : Act ε → Bool
  | .bumpedLo _ => true
  | _ => false

/-- How often lo was counted up. -/
def bumps (acts : List (Act ε)) : Nat := acts.countP Act.isBump

theorem bumps_append (acts acts' : List (Act ε)) :
    bumps (acts ++ acts') = bumps acts + bumps acts' :=
  List.countP_append

theorem bumps_cons_bumpedLo (lo : Int64) (acts : List (Act ε)) :
    bumps (.bumpedLo lo :: acts) = bumps acts + 1 :=
  List.countP_cons_of_pos rfl

theorem bumps_draw (d : Draw σ ε) : bumps d.acts = 0 := by
  have hskipped : (List.replicate d.skipped (Act.asked (.value reserved : Reply ε))).countP
      Act.isBump = 0 := by
    simp [List.countP_replicate, Act.isBump]
  unfold bumps Draw.acts
  rw [List.countP_append, hskipped]
  cases d.reply <;> rfl

/-- How far `n` counts can move lo: past `n`, or to the end of the block if the design is
strict. -/
def Layout.reach (L : Layout) (strict : Bool) (n : Nat) : Nat := if strict then L.size else n + 1

theorem Layout.reach_lt (L : Layout) (strict : Bool) {n : Nat} (room : n + 1 < 2 ^ 63) :
    L.reach strict n < 2 ^ 63 := by
  cases strict with
  | true => exact L.size_lt
  | false => exact room

theorem Layout.reach_pos (L : Layout) (strict : Bool) (n : Nat) : 0 < L.reach strict n := by
  cases strict with
  | true => exact L.size_pos
  | false => exact Nat.succ_pos n

/-- Where lo may be: in the block or just before it, or at most at `n` if the design is
not strict. -/
structure Ranged (L : Layout) (strict : Bool) (n : Nat) (lo : Int64) : Prop where
  low : -1 ≤ lo.toInt
  high : lo.toInt < (L.reach strict n : Nat)

namespace Ranged

variable {L : Layout} {strict : Bool} {n : Nat} {lo : Int64}

/-- A new generator has its lo just before the block. -/
theorem fresh (L : Layout) (strict : Bool) (n : Nat) : Ranged L strict n (-1) :=
  ⟨Int.le_refl _, show (-1 : Int) < (L.reach strict n : Nat) by omega⟩

theorem bump (h : Ranged L strict n lo) (may : strict = false) (room : n < 2 ^ 62) :
    Ranged L strict (n + 1) (lo + 1) := by
  subst may
  have hlow := h.low
  have hhigh : lo.toInt < (n + 1 : Nat) := h.high
  have hnext := toInt_add_one (x := lo) (by omega)
  exact ⟨by omega, show (lo + 1).toInt < (n + 1 + 1 : Nat) by omega⟩

theorem set (low : 0 ≤ lo.toInt) (high : lo.toInt < L.size) (zero : strict = false → lo = 0) :
    Ranged L strict n lo := by
  refine ⟨by omega, ?_⟩
  cases strict with
  | true => exact high
  | false =>
    rw [zero rfl]
    exact Int.natCast_pos.mpr (Nat.succ_pos n)

end Ranged

/-- The cells are those of a call at a stage, and the lock is as sound as it should
be: a crash may have spoiled it once it was released. -/
def Stage.Sound (kind : LockKind) (m : Memory) : Stage → Prop
  | .outside _ => m.poisoned = false
  | .inside hi _ => m.hi = hi ∧ m.poisoned = false
  | .past crashed => m.poisoned = (crashed && kind == .poisoning)

namespace Orderly

variable {L : Layout} {strict : Bool} {st : Stage} {r : Routine ε}

/-- **A lock is spoiled by a crash, and by nothing else.** -/
theorem run_poisoned (h : Orderly L strict st r) (S : Source σ ε) (kind : LockKind) :
    ∀ (m : Memory) (s : σ), st.Sound kind m → (strict = true → Ranged L true 0 m.lo) →
      (r.run S kind m s).memory.poisoned
        = ((r.run S kind m s).ending.isCrash && kind == .poisoning) := by
  induction h with
  | note _ ih => exact fun m s hm hlo => ih m s hm hlo
  | readVersion _ ih => exact fun m s hm hlo => ih m.version m s hm hlo
  | lookHi _ _ ihnone ihsome =>
    intro m s hm hlo
    by_cases hhi : m.hi = reserved
    · simp only [Routine.run, Performed.prepend, hhi]
      exact ihnone m s hm hlo
    · exact ihsome m.hi hhi m s hm hlo
  | countLo may _ ih => exact fun m s hm _ => ih _ _ s hm (by simp [may])
  | acquire _ ih =>
    intro m s hm hlo
    simp only [Routine.run, show m.poisoned = false from hm]
    exact ih m.hi m s ⟨rfl, hm⟩ hlo
  | @finish _ e sound =>
    intro m s hm _
    have he : e.isCrash = false := by
      rw [Bool.eq_false_iff, ne_eq, Ending.isCrash_iff]
      rintro ⟨text, htext⟩
      exact sound text htext
    exact Eq.trans hm (by simp [Routine.run, he])
  | readHi _ ih =>
    rintro m s ⟨rfl, hm⟩ hlo
    exact ih m s ⟨rfl, hm⟩ hlo
  | readLo may _ ih => exact fun m s hm hlo => ih m.lo (hlo may).1 (hlo may).2 m s hm hlo
  | bumpLo may _ ih => exact fun m s hm _ => ih _ _ s hm (by simp [may])
  | bumpVersion _ ih => exact fun m s hm hlo => ih _ s hm hlo
  | writeHi _ _ ih => exact fun m s hm hlo => ih _ s ⟨rfl, hm.2⟩ hlo
  | writeLo _ low high _ _ ih =>
    exact fun m s hm _ => ih _ s hm fun _ => ⟨Int.le_trans (by decide) low, high⟩
  | draw _ ih =>
    intro m s hm hlo
    simp only [Routine.run]
    cases hr : (S.draw s).reply with
    | none => simpa [Ending.isCrash] using hm.2
    | some r => exact ih r (Source.draw_some hr).2.2 m _ hm hlo
  | release _ _ ih =>
    rintro m s ⟨-, hm⟩ hlo
    exact ih _ s (by simp [Stage.Sound, Memory.released, hm]) hlo
  | @ended crashed e told =>
    intro m s hm _
    have he : e.isCrash = crashed := by
      rw [Bool.eq_iff_iff, Ending.isCrash_iff, told]
    exact Eq.trans hm (by simp [Routine.run, he])

/-- **Lo moves by the counts of a call at most**, as long as they cannot wrap. -/
theorem run_lo (h : Orderly L strict st r) (S : Source σ ε) (kind : LockKind) :
    ∀ {n : Nat} {m : Memory} {s : σ}, (∀ hi clean, st = .inside hi clean → m.hi = hi) →
      Ranged L strict n m.lo → (strict = false → n + bumps (r.run S kind m s).acts < 2 ^ 62) →
      Ranged L strict (n + bumps (r.run S kind m s).acts) (r.run S kind m s).memory.lo := by
  have outside : ∀ {seen : Bool} {m : Memory} (hi : Int64) (clean : Bool),
      Stage.outside seen = .inside hi clean → m.hi = hi := nofun
  have past : ∀ {crashed : Bool} {m : Memory} (hi : Int64) (clean : Bool),
      Stage.past crashed = .inside hi clean → m.hi = hi := nofun
  induction h with
  | note _ ih => exact fun hm hlo room => ih hm hlo room
  | readVersion _ ih => exact fun hm hlo room => ih _ hm hlo room
  | lookHi _ _ ihnone ihsome =>
    intro n m s _ hlo room
    by_cases hhi : m.hi = reserved
    · simp only [Routine.run, Performed.prepend, hhi] at room ⊢
      exact ihnone outside hlo room
    · exact ihsome m.hi hhi outside hlo room
  | countLo may _ ih =>
    intro n m s _ hlo room
    rw [Routine.run, Performed.prepend, bumps_cons_bumpedLo, ← Nat.add_assoc,
      Nat.add_right_comm] at room ⊢
    exact ih _ outside (hlo.bump may (by have := room may; omega)) room
  | acquire _ ih =>
    intro n m s _ hlo room
    simp only [Routine.run] at room ⊢
    split at room
    · next hm =>
      rw [if_pos hm]
      exact hlo
    · next hm =>
      rw [if_neg hm]
      exact ih m.hi (fun _ _ h => (Stage.inside.inj h).1) hlo room
  | finish _ => exact fun _ hlo _ => hlo
  | readHi _ ih =>
    intro n m s hm hlo room
    obtain rfl := hm _ _ rfl
    exact ih hm hlo room
  | readLo may _ ih =>
    intro n m s hm hlo room
    subst may
    exact ih m.lo hlo.low hlo.high hm hlo room
  | bumpLo may _ ih =>
    intro n m s hm hlo room
    rw [Routine.run, Performed.prepend, bumps_cons_bumpedLo, ← Nat.add_assoc,
      Nat.add_right_comm] at room ⊢
    refine ih _ (fun _ _ h => ?_) (hlo.bump may (by have := room may; omega)) room
    exact hm _ _ (by rw [(Stage.inside.inj h).1])
  | bumpVersion _ ih => exact fun hm hlo room => ih hm hlo room
  | writeHi _ _ ih => exact fun _ hlo room => ih (fun _ _ h => (Stage.inside.inj h).1) hlo room
  | @writeLo hi lo _ _ _ low high zero _ ih =>
    intro n m s hm hlo room
    refine ih (fun _ _ h => ?_) (.set low high zero) room
    exact hm _ _ (by rw [(Stage.inside.inj h).1])
  | draw _ ih =>
    intro n m s hm hlo room
    simp only [Routine.run] at room ⊢
    cases hr : (S.draw s).reply with
    | none =>
      simp only [bumps_draw, hr] at room ⊢
      exact hlo
    | some r =>
      simp only [hr, bumps_append, bumps_draw, Nat.zero_add] at room ⊢
      exact ih r (Source.draw_some hr).2.2 hm hlo room
  | release _ _ ih => exact fun _ hlo room => ih past hlo room
  | ended _ => exact fun _ hlo _ => hlo

/-- In a strict design lo stays in its block. -/
theorem run_strict (h : Orderly L true st r) (S : Source σ ε) (kind : LockKind) {m : Memory}
    (s : σ) (hm : ∀ hi clean, st = .inside hi clean → m.hi = hi) (hlo : Ranged L true 0 m.lo) :
    Ranged L true 0 (r.run S kind m s).memory.lo := by
  have hrun := h.run_lo S kind (s := s) hm hlo nofun
  exact ⟨hrun.low, hrun.high⟩

/-- A call that comes to a spoiled lock asks nothing. -/
theorem run_silent (h : Orderly L strict st r) (S : Source σ ε) (kind : LockKind) :
    ∀ (m : Memory) (s : σ), (∃ seen, st = .outside seen) → m.poisoned = true →
      (r.run S kind m s).acts.filterMap Act.answer? = [] := by
  induction h with
  | note _ ih => exact ih
  | readVersion _ ih => exact fun m s _ hm => ih m.version m s ⟨_, rfl⟩ hm
  | lookHi _ _ ihnone ihsome =>
    intro m s _ hm
    by_cases hhi : m.hi = reserved
    · simp only [Routine.run, Performed.prepend, hhi]
      exact ihnone m s ⟨_, rfl⟩ hm
    · exact ihsome m.hi hhi m s ⟨_, rfl⟩ hm
  | countLo _ _ ih => exact fun m s _ hm => ih _ { m with lo := m.lo + 1 } s ⟨_, rfl⟩ hm
  | acquire =>
    intro m s _ hm
    simp [Routine.run, hm, Act.answer?]
  | finish => exact fun _ _ _ _ => rfl
  | ended => exact fun _ _ _ _ => rfl
  | _ =>
    rintro _ _ ⟨_, hst⟩
    cases hst

end Orderly

end HiLo
