/-
HiLo.Proofs.Rollover — the source is asked only when nothing is left.

A call that has seen a hi counts lo up without the lock, so whoever holds the lock decides
from a lo that others keep moving. Still, the source is never asked too early. Every lo of
a block is claimed once before the next block begins: `Filled` says this with the count of
each claim. Between the two stores of a rollover the new block has no claims yet and lo is
still past the old one; then others may count, but nothing that they count is inside.

`Thrifty` is what a routine has to keep to, and `Sparing.run` follows an interleaving
of any length, whatever the source answers.
-/
import HiLo.Proofs.Interleaving
import HiLo.Proofs.Steps
import Mathlib.Data.List.Nodup

namespace HiLo

variable {σ ε : Type}

/-! ## Claims by the block -/

/-- Every lo of the blocks before the current one was claimed once, and of the current
block every lo up to `top`, and nothing else. -/
def Filled (L : Layout) (g : Ledger) (top : Int64) : Prop :=
  ∀ b lo, 0 ≤ lo → lo < L.capacity →
    g.issued.count (b, lo) = if b < g.block ∨ b = g.block ∧ lo ≤ top then 1 else 0

namespace Filled

variable {L : Layout} {g g' : Ledger} {top lo hi : Int64}

theorem blank (L : Layout) : Filled L .blank (-1) := by
  intro b lo hlo _
  have hneg : ¬ lo ≤ -1 := Int64.not_le.mpr (Int64.lt_of_lt_of_le (by decide) hlo)
  rw [if_neg]
  · rfl
  · rintro (hb | ⟨-, hle⟩)
    · exact Nat.not_lt_zero b hb
    · exact hneg hle

theorem congr (h : Filled L g top) (adopted : g'.adopted = g.adopted)
    (issued : g'.issued = g.issued) : Filled L g' top := by
  intro b lo hlo inside
  rw [issued, Ledger.block, adopted]
  exact h b lo hlo inside

/-- The next lo is claimed. -/
theorem claim (h : Filled L g top) (i : Nat) (room : top.toInt + 1 < 2 ^ 63) :
    Filled L (g.claim L i (top + 1)) (top + 1) := by
  have hnext := toInt_add_one room
  intro b lo hlo inside
  have hold := h b lo hlo inside
  by_cases hin : top + 1 < L.capacity
  · have hissued : (g.claim L i (top + 1)).issued = (g.block, top + 1) :: g.issued := if_pos hin
    rw [hissued]
    by_cases hnew : (g.block, top + 1) = (b, lo)
    · obtain ⟨rfl, rfl⟩ := Prod.mk.inj hnew
      have hbefore : ¬ (top + 1 ≤ top) := by
        rw [Int64.le_iff_toInt_le]
        omega
      rw [List.count_cons_self, hold, if_neg (by simp [hbefore]),
        if_pos (.inr ⟨rfl, Int64.le_refl _⟩)]
    · have hle : b = g.block → (lo ≤ top ↔ lo ≤ top + 1) := by
        rintro rfl
        have hne : lo.toInt ≠ top.toInt + 1 := fun heq =>
          hnew (by rw [Int64.toInt.inj (heq.trans hnext.symm)])
        rw [Int64.le_iff_toInt_le, Int64.le_iff_toInt_le, hnext]
        omega
      rw [List.count_cons_of_ne hnew, hold]
      exact if_congr (or_congr_right (and_congr_right hle)) rfl rfl
  · -- past the block nothing is issued, and every lo of the block is below
    have hissued : (g.claim L i (top + 1)).issued = g.issued := if_neg hin
    rw [Int64.not_lt, Int64.le_iff_toInt_le, hnext] at hin
    rw [Int64.lt_iff_toInt_lt] at inside
    have hle : lo ≤ top ↔ lo ≤ top + 1 := by
      rw [Int64.le_iff_toInt_le, Int64.le_iff_toInt_le, hnext]
      omega
    rw [hissued, hold]
    exact if_congr (or_congr_right (and_congr_right fun _ => hle)) rfl rfl

/-- A lo past the block is no claim of the block. -/
theorem claim_beyond (h : Filled L g top) (i : Nat) (beyond : L.capacity ≤ lo) :
    Filled L (g.claim L i lo) top :=
  h.congr rfl (if_neg (Int64.not_lt.mpr beyond))

/-- Before any hi was adopted, the first block is the current one already. -/
theorem adopt_first (h : Filled L g top) (i : Nat) (hi : Int64) (none : g.adopted = []) :
    Filled L (g.adopt i hi) top := by
  intro b lo hlo inside
  have hblock : (g.adopt i hi).block = g.block := by simp [Ledger.adopt, Ledger.block, none]
  rw [hblock]
  exact h b lo hlo inside

/-- A block that is used up is followed by one without claims. -/
theorem adopt_next (h : Filled L g top) (i : Nat) (hi : Int64) (some : g.adopted ≠ [])
    (spent : L.capacity ≤ top) : Filled L (g.adopt i hi) (-1) := by
  intro b lo hlo inside
  have hblock : (g.adopt i hi).block = g.block + 1 := by
    have := List.length_pos_iff.mpr some
    simp only [Ledger.adopt, Ledger.block, List.length_append, List.length_singleton]
    omega
  have hbelow : lo ≤ top := Int64.le_of_lt (Int64.lt_of_lt_of_le inside spent)
  have hneg : ¬ lo ≤ -1 := Int64.not_le.mpr (Int64.lt_of_lt_of_le (by decide) hlo)
  have hissued : (g.adopt i hi).issued = g.issued := rfl
  rw [hissued, hblock, h b lo hlo inside]
  refine if_congr ⟨?_, ?_⟩ rfl rfl
  · rintro (hlt | ⟨rfl, -⟩) <;> exact .inl (by omega)
  · rintro (hlt | ⟨-, hle⟩)
    · rcases Nat.lt_or_eq_of_le (Nat.le_of_lt_succ hlt) with hlt | heq
      · exact .inl hlt
      · exact .inr ⟨heq, hbelow⟩
    · exact absurd hle hneg

/-- When lo is past the block, every lo of the current block was claimed, once. -/
theorem count_of_spent (h : Filled L g top) (spent : L.capacity ≤ top) (hlo : 0 ≤ lo)
    (inside : lo < L.capacity) : g.issued.count (g.block, lo) = 1 := by
  rw [h _ lo hlo inside]
  exact if_pos (.inr ⟨rfl, Int64.le_of_lt (Int64.lt_of_lt_of_le inside spent)⟩)

/-- Before there is a second block, as many claims were made as a block has. -/
theorem size_le_length (h : Filled L g top) (past : 0 < g.block) : L.size ≤ g.issued.length := by
  have hnodup : ((List.range L.size).map fun k => ((0 : Nat), Int64.ofNat k)).Nodup := by
    refine (List.nodup_range).map_on fun k hk k' hk' heq => ?_
    have hlo := congrArg Int64.toInt (Prod.mk.inj heq).2
    rw [Layout.toInt_lo (List.mem_range.mp hk), Layout.toInt_lo (List.mem_range.mp hk')] at hlo
    exact Int.ofNat.inj hlo
  have hsub : (List.range L.size).map (fun k => ((0 : Nat), Int64.ofNat k)) ⊆ g.issued := by
    intro key hkey
    obtain ⟨k, hk, rfl⟩ := List.mem_map.mp hkey
    have hlt := List.mem_range.mp hk
    have hcount := h 0 (.ofNat k) (Layout.lo_nonneg hlt) (Layout.lo_lt_capacity hlt)
    rw [if_pos (.inl past)] at hcount
    exact List.count_pos_iff.mp (by omega)
  simpa using hnodup.length_le_of_subset hsub

end Filled

/-! ## What the holder of the lock knows -/

/-- Where lo stands while a call works under the lock: at the last claim of the block; there
and past the block; at the first claim, with no hi yet; or still past the last block while
the hi of the next one is set. -/
inductive Footing where
  | level
  | spent
  | first
  | ahead

/-- What a footing says of the cells and the books. -/
def Footing.Holds (L : Layout) (V : Shared) : Footing → Prop
  | .level => Filled L V.ledger V.lo ∧ (V.ledger.adopted = [] → V.lo = -1)
  | .spent => Filled L V.ledger V.lo ∧ L.capacity ≤ V.lo ∧ V.ledger.adopted ≠ []
  | .first => Filled L V.ledger V.lo
  | .ahead => Filled L V.ledger (-1) ∧ L.capacity ≤ V.lo ∧ V.ledger.adopted ≠ []

/-- Where a call stands to the lock: outside, where it may have seen a hi, or inside, under
a given hi and on a footing. -/
inductive Position where
  | outside (seen : Bool)
  | inside (hi : Int64) (f : Footing)

def Position.Stands (L : Layout) (V : Shared) (i : Nat) : Position → Prop
  | .outside seen => V.holder ≠ some i ∧ (seen = true → V.hi ≠ reserved)
  | .inside hi f => V.holder = some i ∧ V.hi = hi ∧ f.Holds L V

/-- The rest of a call is thrifty at a position: it counts lo up only after it has seen a
hi, or under the lock; it draws only when there is no hi or the block is used up; and it
sets a hi only then, and starts lo over right after. -/
inductive Thrifty (L : Layout) : Position → Routine ε → Prop where
  | note {p : Position} {n : Note} {r : Routine ε} (rest : Thrifty L p r) :
      Thrifty L p (.note n r)
  | readVersion {p : Position} {f : UInt64 → Routine ε} (rest : ∀ v, Thrifty L p (f v)) :
      Thrifty L p (.readVersion f)
  | bumpVersion {p : Position} {r : Routine ε} (rest : Thrifty L p r) :
      Thrifty L p (.bumpVersion r)
  | lookHi {seen : Bool} {f : Int64 → Routine ε} (none : Thrifty L (.outside false) (f reserved))
      (some : ∀ hi, hi ≠ reserved → Thrifty L (.outside true) (f hi)) :
      Thrifty L (.outside seen) (.readHi f)
  | countLo {f : Int64 → Routine ε} (rest : ∀ lo, Thrifty L (.outside true) (f lo)) :
      Thrifty L (.outside true) (.bumpLo f)
  | acquire {seen : Bool} {r : Routine ε} (rest : ∀ hi, Thrifty L (.inside hi .level) r) :
      Thrifty L (.outside seen) (.acquire r)
  | finish {seen : Bool} {e : Ending ε} (pair : ∀ hi lo, e = .claimed hi lo → seen = true) :
      Thrifty L (.outside seen) (.finish e)
  | readHi {hi : Int64} {f : Footing} {g : Int64 → Routine ε}
      (rest : Thrifty L (.inside hi f) (g hi)) : Thrifty L (.inside hi f) (.readHi g)
  | draw {hi : Int64} {f : Footing} {g : Reply ε → Routine ε}
      (may : f = .spent ∨ f = .level ∧ hi = reserved)
      (rest : ∀ a, a.isReserved = false → Thrifty L (.inside hi f) (g a)) :
      Thrifty L (.inside hi f) (.draw g)
  | countFirst {f : Int64 → Routine ε} (rest : ∀ lo, Thrifty L (.inside reserved .first) (f lo)) :
      Thrifty L (.inside reserved .level) (.bumpLo f)
  | countNext {hi : Int64} {f : Int64 → Routine ε} (some : hi ≠ reserved)
      (room : ∀ lo, lo < L.capacity → Thrifty L (.inside hi .level) (f lo))
      (beyond : ∀ lo, L.capacity ≤ lo → Thrifty L (.inside hi .spent) (f lo)) :
      Thrifty L (.inside hi .level) (.bumpLo f)
  | setFirst {hi : Int64} {r : Routine ε} (useful : hi ≠ reserved)
      (rest : Thrifty L (.inside hi .level) r) : Thrifty L (.inside reserved .first) (.writeHi hi r)
  | setNext {hi hi' : Int64} {r : Routine ε} (useful : hi' ≠ reserved)
      (rest : Thrifty L (.inside hi' .ahead) r) : Thrifty L (.inside hi .spent) (.writeHi hi' r)
  | restart {hi : Int64} {r : Routine ε} (rest : Thrifty L (.inside hi .level) r) :
      Thrifty L (.inside hi .ahead) (.writeLo 0 r)
  | release {hi : Int64} {f : Footing} {crashed seen : Bool} {r : Routine ε}
      (may : f = .level ∨ f = .spent) (useful : seen = true → hi ≠ reserved)
      (rest : Thrifty L (.outside seen) r) : Thrifty L (.inside hi f) (.release crashed r)

/-! ## The designs are thrifty -/

section Designs

variable {L : Layout} {hi : Int64} {f : Footing}

namespace Check

variable (c : Check)

theorem leave_thrifty {crashed seen : Bool} {rest : Routine ε} (may : f = .level ∨ f = .spent)
    (useful : seen = true → hi ≠ reserved) (hrest : Thrifty L (.outside seen) rest) :
    Thrifty L (.inside hi f) (c.leave crashed rest) := by
  cases c with
  | reread => exact .release may useful hrest
  | version => exact .bumpVersion (.release may useful hrest)

theorem drawThen_thrifty {adopt : Int64 → Routine ε} (may : f = .spent ∨ f = .level ∧ hi = reserved)
    (hadopt : ∀ next, next ≠ reserved → Thrifty L (.inside hi f) (adopt next)) :
    Thrifty L (.inside hi f) (c.drawThen adopt) := by
  have hleave : f = .level ∨ f = .spent := may.symm.imp_left And.left
  refine .draw may fun a ha => ?_
  cases a with
  | value next => exact hadopt next (Reply.isReserved_value.mp ha)
  | failure cause => exact c.leave_thrifty hleave (nofun : false = true → _) (.finish nofun)
  | crash text => exact c.leave_thrifty hleave (nofun : false = true → _) (.finish nofun)

theorem work_thrifty (hi : Int64) : Thrifty L (.inside hi .level) (c.work L : Routine ε) := by
  refine .readHi ?_
  split
  · next hnone =>
    subst hnone
    refine c.drawThen_thrifty (.inr ⟨rfl, rfl⟩) fun first hfirst => ?_
    exact .countFirst fun lo => .setFirst hfirst
      (c.leave_thrifty (.inl rfl) (fun _ => hfirst) (.note (.finish fun _ _ _ => rfl)))
  · next hsome =>
    refine .countNext hsome (fun lo room => ?_) fun lo beyond => ?_
    · rw [if_neg (Int64.not_le.mpr room)]
      exact c.leave_thrifty (.inl rfl) (fun _ => hsome) (.finish fun _ _ _ => rfl)
    · rw [if_pos beyond]
      exact c.drawThen_thrifty (.inl rfl) fun next hnext => .setNext hnext <| .restart <| .note <|
        c.leave_thrifty (.inl rfl) (fun _ => hnext) (.finish fun _ _ _ => rfl)

theorem exclusive_thrifty {seen : Bool} :
    Thrifty L (.outside seen) (c.exclusive L : Routine ε) := by
  refine .acquire fun hi => ?_
  cases c with
  | reread => exact work_thrifty _ hi
  | version => exact .bumpVersion (work_thrifty _ hi)

end Check

theorem Optimistic.attempt_thrifty (n : Nat) :
    ∀ {seen : Bool}, Thrifty L (.outside seen) (attempt L n : Routine ε) := by
  induction n with
  | zero => exact Check.reread.exclusive_thrifty
  | succ n ih =>
    intro seen
    rw [attempt_succ]
    refine .lookHi ?_ fun hi hhi => ?_
    · rw [if_pos rfl]
      exact Check.reread.exclusive_thrifty
    rw [if_neg hhi]
    refine .countLo fun lo => ?_
    split
    · exact Check.reread.exclusive_thrifty
    refine .lookHi ?_ fun again _ => ?_
    · rw [if_neg (Ne.symm hhi)]
      exact ih
    split
    · exact .finish fun _ _ _ => rfl
    · exact ih

theorem Stamped.attempt_thrifty (n : Nat) :
    ∀ {seen : Bool}, Thrifty L (.outside seen) (attempt L n : Routine ε) := by
  induction n with
  | zero => exact Check.version.exclusive_thrifty
  | succ n ih =>
    intro seen
    rw [attempt_succ]
    refine .readVersion fun stamp => ?_
    split
    · exact ih
    refine .lookHi ?_ fun hi hhi => ?_
    · rw [if_pos rfl]
      exact Check.version.exclusive_thrifty
    rw [if_neg hhi]
    refine .readVersion fun before => ?_
    split
    · exact ih
    refine .countLo fun lo => ?_
    split
    · exact Check.version.exclusive_thrifty
    refine .readVersion fun later => ?_
    split
    · exact .finish fun _ _ _ => rfl
    · exact ih

/-- **The calls of the designs that count without the lock are thrifty.** -/
theorem Check.routine_thrifty (c : Check) (L : Layout) (attempts : UInt32) :
    Thrifty L (.outside false) ((c.design attempts).routine L : Routine ε) := by
  cases c with
  | reread => exact .note (Optimistic.attempt_thrifty _)
  | version => exact .note (Stamped.attempt_thrifty _)

end Designs

/-! ## The invariant -/

section Invariant

variable {L : Layout} {V W : Shared} {i j : Nat} {f : Footing} {p : Position}

/-- The cells and the books agree on hi and on lo, and while nobody works under the lock, lo
is the last claim of the block. -/
structure Balanced (L : Layout) (V : Shared) : Prop where
  hi : V.hi = V.ledger.published
  useful : ∀ hi ∈ V.ledger.adopted, hi ≠ reserved
  low : -1 ≤ V.lo.toInt
  high : V.lo.toInt + 1 ≤ V.ledger.bumps
  free : V.holder = none → Footing.level.Holds L V

/-- Nothing that matters for a footing has changed. -/
structure Alike (V W : Shared) : Prop where
  hi : W.hi = V.hi
  lo : W.lo = V.lo
  holder : W.holder = V.holder
  adopted : W.ledger.adopted = V.ledger.adopted
  issued : W.ledger.issued = V.ledger.issued
  bumps : W.ledger.bumps = V.ledger.bumps

namespace Footing.Holds

theorem congr (h : f.Holds L V) (lo : W.lo = V.lo) (adopted : W.ledger.adopted = V.ledger.adopted)
    (issued : W.ledger.issued = V.ledger.issued) : f.Holds L W := by
  cases f with
  | level => exact ⟨lo ▸ h.1.congr adopted issued, by rw [adopted, lo]; exact h.2⟩
  | spent => exact ⟨lo ▸ h.1.congr adopted issued, lo ▸ h.2.1, adopted ▸ h.2.2⟩
  | first =>
    have hfilled : Filled L W.ledger V.lo := Filled.congr h adopted issued
    exact (lo ▸ hfilled : Filled L W.ledger W.lo)
  | ahead => exact ⟨h.1.congr adopted issued, lo ▸ h.2.1, adopted ▸ h.2.2⟩

/-- What is past the block stays past it. -/
theorem capacity_le_next (beyond : L.capacity ≤ V.lo) (room : V.lo.toInt + 1 < 2 ^ 63) :
    L.capacity ≤ V.lo + 1 := by
  rw [Int64.le_iff_toInt_le] at beyond ⊢
  rw [toInt_add_one room]
  omega

/-- A footing is kept when lo is counted up, once there is a hi. -/
theorem bump (h : f.Holds L V) (i : Nat) (some : V.ledger.adopted ≠ [])
    (room : V.lo.toInt + 1 < 2 ^ 63) : f.Holds L (V.bump L i) := by
  cases f with
  | level => exact ⟨h.1.claim i room, fun hnil => absurd hnil some⟩
  | spent => exact ⟨h.1.claim i room, capacity_le_next h.2.1 room, some⟩
  | first => exact Filled.claim h i room
  | ahead =>
    have hnext := capacity_le_next h.2.1 room
    exact ⟨h.1.claim_beyond i hnext, hnext, some⟩

end Footing.Holds

namespace Position.Stands

theorem alike (h : p.Stands L V i) (hW : Alike V W) : p.Stands L W i := by
  cases p with
  | outside seen => exact ⟨hW.holder ▸ h.1, hW.hi ▸ h.2⟩
  | inside hi f => exact ⟨hW.holder ▸ h.1, hW.hi ▸ h.2.1, h.2.2.congr hW.lo hW.adopted hW.issued⟩

/-- A call without the lock relies on nothing but that a hi stays. -/
theorem of_free (h : p.Stands L V j) (free : V.holder ≠ some j) (free' : W.holder ≠ some j)
    (hi : V.hi ≠ reserved → W.hi ≠ reserved) : p.Stands L W j := by
  cases p with
  | outside seen => exact ⟨free', fun hseen => hi (h.2 hseen)⟩
  | inside hi f => exact absurd h.1 free

theorem bump (h : p.Stands L V j) (i : Nat) (some : V.ledger.adopted ≠ [])
    (room : V.lo.toInt + 1 < 2 ^ 63) : p.Stands L (V.bump L i) j := by
  cases p with
  | outside seen => exact h
  | inside hi f => exact ⟨h.1, h.2.1, h.2.2.bump i some room⟩

end Position.Stands

namespace Balanced

theorem alike (h : Balanced L V) (hW : Alike V W) : Balanced L W where
  hi := by rw [hW.hi, Ledger.published, hW.adopted]; exact h.hi
  useful := hW.adopted ▸ h.useful
  low := hW.lo ▸ h.low
  high := by rw [hW.lo, hW.bumps]; exact h.high
  free hnone := (h.free (hW.holder ▸ hnone)).congr hW.lo hW.adopted hW.issued

theorem hi_eq_reserved_iff (h : Balanced L V) : V.hi = reserved ↔ V.ledger.adopted = [] := by
  rw [h.hi]
  exact Ledger.published_eq_reserved_iff h.useful

theorem room (h : Balanced L V) (granted : V.ledger.bumps < 2 ^ 62) :
    V.lo.toInt + 1 < 2 ^ 63 := by
  have := h.high
  omega

/-- Lo is counted up, by the holder of the lock or once there is a hi. -/
theorem bump (h : Balanced L V) (i : Nat) (room : V.lo.toInt + 1 < 2 ^ 63)
    (may : V.holder = none → V.ledger.adopted ≠ []) : Balanced L (V.bump L i) where
  hi := h.hi
  useful := h.useful
  low := by
    have := h.low
    simp only [Shared.bump, toInt_add_one room]
    omega
  high := by
    have := h.high
    simp only [Shared.bump, toInt_add_one room]
    omega
  free hnone := (h.free hnone).bump i (may hnone) room

/-- The holder of the lock sets hi. -/
theorem publish (h : Balanced L V) (i : Nat) {hi : Int64} (holder : V.holder = some i)
    (useful : hi ≠ reserved) : Balanced L (V.publish i hi) where
  hi := by simp [Shared.publish, Ledger.adopt, Ledger.published]
  useful hi' hmem := by
    rcases List.mem_append.mp hmem with hmem | hmem
    · exact h.useful hi' hmem
    · rwa [List.mem_singleton.mp hmem]
  low := h.low
  high := h.high
  free hnone := absurd (holder.symm.trans hnone) nofun

/-- The holder of the lock starts lo over. -/
theorem restart (h : Balanced L V) (i : Nat) (holder : V.holder = some i)
    (past : L.capacity ≤ V.lo) : Balanced L (V.restart L i 0) where
  hi := h.hi
  useful := h.useful
  low := show -1 ≤ (0 : Int64).toInt by decide
  high := by
    have hhigh := h.high
    have hpos := L.size_pos
    rw [L.capacity_le] at past
    have hzero : (V.restart L i 0).lo.toInt = 0 := rfl
    have hbumps : (V.restart L i 0).ledger.bumps = V.ledger.bumps := rfl
    omega
  free hnone := absurd (holder.symm.trans hnone) nofun

end Balanced

end Invariant

/-! ## Interleavings -/

/-- The cells and the books are balanced, every call stands at a thrifty position, and no
call has returned a pair before there was a hi. -/
structure Sparing (L : Layout) (M : Machine σ ε) : Prop where
  balanced : Balanced L (M.shared L)
  attended : M.Attended fun i r => ∃ p, Thrifty L p r ∧ p.Stands L (M.shared L) i
  paired : M.pairs ≠ [] → (M.shared L).ledger.adopted ≠ []

namespace Sparing

variable {L : Layout} {A : Arena σ ε} {M M' : Machine σ ε} {i : Nat} {r : Routine ε}

theorem idle (L : Layout) (threads : Nat) (s : σ) :
    Sparing L (Machine.idle threads .fresh s : Machine σ ε) where
  balanced := {
    hi := rfl
    useful := nofun
    low := show -1 ≤ (-1 : Int64).toInt by decide
    high := show (-1 : Int64).toInt + 1 ≤ 0 by decide
    free := fun _ => ⟨.blank L, fun _ => rfl⟩ }
  attended := .idle _ _ _ _
  paired hne := absurd rfl hne

/-- A thread has moved, and nothing that matters has changed. -/
theorem stay (h : Sparing L M) {o : Option (Routine ε)} (busy : i < M.threads.length)
    (threads : M'.threads = M.threads.set i o) (alike : Alike (M.shared L) (M'.shared L))
    (own : ∀ r, o = some r → ∃ p, Thrifty L p r ∧ p.Stands L (M.shared L) i)
    (kept : M.holder = some i → o ≠ none)
    (paired : M'.pairs ≠ [] → (M.shared L).ledger.adopted ≠ []) : Sparing L M' where
  balanced := h.balanced.alike alike
  attended := by
    have hsame : M'.holder = M.holder := alike.holder
    refine h.attended.advance busy threads (fun _ hr => ?_) (hsame ▸ kept) fun _ _ =>
      ⟨hsame ▸ id, ?_⟩
    · obtain ⟨p, hthrifty, hp⟩ := own _ hr
      exact ⟨p, hthrifty, hp.alike alike⟩
    · exact fun _ ⟨p, hthrifty, hp⟩ => ⟨p, hthrifty, hp.alike alike⟩
  paired := by
    rw [alike.adopted]
    exact paired

/-- A call goes on, and nothing that matters has changed. -/
theorem proceed (h : Sparing L M) {rest : Routine ε} (busy : i < M.threads.length)
    (threads : M'.threads = M.threads.set i (some rest))
    (alike : Alike (M.shared L) (M'.shared L)) (pairs : M'.pairs = M.pairs)
    (own : ∃ p, Thrifty L p rest ∧ p.Stands L (M.shared L) i) : Sparing L M' :=
  h.stay busy threads alike (fun _ hr => Option.some.inj hr ▸ own) (fun _ => nofun)
    fun hne => h.paired (pairs ▸ hne)

/-- A thread has moved, and no call has ended. -/
theorem advance (h : Sparing L M) {rest : Routine ε} (busy : i < M.threads.length)
    (threads : M'.threads = M.threads.set i (some rest)) (balanced : Balanced L (M'.shared L))
    (own : ∃ p, Thrifty L p rest ∧ p.Stands L (M'.shared L) i)
    (others : ∀ j ≠ i, (M'.holder = some j → M.holder = some j) ∧
      ∀ p : Position, p.Stands L (M.shared L) j → p.Stands L (M'.shared L) j)
    (pairs : M'.pairs = M.pairs)
    (adopted : (M.shared L).ledger.adopted ≠ [] → (M'.shared L).ledger.adopted ≠ []) :
    Sparing L M' where
  balanced := balanced
  attended := h.attended.advance busy threads (fun _ hr => Option.some.inj hr ▸ own)
    (fun _ => nofun) fun j hj =>
      ⟨(others j hj).1, fun _ ⟨p, hthrifty, hp⟩ => ⟨p, hthrifty, (others j hj).2 p hp⟩⟩
  paired hne := adopted (h.paired (pairs ▸ hne))

/-- A thread has moved under the lock, and keeps it. -/
theorem work (h : Sparing L M) (holder : M.holder = some i) {rest : Routine ε}
    (busy : i < M.threads.length) (threads : M'.threads = M.threads.set i (some rest))
    (same : M'.holder = M.holder) (hi : M.memory.hi ≠ reserved → M'.memory.hi ≠ reserved)
    (balanced : Balanced L (M'.shared L))
    (own : ∃ p, Thrifty L p rest ∧ p.Stands L (M'.shared L) i) (pairs : M'.pairs = M.pairs)
    (adopted : (M.shared L).ledger.adopted ≠ [] → (M'.shared L).ledger.adopted ≠ []) :
    Sparing L M' := by
  refine h.advance busy threads balanced own (fun j hj => ⟨same ▸ id, fun p hp => ?_⟩) pairs adopted
  have hother : M.holder ≠ some j := by simp [holder, Ne.symm hj]
  exact hp.of_free hother (fun heq => hother (same ▸ heq)) hi

/-- **One action of one thread keeps the books balanced.** -/
theorem act (granted : (M.shared L).ledger.bumps < 2 ^ 62) (h : Sparing L M)
    (busy : M.threads[i]? = some (some r)) (hact : A.act M i r = some M') : Sparing L M' := by
  have hi : i < M.threads.length := (List.getElem?_eq_some_iff.mp busy).1
  have room := h.balanced.room granted
  have hpublished := h.balanced.hi_eq_reserved_iff
  obtain ⟨p, hthrifty, hp⟩ := h.attended.each busy
  obtain ⟨e, rfl, rfl⟩ | ⟨q, hq, hfree, rfl⟩ := Arena.act_cases hact
  · cases hthrifty with
    | finish pair =>
      obtain ⟨hholder, hseen⟩ := hp
      refine h.stay hi rfl ?_ nofun (fun heq => absurd heq hholder) fun hne => ?_
      · cases e <;> exact ⟨rfl, rfl, rfl, rfl, rfl, rfl⟩
      · cases e with
        | claimed hi lo => exact mt hpublished.mpr (hseen (pair hi lo rfl))
        | _ => exact h.paired hne
  cases hthrifty with
  | note rest =>
    obtain rfl := Option.some.inj hq
    exact h.proceed hi rfl ⟨rfl, rfl, rfl, rfl, rfl, rfl⟩ rfl ⟨_, rest, hp⟩
  | readVersion rest =>
    obtain rfl := Option.some.inj hq
    exact h.proceed hi rfl ⟨rfl, rfl, rfl, rfl, rfl, rfl⟩ rfl ⟨_, rest _, hp⟩
  | bumpVersion rest =>
    obtain rfl := Option.some.inj hq
    exact h.proceed hi rfl ⟨rfl, rfl, rfl, rfl, rfl, rfl⟩ rfl ⟨_, rest, hp⟩
  | lookHi none some =>
    obtain rfl := Option.some.inj hq
    refine h.proceed hi rfl ⟨rfl, rfl, rfl, rfl, rfl, rfl⟩ rfl ?_
    by_cases hhi : M.memory.hi = reserved
    · exact ⟨.outside false, hhi ▸ none, hp.1, nofun⟩
    · exact ⟨_, some _ hhi, hp.1, fun _ => hhi⟩
  | finish => cases hq
  | readHi rest =>
    obtain rfl := Option.some.inj hq
    obtain ⟨hholder, rfl, hf⟩ := hp
    exact h.proceed hi rfl ⟨rfl, rfl, rfl, rfl, rfl, rfl⟩ rfl ⟨_, rest, hholder, rfl, hf⟩
  | draw may rest =>
    obtain rfl := Option.some.inj hq
    refine h.proceed hi rfl ⟨rfl, rfl, rfl, rfl, rfl, rfl⟩ rfl ⟨_, ?_, hp⟩
    split
    · exact .draw may rest
    · next hr => exact rest _ (Bool.eq_false_iff.mpr hr)
  | countLo rest =>
    obtain rfl := Option.some.inj hq
    have hsome : (M.shared L).ledger.adopted ≠ [] := mt hpublished.mpr (hp.2 rfl)
    exact h.advance hi rfl (h.balanced.bump i room fun _ => hsome) ⟨_, rest _, hp.bump i hsome room⟩
      (fun j _ => ⟨id, fun p hp => hp.bump i hsome room⟩) rfl id
  | acquire rest =>
    by_cases hm : M.memory.poisoned = true
    · obtain rfl := Option.some.inj ((if_pos hm).symm.trans hq)
      exact h.proceed hi rfl ⟨rfl, rfl, rfl, rfl, rfl, rfl⟩ rfl
        ⟨.outside false, .finish nofun, hp.1, nofun⟩
    · obtain rfl := Option.some.inj ((if_neg hm).symm.trans hq)
      have hnone := hfree rfl
      have hlevel := h.balanced.free hnone
      refine h.advance hi rfl { h.balanced with free := nofun }
        ⟨_, rest M.memory.hi, rfl, rfl, hlevel⟩ (fun j hj => ?_) rfl id
      have hother : some i ≠ some j := fun heq => hj (Option.some.inj heq).symm
      have hother' : M.holder ≠ some j := by simp [hnone]
      exact ⟨fun heq => absurd heq hother, fun p hp => hp.of_free hother' hother id⟩
  | countFirst rest =>
    obtain rfl := Option.some.inj hq
    obtain ⟨hholder, hhi, hf⟩ := hp
    exact h.work hholder hi rfl rfl id
      (h.balanced.bump i room fun hnone => absurd (hholder.symm.trans hnone) nofun)
      ⟨_, rest _, hholder, hhi, hf.1.claim i room⟩ rfl id
  | countNext hsome within beyond =>
    obtain rfl := Option.some.inj hq
    obtain ⟨hholder, rfl, hf⟩ := hp
    have hadopted : (M.shared L).ledger.adopted ≠ [] := mt hpublished.mpr hsome
    have hlevel := hf.bump i hadopted room
    refine h.work hholder hi rfl rfl id (h.balanced.bump i room fun _ => hadopted) ?_ rfl id
    by_cases hin : M.memory.lo + 1 < L.capacity
    · exact ⟨_, within _ hin, hholder, rfl, hlevel⟩
    · have hpast := Int64.not_lt.mp hin
      exact ⟨_, beyond _ hpast, hholder, rfl, hlevel.1, hpast, hadopted⟩
  | setFirst useful rest =>
    obtain rfl := Option.some.inj hq
    obtain ⟨hholder, hhi, hf⟩ := hp
    have hnil := hpublished.mp hhi
    exact h.work hholder hi rfl rfl (fun _ => useful) (h.balanced.publish i hholder useful)
      ⟨_, rest, hholder, rfl, Filled.adopt_first hf i _ hnil,
        fun hnil' => absurd hnil' (Ledger.adopted_adopt_ne_nil _ i _)⟩
      rfl fun _ => Ledger.adopted_adopt_ne_nil _ i _
  | setNext useful rest =>
    obtain rfl := Option.some.inj hq
    obtain ⟨hholder, rfl, hfilled, hpast, hadopted⟩ := hp
    exact h.work hholder hi rfl rfl (fun _ => useful) (h.balanced.publish i hholder useful)
      ⟨_, rest, hholder, rfl, hfilled.adopt_next i _ hadopted hpast, hpast,
        Ledger.adopted_adopt_ne_nil _ i _⟩
      rfl fun _ => Ledger.adopted_adopt_ne_nil _ i _
  | restart rest =>
    obtain rfl := Option.some.inj hq
    obtain ⟨hholder, rfl, hfilled, hpast, hadopted⟩ := hp
    have hclaim : Filled L ((M.shared L).ledger.claim L i 0) 0 := hfilled.claim i (by decide)
    exact h.work hholder hi rfl rfl id (h.balanced.restart i hholder hpast)
      ⟨_, rest, hholder, rfl, hclaim, fun hnil => absurd hnil hadopted⟩ rfl id
  | release may useful rest =>
    obtain rfl := Option.some.inj hq
    obtain ⟨hholder, rfl, hf⟩ := hp
    have hlevel : Footing.level.Holds L (M.shared L) := by
      rcases may with rfl | rfl
      · exact hf
      · exact ⟨hf.1, fun hnil => absurd hnil hf.2.2⟩
    refine h.advance hi rfl { h.balanced with free := fun _ => hlevel }
      ⟨_, rest, nofun, fun hseen => useful hseen⟩ (fun j hj => ?_) rfl id
    have hother : (M.shared L).holder ≠ some j := by simp [hholder, Ne.symm hj]
    exact ⟨nofun, fun p hp => hp.of_free hother nofun id⟩

/-- **One move of one thread keeps the books balanced.** -/
theorem move (call : Thrifty L (.outside false) A.call)
    (granted : (M.shared L).ledger.bumps < 2 ^ 62) (h : Sparing L M)
    (hmove : A.move M i = some M') : Sparing L M' := by
  rcases Arena.move_cases hmove with ⟨hidle, rfl⟩ | ⟨r, hbusy, hact⟩
  · have hholder := h.attended.holder_ne hidle
    exact h.proceed (List.getElem?_eq_some_iff.mp hidle).1 rfl ⟨rfl, rfl, rfl, rfl, rfl, rfl⟩ rfl
      ⟨_, call, hholder, nofun⟩
  · exact h.act granted hbusy hact

/-- **Every interleaving keeps the books balanced**, as long as lo cannot wrap. -/
theorem run (call : Thrifty L (.outside false) A.call) :
    ∀ {sched : List Nat} {M M' : Machine σ ε}, A.run M sched = some M' →
      (M'.shared L).ledger.bumps < 2 ^ 62 → Sparing L M → Sparing L M'
  | [], M, M', hrun, _, h => by
    obtain rfl := Option.some.inj hrun
    exact h
  | i :: sched, M, M', hrun, granted, h => by
    obtain ⟨M₁, hmove, hrest⟩ := Option.bind_eq_some_iff.mp hrun
    have hgrows := ((Arena.grows_move L hmove).trans (Arena.grows_run L hrest)).bumps
    exact run call hrest granted (h.move call (Nat.lt_of_le_of_lt hgrows granted) hmove)

/-- **Whoever asks the source holds the lock**, and there is no hi yet or every lo of the
current block was claimed, once. -/
theorem of_asked (h : Sparing L M) {a : Reply ε} (hmove : A.move M i = some M')
    (asked : M'.log = (i, .did (.asked a)) :: M.log) :
    M.holder = some i ∧ ((Ledger.ofLog L M.log).adopted = [] ∨
      ∀ lo, 0 ≤ lo → lo < L.capacity →
        (Ledger.ofLog L M.log).issued.count ((Ledger.ofLog L M.log).block, lo) = 1) := by
  obtain ⟨f, hbusy⟩ := Arena.exists_draw_of_move hmove asked
  obtain ⟨p, hthrifty, hp⟩ := h.attended.each hbusy
  cases hthrifty with
  | draw may rest =>
    obtain ⟨hholder, rfl, hf⟩ := hp
    refine ⟨hholder, ?_⟩
    rcases may with rfl | ⟨rfl, hnone⟩
    · exact .inr fun lo hlo inside => hf.1.count_of_spent hf.2.1 hlo inside
    · exact .inl (h.balanced.hi_eq_reserved_iff.mp hnone)

/-- However a call stands, claims are made block by block. -/
theorem exists_filled (h : Sparing L M) : ∃ top, Filled L (Ledger.ofLog L M.log) top := by
  cases hholder : M.holder with
  | none => exact ⟨_, (h.balanced.free hholder).1⟩
  | some i =>
    obtain ⟨r, hbusy⟩ := h.attended.held hholder
    obtain ⟨p, -, hp⟩ := h.attended.each hbusy
    cases p with
    | outside seen => exact absurd hholder hp.1
    | inside hi f =>
      obtain ⟨-, -, hf⟩ := hp
      cases f with
      | level => exact ⟨_, hf.1⟩
      | spent => exact ⟨_, hf.1⟩
      | first => exact ⟨_, hf⟩
      | ahead => exact ⟨_, hf.1⟩

/-- Until a block of claims was made, no second hi is adopted. -/
theorem length_adopted_le (h : Sparing L M)
    (few : (Ledger.ofLog L M.log).issued.length < L.size) :
    (Ledger.ofLog L M.log).adopted.length ≤ 1 := by
  obtain ⟨top, hfilled⟩ := h.exists_filled
  refine Nat.le_of_not_lt fun hmany => ?_
  have hsize := hfilled.size_le_length (by unfold Ledger.block; omega)
  omega

end Sparing

end HiLo
