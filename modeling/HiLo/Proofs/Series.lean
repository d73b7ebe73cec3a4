/-
HiLo.Proofs.Series — calls in a row at a desk.

A row of undisturbed calls of a generator does what a row of calls at its desk does
(`Design.calls_attend`). The bound is on how often lo was counted up, and not on the
number of calls: a call may count lo up twice or not at all, and a refused one, which
leaves the desk alone, may move lo as well.
-/
import HiLo.Proofs.Desk
import Mathlib.Logic.Function.Iterate

namespace HiLo

variable {σ ε : Type}

/-! ## Rows -/

def Desk.later (S : Source σ ε) (spoils : Bool) (size t : Nat) (D : Desk σ) : Desk σ :=
  (after S spoils size)^[t] D

theorem Desk.later_succ {S : Source σ ε} {spoils : Bool} {size t : Nat} {D : Desk σ} :
    D.later S spoils size (t + 1) = (D.later S spoils size t).after S spoils size :=
  Function.iterate_succ_apply' _ _ _

/-- A call of a row was served as `q`. -/
structure Called.ServedAs (c : Called σ ε) (q : Served σ ε) : Prop where
  ending : c.ending = q.ending
  source : c.source = q.source
  answers : c.acts.filterMap Act.answer? = q.answers

/-! ## Rows of undisturbed calls -/

section

variable {S : Source σ ε} {kind : LockKind} {L : Layout} {strict : Bool} {n base : Nat}
  {m : Memory} {D : Desk σ} {d : Design}

/-- Cells that hold a desk have their lo where it may be. -/
theorem Holds.ranged_of_reach (h : Holds L strict (L.reach strict base) m D) :
    Ranged L strict base m.lo := by
  cases strict with
  | true => exact ⟨(h.ranged rfl).low, (h.ranged rfl).high⟩
  | false =>
    have hle : m.lo.toInt + 1 ≤ (base + 1 : Nat) := h.fits.lo_le
    exact ⟨h.fits.le_lo, show m.lo.toInt < (base + 1 : Nat) by omega⟩

/-- Only where lo is counts, not how often it was moved. -/
theorem Holds.of_ranged (h : Holds L strict n m D) (ranged : Ranged L strict base m.lo) :
    Holds L strict (L.reach strict base) m D :=
  h.rebound (by have := ranged.high; omega)

/-- **A call of a shared design attends to its desk**, and moves lo by its counts. -/
theorem Design.attends_counting (shared : d.isShared = true)
    (h : Holds L d.isStrict (L.reach d.isStrict base) m D)
    (room : base + bumps ((d.routine L).run S kind m D.source).acts < 2 ^ 62) :
    let p := (d.routine L).run S kind m D.source
    Attends L d.isStrict (L.reach d.isStrict (base + bumps p.acts)) p (D.serve S L.size)
      (D.after S (kind == .poisoning) L.size) := by
  intro p
  have houtside : ∀ hi clean, Stage.outside false = .inside hi clean → m.hi = hi := nofun
  have hspoils : d.spoils kind = (kind == .poisoning) := by
    rw [Design.spoils, shared, Bool.true_and]
  have horderly : Orderly L d.isStrict (.outside false) (d.routine L : Routine ε) :=
    d.routine_orderly shared
  have hattends : Attends L d.isStrict _ p _ _ := hspoils ▸
    d.attends S kind h (by simp [shared]) (L.reach_lt d.isStrict (by omega)) fun hstrict => by
      rw [hstrict]
      exact show base + 1 + 1 < 2 ^ 63 by omega
  have hranged : Ranged L d.isStrict (base + bumps p.acts) p.memory.lo :=
    horderly.run_lo S kind houtside h.ranged_of_reach fun _ => room
  exact { hattends with holds := hattends.holds.of_ranged hranged }

theorem Generator.length_calls {g : Generator} {s : σ} :
    (g.calls S kind n s).length = n := by
  induction n generalizing g s with
  | zero => rfl
  | succ n ih => exact congrArg (· + 1) ih

/-- **Calls in a row attend to the desk**: the call number `t` is served as one at the desk
after `t` calls. -/
theorem Design.calls_attend (shared : d.isShared = true) (n : Nat) :
    ∀ {m : Memory} {D : Desk σ} {base : Nat}, Holds L d.isStrict (L.reach d.isStrict base) m D →
      let cs := Generator.calls S kind n ⟨d, L, m⟩ D.source
      base + bumps (cs.flatMap (·.acts)) < 2 ^ 62 →
      ∀ t (c : Called σ ε), cs[t]? = some c →
        c.ServedAs ((D.later S (kind == .poisoning) L.size t).serve S L.size) := by
  induction n with
  | zero =>
    intro m D base _ cs _ t c hc
    cases hc
  | succ n ih =>
    intro m D base h cs room t c hc
    let p := (d.routine L).run S kind m D.source
    have hcs : cs = ⟨p.ending, ⟨d, L, p.memory⟩, p.source, p.acts⟩ ::
        Generator.calls S kind n ⟨d, L, p.memory⟩ p.source := rfl
    rw [hcs, List.flatMap_cons, bumps_append, ← Nat.add_assoc] at room
    have hattends := d.attends_counting shared h (Nat.lt_of_le_of_lt (Nat.le_add_right _ _) room)
    have hsource : p.source = (D.after S (kind == .poisoning) L.size).source := hattends.source
    cases t with
    | zero =>
      obtain rfl := Option.some.inj hc
      exact ⟨hattends.ending, hattends.source, hattends.answers⟩
    | succ t =>
      rw [hcs, List.getElem?_cons_succ, hsource] at hc
      rw [hsource] at room
      exact ih hattends.holds room t c hc

end

end HiLo
