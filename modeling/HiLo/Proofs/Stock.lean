/-
HiLo.Proofs.Stock — undisturbed calls, counted by the block.

Without the cells, the lock and the version, a generator is a stock: nothing
yet, or a hi with the number of identifiers of its block that were handed out.
`Stock.serve` is a call on a stock: it counts inside the block and asks the
source only when there is no block or the block is used up.

`Follows` says that an undisturbed call does to its cells what `serve` does to
the stock they hold, and `Fits` which cells hold which stock. It leaves lo free
above the size while a block is used up, because a call that fails at a rollover
moves lo once or twice without resetting it; `n` calls move lo by `2 * n` at most,
so it cannot wrap in fewer than `2 ^ 62` calls.
-/
import HiLo.Proofs.Draws
import HiLo.Proofs.Words

namespace HiLo

/-! ## Stocks -/

/-- What a generator can hand out without asking: nothing while no hi was drawn, or
a block, of which some identifiers were handed out. -/
inductive Stock where
  | none
  | block (hi : Int64) (given : Nat)

/-- A call that was served from a stock: how it ended, the stock and the source
afterwards, and what the source answered, in order. -/
structure Served (σ ε : Type) where
  ending : Ending ε
  stock : Stock
  source : σ
  answers : List (Reply ε)

namespace Stock

variable {σ ε : Type}

def ended (d : Draw σ ε) : Ending ε :=
  match d.reply with
  | some (.value hi) => .claimed hi 0
  | some (.failure cause) => .failed (.source cause)
  | some (.crash text) => .crashed text
  | Option.none => .unsettled

/-- The stock after a draw: a new block with its first identifier handed out, or
what was there before. -/
def refilled (k : Stock) (d : Draw σ ε) : Stock :=
  match d.reply with
  | some (.value hi) => .block hi 1
  | _ => k

def refill (k : Stock) (d : Draw σ ε) : Served σ ε :=
  ⟨ended d, k.refilled d, d.state, d.answers⟩

/-- A call on a stock whose blocks have `size` identifiers. -/
def serve (S : Source σ ε) (size : Nat) : Stock → σ → Served σ ε
  | .none, s => refill .none (S.draw s)
  | .block hi given, s =>
    if given < size then ⟨.claimed hi (.ofNat given), .block hi (given + 1), s, []⟩
    else refill (.block hi given) (S.draw s)

end Stock

/-! ## Cells that hold a stock -/

/-- The cells hold a stock, and lo was moved `n` times at most. Without a hi, lo was
never moved; while a block has room, lo is the last one handed out; after that it is
the last one of the block or beyond. -/
inductive Fits (L : Layout) (n : Nat) (m : Memory) : Stock → Prop where
  | none (hi : m.hi = reserved) (lo : m.lo.toInt = -1) : Fits L n m .none
  | room {given : Nat} (hi : m.hi ≠ reserved) (lo : m.lo.toInt + 1 = given)
      (room : given < L.size) (bound : given ≤ n) : Fits L n m (.block m.hi given)
  | spent (hi : m.hi ≠ reserved) (lo : L.size ≤ m.lo.toInt + 1)
      (bound : m.lo.toInt + 1 ≤ n) : Fits L n m (.block m.hi L.size)

namespace Fits

variable {L : Layout} {n given : Nat} {m : Memory} {k : Stock}

/-- A new generator has no stock. -/
theorem fresh (L : Layout) : Fits L 0 .fresh .none := .none rfl rfl

/-- Cells that were just given a pair of a block hold what is left of it. -/
theorem of_lo (hi : m.hi ≠ reserved) (lo : m.lo.toInt + 1 = given) (le : given ≤ L.size)
    (bound : given ≤ n) : Fits L n m (.block m.hi given) := by
  rcases Nat.lt_or_eq_of_le le with hlt | rfl
  · exact .room hi lo hlt bound
  · exact .spent hi (by omega) (by omega)

/-- A stock is held by hi and lo alone. -/
theorem congr {m' : Memory} (h : Fits L n m k) (hi : m'.hi = m.hi) (lo : m'.lo = m.lo) :
    Fits L n m' k := by
  cases h with
  | none h1 h2 => exact .none (by rw [hi, h1]) (by rw [lo, h2])
  | room h1 h2 h3 h4 => exact hi ▸ .room (by rwa [hi]) (by rwa [lo]) h3 h4
  | spent h1 h2 h3 => exact hi ▸ .spent (by rwa [hi]) (by rwa [lo]) (by rwa [lo])

theorem mono {n' : Nat} (h : Fits L n m k) (le : n ≤ n') : Fits L n' m k := by
  cases h with
  | none h1 h2 => exact .none h1 h2
  | room h1 h2 h3 h4 => exact .room h1 h2 h3 (by omega)
  | spent h1 h2 h3 => exact .spent h1 h2 (by omega)

theorem lo_le (h : Fits L n m k) : m.lo.toInt + 1 ≤ n := by
  cases h with
  | none _ hlo => omega
  | room _ hlo _ bound => omega
  | spent _ _ bound => exact bound

theorem le_lo (h : Fits L n m k) : -1 ≤ m.lo.toInt := by
  cases h with
  | none _ hlo => omega
  | room _ hlo => omega
  | spent _ hlo => omega

/-- A block on the stock has a useful hi. -/
theorem hi_ne_reserved {hi : Int64} (h : Fits L n m (.block hi given)) : hi ≠ reserved := by
  cases h with
  | room hhi => exact hhi
  | spent hhi => exact hhi

/-- Only where lo is counts, not how often it was moved. -/
theorem rebound {n' : Nat} (h : Fits L n m k) (bound : m.lo.toInt + 1 ≤ n') : Fits L n' m k := by
  cases h with
  | none hhi hlo => exact .none hhi hlo
  | room hhi hlo room _ => exact .room hhi hlo room (by omega)
  | spent hhi hlo _ => exact .spent hhi hlo bound

/-- Where lo was never moved, the next one is the first. -/
theorem next_of_none (lo : m.lo.toInt = -1) : m.lo + 1 = .ofNat 0 := by
  apply Int64.toInt.inj
  rw [toInt_add_one (by omega), lo]
  rfl

/-- Where the block has room, the next lo counts those handed out. -/
theorem next_of_room (lo : m.lo.toInt + 1 = given) (room : given < L.size) :
    m.lo + 1 = .ofNat given := by
  have := L.size_lt
  apply Int64.toInt.inj
  rw [toInt_add_one (by omega), lo, Int64.toInt_ofNat_of_lt (by omega)]

/-- Where the block is used up, the next lo is past it. -/
theorem next_of_spent (lo : L.size ≤ m.lo.toInt + 1) (bound : m.lo.toInt + 1 < 2 ^ 63) :
    L.capacity ≤ m.lo + 1 := by
  rw [L.capacity_le, toInt_add_one bound]
  exact lo

/-- Where the block is used up, it stays so when lo is moved. -/
theorem bump_of_spent (hi : m.hi ≠ reserved) (lo : L.size ≤ m.lo.toInt + 1)
    (bound : m.lo.toInt + 1 ≤ n) (hn : n < 2 ^ 63) :
    Fits L (n + 1) { m with lo := m.lo + 1 } (.block m.hi L.size) := by
  have hlo := toInt_add_one (x := m.lo) (by omega)
  exact .spent (m := { m with lo := m.lo + 1 }) hi (by simp only [hlo]; omega)
    (by simp only [hlo]; omega)

/-- A pair of a block, once handed out, leaves the rest of the block. -/
theorem of_pair (hi : m.hi ≠ reserved) (lo : m.lo = .ofNat given) (room : given < L.size)
    (bound : given < n) : Fits L n m (.block m.hi (given + 1)) := by
  have := L.size_lt
  refine of_lo hi ?_ room bound
  rw [lo, Int64.toInt_ofNat_of_lt (by omega)]
  rfl

end Fits

/-- Only a crash spoils a sound lock, and only where crashes spoil locks. -/
theorem Memory.poisoned_released {kind : LockKind} {crashed : Bool} {m : Memory}
    (hm : m.poisoned = false) (hp : (m.released kind crashed).poisoned = true) :
    kind = .poisoning ∧ crashed = true := by
  simp only [Memory.released, hm, Bool.false_or, Bool.and_eq_true, beq_iff_eq] at hp
  exact hp.symm

/-! ## What a call does to a stock -/

/-- An undisturbed call did what a call on a stock does. The lock is spoiled
only by a crash, and only where crashes spoil it. -/
structure Follows {σ ε : Type} (L : Layout) (kind : LockKind) (n : Nat)
    (p : Performed σ ε) (q : Served σ ε) : Prop where
  ending : p.ending = q.ending
  source : p.source = q.source
  answers : p.acts.filterMap Act.answer? = q.answers
  fits : Fits L n p.memory q.stock
  sound : p.memory.poisoned = true → kind = .poisoning ∧ ∃ text, q.ending = .crashed text

namespace Follows

variable {σ ε : Type} {S : Source σ ε} {kind : LockKind} {L : Layout} {n : Nat}
  {m : Memory} {s : σ} {k : Stock} {p : Performed σ ε} {q : Served σ ε}

/-- Actions other than requests do not show. -/
theorem prepend {a : Act ε} (ha : a.answer? = none) (h : Follows L kind n p q) :
    Follows L kind n (p.prepend a) q :=
  { h with answers := by simp [Performed.prepend, ha, h.answers] }

section Actions

variable {r : Routine ε} {f : Int64 → Routine ε} {g : UInt64 → Routine ε} {x : Note}
  {hi lo : Int64}

theorem note (h : Follows L kind n (r.run S kind m s) q) :
    Follows L kind n ((Routine.note x r).run S kind m s) q := h.prepend rfl

theorem readHi (h : Follows L kind n ((f m.hi).run S kind m s) q) :
    Follows L kind n ((Routine.readHi f).run S kind m s) q := h.prepend rfl

theorem readLo (h : Follows L kind n ((f m.lo).run S kind m s) q) :
    Follows L kind n ((Routine.readLo f).run S kind m s) q := h.prepend rfl

theorem writeHi (h : Follows L kind n (r.run S kind { m with hi } s) q) :
    Follows L kind n ((Routine.writeHi hi r).run S kind m s) q := h.prepend rfl

theorem writeLo (h : Follows L kind n (r.run S kind { m with lo } s) q) :
    Follows L kind n ((Routine.writeLo lo r).run S kind m s) q := h.prepend rfl

theorem bumpLo (hlo : m.lo + 1 = lo) (h : Follows L kind n ((f lo).run S kind { m with lo } s) q) :
    Follows L kind n ((Routine.bumpLo f).run S kind m s) q := by
  subst hlo
  exact h.prepend rfl

theorem readVersion (h : Follows L kind n ((g m.version).run S kind m s) q) :
    Follows L kind n ((Routine.readVersion g).run S kind m s) q := h.prepend rfl

theorem bumpVersion
    (h : Follows L kind n (r.run S kind { m with version := m.version + 1 } s) q) :
    Follows L kind n ((Routine.bumpVersion r).run S kind m s) q := h.prepend rfl

theorem acquire (hm : m.poisoned = false) (h : Follows L kind n (r.run S kind m s) q) :
    Follows L kind n ((Routine.acquire r).run S kind m s) q := by
  simp only [Routine.run, hm]
  exact h.prepend rfl

theorem release {crashed : Bool}
    (h : Follows L kind n (r.run S kind (m.released kind crashed) s) q) :
    Follows L kind n ((Routine.release crashed r).run S kind m s) q := h.prepend rfl

end Actions

/-- A call that is over, with cells that hold the stock it leaves. -/
theorem finish {e : Ending ε} (h : Fits L n m k)
    (sound : m.poisoned = true → kind = .poisoning ∧ ∃ text, e = .crashed text) :
    Follows L kind n ((Routine.finish e).run S kind m s) ⟨e, k, s, []⟩ :=
  ⟨rfl, rfl, rfl, h, sound⟩

/-- A call that is over after the lock was released. -/
theorem finished {e : Ending ε} {m' : Memory} {crashed : Bool} (h : Fits L n m k)
    (hi : m'.hi = m.hi) (lo : m'.lo = m.lo)
    (spoiled : m'.poisoned = true → kind = .poisoning ∧ crashed = true)
    (he : crashed = true → ∃ text, e = .crashed text) :
    Follows L kind n ((Routine.finish e).run S kind m' s) ⟨e, k, s, []⟩ :=
  .finish (h.congr hi lo) fun hp => ⟨(spoiled hp).1, he (spoiled hp).2⟩

/-- A call that draws follows a refill, if it goes on as it should with each
answer. -/
theorem draw {rest : Reply ε → Routine ε} (h : Fits L n m k) (hm : m.poisoned = false)
    (value : ∀ hi s, hi ≠ reserved →
      Follows L kind n ((rest (.value hi)).run S kind m s) ⟨.claimed hi 0, .block hi 1, s, []⟩)
    (failure : ∀ cause s, Follows L kind n ((rest (.failure cause)).run S kind m s)
      ⟨.failed (.source cause), k, s, []⟩)
    (crash : ∀ text s,
      Follows L kind n ((rest (.crash text)).run S kind m s) ⟨.crashed text, k, s, []⟩) :
    Follows L kind n ((Routine.draw rest).run S kind m s) (k.refill (S.draw s)) := by
  -- what comes after the draw asks nothing, so the answers are those of the draw
  have after : ∀ {r : Reply ε} {q : Served σ ε}, (S.draw s).reply = some r → q.answers = [] →
      Follows L kind n ((rest r).run S kind m (S.draw s).state) q →
      Follows L kind n ((Routine.draw rest).run S kind m s)
        ⟨q.ending, q.stock, q.source, (S.draw s).answers⟩ := by
    intro r q hr hq hf
    simp only [Routine.run, hr]
    refine ⟨hf.ending, hf.source, ?_, hf.fits, hf.sound⟩
    rw [List.filterMap_append, Draw.filterMap_acts, hf.answers, hq, List.append_nil]
  unfold Stock.refill Stock.ended Stock.refilled
  cases hr : (S.draw s).reply with
  | none =>
    simp only [Routine.run, hr]
    exact ⟨rfl, rfl, Draw.filterMap_acts _, h, fun hp => by simp [hm] at hp⟩
  | some r =>
    cases r with
    | value hi => exact after hr rfl (value hi _ (Source.draw_ne_reserved hr))
    | failure cause => exact after hr rfl (failure cause _)
    | crash text => exact after hr rfl (crash text _)

end Follows

end HiLo
