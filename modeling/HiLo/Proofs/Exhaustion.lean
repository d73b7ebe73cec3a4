/-
HiLo.Proofs.Exhaustion — how far lo gets while the source fails.

Lo is counted up by every call that finds the block used up, twice at most, and only a
new block starts it over. So a generator may be called as often as one likes, as long
as no row of calls without a pair is so long that lo wraps behind a used-up block: then
lo is inside the block whenever a call accepts it, and every call behind a used-up block
asks the source (`lo_stays_inside`). The bound is on the calls since the last pair, not
on the length of the run.

The bound is needed. With blocks of one identifier and a source that fails for ever, lo
has wrapped after `2 ^ 62` calls, and the next call takes a lo below zero for one of the
block (`lo_wraps`).
-/
import HiLo.Proofs.Desk
import HiLo.Proofs.Values
import HiLo.Source.Feed

namespace HiLo

variable {σ ε : Type}

/-! ## The lo that a call leaves -/

/-- A routine that ends with the lo that it moved last; `o` is the lo so far, as far as
it is known. -/
inductive Leaves : Option Int64 → Routine ε → Prop where
  | finish {o : Option Int64} {e : Ending ε} (last : ∀ hi lo, e = .claimed hi lo → o = some lo) :
      Leaves o (.finish e)
  | note {o : Option Int64} {n : Note} {r : Routine ε} (rest : Leaves o r) : Leaves o (.note n r)
  | readHi {o : Option Int64} {f : Int64 → Routine ε} (rest : ∀ hi, Leaves o (f hi)) :
      Leaves o (.readHi f)
  | writeHi {o : Option Int64} {hi : Int64} {r : Routine ε} (rest : Leaves o r) :
      Leaves o (.writeHi hi r)
  | writeLo {o : Option Int64} {lo : Int64} {r : Routine ε} (rest : Leaves (some lo) r) :
      Leaves o (.writeLo lo r)
  | bumpLo {o : Option Int64} {f : Int64 → Routine ε} (rest : ∀ lo, Leaves (some lo) (f lo)) :
      Leaves o (.bumpLo f)
  | readVersion {o : Option Int64} {f : UInt64 → Routine ε} (rest : ∀ v, Leaves o (f v)) :
      Leaves o (.readVersion f)
  | bumpVersion {o : Option Int64} {r : Routine ε} (rest : Leaves o r) : Leaves o (.bumpVersion r)
  | acquire {o : Option Int64} {r : Routine ε} (rest : Leaves o r) : Leaves o (.acquire r)
  | release {o : Option Int64} {crashed : Bool} {r : Routine ε} (rest : Leaves o r) :
      Leaves o (.release crashed r)
  | draw {o : Option Int64} {f : Reply ε → Routine ε} (rest : ∀ r, Leaves o (f r)) :
      Leaves o (.draw f)

namespace Leaves

theorem claimed {hi lo : Int64} : Leaves (some lo) (.finish (.claimed hi lo) : Routine ε) := by
  refine .finish ?_
  rintro _ _ ⟨⟩
  rfl

/-- An undisturbed call that ends with a pair has left its lo in the cells. -/
theorem run {o : Option Int64} {r : Routine ε} (h : Leaves o r) (S : Source σ ε)
    (kind : LockKind) :
    ∀ (m : Memory) (s : σ), (∀ lo, o = some lo → m.lo = lo) → ∀ hi lo,
      (r.run S kind m s).ending = .claimed hi lo → (r.run S kind m s).memory.lo = lo := by
  induction h with
  | finish last => exact fun m s hm hi lo he => hm lo (last hi lo he)
  | note _ ih => exact ih
  | readHi _ ih => exact fun m s => ih m.hi m s
  | writeHi _ ih => exact fun m s hm => ih _ s hm
  | writeLo _ ih => exact fun m s _ => ih _ s fun _ => Option.some.inj
  | bumpLo _ ih => exact fun m s _ => ih _ _ s fun _ => Option.some.inj
  | readVersion _ ih => exact fun m s => ih m.version m s
  | bumpVersion _ ih => exact fun m s hm => ih _ s hm
  | acquire _ ih =>
    intro m s hm hi lo he
    simp only [Routine.run] at he ⊢
    split at he
    · cases he
    · next hfree =>
      rw [if_neg hfree]
      exact ih m s hm hi lo he
  | release _ ih => exact fun m s hm => ih _ s hm
  | draw _ ih =>
    intro m s hm hi lo he
    simp only [Routine.run] at he ⊢
    cases hr : (S.draw s).reply with
    | none => simp [hr] at he
    | some r =>
      simp only [hr] at he ⊢
      exact ih r m _ hm hi lo he

end Leaves

namespace Check

variable (c : Check) {o : Option Int64}

theorem leave_leaves {crashed : Bool} {rest : Routine ε} (h : Leaves o rest) :
    Leaves o (c.leave crashed rest) := by
  cases c with
  | reread => exact .release h
  | version => exact .bumpVersion (.release h)

theorem drawThen_leaves {adopt : Int64 → Routine ε} (h : ∀ hi, Leaves o (adopt hi)) :
    Leaves o (c.drawThen adopt) := by
  refine .draw fun r => ?_
  cases r with
  | value hi => exact h hi
  | failure cause => exact c.leave_leaves (.finish nofun)
  | crash text => exact c.leave_leaves (.finish nofun)

theorem exclusive_leaves (L : Layout) : Leaves o (c.exclusive L : Routine ε) := by
  have hwork : Leaves o (c.work L : Routine ε) := by
    refine .readHi fun hi => ?_
    split
    · exact c.drawThen_leaves fun first =>
        .bumpLo fun lo => .writeHi (c.leave_leaves (.note .claimed))
    · refine .bumpLo fun lo => ?_
      split
      · exact c.drawThen_leaves fun next =>
          .writeHi (.writeLo (.note (c.leave_leaves .claimed)))
      · exact c.leave_leaves .claimed
  cases c with
  | reread => exact .acquire hwork
  | version => exact .acquire (.bumpVersion hwork)

end Check

theorem Optimistic.attempt_leaves (L : Layout) (n : Nat) :
    ∀ {o : Option Int64}, Leaves o (attempt L n : Routine ε) := by
  induction n with
  | zero => exact Check.reread.exclusive_leaves L
  | succ n ih =>
    refine .readHi fun hi => ?_
    split
    · exact Check.reread.exclusive_leaves L
    refine .bumpLo fun lo => ?_
    split
    · exact Check.reread.exclusive_leaves L
    refine .readHi fun again => ?_
    split
    · exact .claimed
    · exact ih

theorem Stamped.attempt_leaves (L : Layout) (n : Nat) :
    ∀ {o : Option Int64}, Leaves o (attempt L n : Routine ε) := by
  induction n with
  | zero => exact Check.version.exclusive_leaves L
  | succ n ih =>
    refine .readVersion fun stamp => ?_
    split
    · exact ih
    refine .readHi fun hi => ?_
    split
    · exact Check.version.exclusive_leaves L
    refine .readVersion fun before => ?_
    split
    · exact ih
    refine .bumpLo fun lo => ?_
    split
    · exact Check.version.exclusive_leaves L
    refine .readVersion fun later => ?_
    split
    · exact .claimed
    · exact ih

/-- The calls of both designs end with the lo that they moved last. -/
theorem Check.routine_leaves (c : Check) (L : Layout) (attempts : UInt32) :
    Leaves none ((c.design attempts).routine L : Routine ε) := by
  cases c with
  | reread => exact .note (Optimistic.attempt_leaves L _)
  | version => exact .note (Stamped.attempt_leaves L _)

/-! ## Rows of calls without a pair -/

/-- What a run has come to: its last pair, and the number of calls since. -/
structure Trail where
  last : Option (Int64 × Int64)
  since : Nat

namespace Trail

def step (t : Trail) : Ending ε → Trail
  | .claimed hi lo => ⟨some (hi, lo), 0⟩
  | _ => { t with since := t.since + 1 }

def extend (t : Trail) (cs : List (Called σ ε)) : Trail := cs.foldl (fun t c => t.step c.ending) t

def ofCalls (cs : List (Called σ ε)) : Trail := extend ⟨none, 0⟩ cs

/-- Nothing is left: there was no pair, or the last one was the last of its block. -/
def Exhausted (L : Layout) (t : Trail) : Prop :=
  ∀ hi lo, t.last = some (hi, lo) → lo.toInt + 1 = L.size

/-- Behind a used-up block, lo has room for the counts of the next call. -/
def Roomy (L : Layout) (t : Trail) : Prop :=
  ∀ hi lo, t.last = some (hi, lo) → lo.toInt + 1 = L.size → L.size + 2 * t.since + 1 < 2 ^ 63

end Trail

theorem Trail.since_extend_le (t : Trail) (cs : List (Called σ ε)) :
    (t.extend cs).since ≤ t.since + cs.length := by
  induction cs generalizing t with
  | nil => exact Nat.le_refl _
  | cons c cs ih =>
    have hstep : (t.step c.ending).since ≤ t.since + 1 := by
      unfold Trail.step
      split
      · exact Nat.zero_le _
      · exact Nat.le_refl _
    have := ih (t.step c.ending)
    simp only [Trail.extend, List.foldl_cons, List.length_cons] at this ⊢
    omega

/-- A run that is short enough has room throughout. -/
theorem Trail.roomy_of_length {L : Layout} {cs : List (Called σ ε)}
    (h : L.size + 2 * cs.length + 1 < 2 ^ 63) : (Trail.ofCalls cs).Roomy L := by
  intro _ _ _ _
  have hle : (Trail.ofCalls cs).since ≤ 0 + cs.length := Trail.since_extend_le ⟨none, 0⟩ cs
  omega

/-- A call does as it should after a trail. A lo that it accepts is inside the block; so
the pair makes an identifier. When nothing is left the call asks the source, unless it
is refused, and gets a pair only of a hi that the source has just answered. -/
structure Proper (L : Layout) (t : Trail) (a : Called σ ε) : Prop where
  inside : ∀ hi lo, a.ending = .claimed hi lo → hi ≠ reserved ∧ 0 ≤ lo ∧ lo < L.capacity
  calm : ∀ m, a.outcome ≠ .crashed (.misuse m)
  asks : t.Exhausted L → a.ending = .failed .poisoned ∨ a.ending = .unsettled ∨
    a.acts.filterMap Act.answer? ≠ []
  renewed : t.Exhausted L → ∀ hi lo, a.ending = .claimed hi lo →
    lo = 0 ∧ .value hi ∈ a.acts.filterMap Act.answer?

/-- A pair inside its block is put together without complaint. -/
theorem Ending.outcome_ne_misuse {L : Layout} {e : Ending ε}
    (inside : ∀ hi lo, e = .claimed hi lo → hi ≠ reserved ∧ 0 ≤ lo ∧ lo < L.capacity)
    (m : Misuse) : e.outcome L ≠ .crashed (.misuse m) := by
  cases e with
  | claimed hi lo =>
    obtain ⟨hhi, hlo, hinside⟩ := inside hi lo rfl
    simp [Ending.outcome, Layout.compose_eq_ok hhi hlo hinside]
  | failed f => simp [Ending.outcome]
  | crashed text => simp [Ending.outcome]
  | unsettled => simp [Ending.outcome]

/-! ## The invariant -/

/-- The cells hold a desk, its block is that of the last pair of the trail, and once it is
used up lo has moved with the calls since. -/
structure Tracks (L : Layout) (m : Memory) (D : Desk σ) (t : Trail) : Prop where
  holds : ∃ n, Holds L false n m D
  unstarted : D.stock = .none → t.last = none
  started : ∀ hi given, D.stock = .block hi given →
    ∃ lo, t.last = some (hi, lo) ∧ lo.toInt + 1 = given
  reach : D.stock.Spent L.size → m.lo.toInt + 1 ≤ L.size + 2 * t.since

section Bounds

variable {L : Layout} {strict : Bool} {n n' : Nat} {m : Memory} {k : Stock} {D : Desk σ}
  {t : Trail}

/-- A stock that fits has not handed out more than its block. -/
theorem Fits.given_le {hi : Int64} {given : Nat} (h : Fits L n m (.block hi given)) :
    given ≤ L.size := by
  cases h with
  | room _ _ room _ => exact Nat.le_of_lt room
  | spent => exact Nat.le_refl _

/-- Where the trail has nothing left, the stock has not. -/
theorem Tracks.spent_of_exhausted (h : Tracks L m D t) (exhausted : t.Exhausted L) :
    D.stock.Spent L.size := by
  cases hk : D.stock with
  | none => trivial
  | block hi given =>
    obtain ⟨lo, hlast, hlo⟩ := h.started hi given hk
    have := exhausted hi lo hlast
    exact Nat.le_of_eq (by omega)

/-- Lo has room for a call. -/
theorem Tracks.exists_bound (h : Tracks L m D t) (roomy : t.Roomy L) :
    ∃ n, Holds L false n m D ∧ n + 1 < 2 ^ 63 ∧
      (D.stock.Spent L.size → n ≤ L.size + 2 * t.since) := by
  obtain ⟨n, hholds⟩ := h.holds
  have hsize := L.size_lt
  have hfits := hholds.fits
  have hreach := h.reach
  cases hk : D.stock with
  | none =>
    rw [hk] at hfits
    refine ⟨0, hholds.rebound ?_, by omega, fun _ => Nat.zero_le _⟩
    cases hfits with
    | none _ hlo => omega
  | block hi given =>
    obtain ⟨lo, hlast, hlo⟩ := h.started hi given hk
    rw [hk] at hfits hreach
    have hgiven := hfits.given_le
    cases hfits with
    | room _ hmlo room =>
      refine ⟨given, hholds.rebound (by omega), by omega, fun hspent => ?_⟩
      exact absurd room (Nat.not_lt.mpr hspent)
    | spent _ _ bound =>
      have := roomy _ lo hlast hlo
      exact ⟨L.size + 2 * t.since, hholds.rebound (hreach (Nat.le_refl _)), by omega,
        fun _ => Nat.le_refl _⟩

end Bounds

/-! ## Calls -/

/-- A call at a desk hands out the next pair of its block, or the first of a new one, or
leaves the stock used up as it is. -/
theorem Desk.serve_cases (S : Source σ ε) (L : Layout) (spoils : Bool) {D : Desk σ}
    (spent : D.closed = true → D.stock.Spent L.size) :
    (∃ hi given, (D.serve S L.size).ending = .claimed hi (.ofNat given) ∧ given < L.size ∧
      (D.after S spoils L.size).stock = .block hi (given + 1) ∧
      (D.stock.Spent L.size → given = 0 ∧ .value hi ∈ (D.serve S L.size).answers)) ∨
    (D.stock.Spent L.size ∧ (D.after S spoils L.size).stock = D.stock ∧
      (∀ hi lo, (D.serve S L.size).ending ≠ .claimed hi lo) ∧
      ((D.serve S L.size).ending = .failed .poisoned ∨ (D.serve S L.size).ending = .unsettled ∨
        (D.serve S L.size).answers ≠ [])) := by
  cases hclosed : D.closed with
  | true =>
    rw [after_of_closed hclosed, serve_of_closed hclosed]
    exact .inr ⟨spent hclosed, rfl, nofun, .inl rfl⟩
  | false =>
    rw [after, serve_of_open hclosed]
    rcases Stock.serve_cases S L.size D.stock D.source with
      ⟨hi, given, hk, room, heq⟩ | ⟨hspent, heq⟩
    · rw [heq, hk]
      exact .inl ⟨hi, given, rfl, room, rfl, fun h => absurd room (Nat.not_lt.mpr h)⟩
    · have hk : D.stock.Spent L.size := by
        cases hk : D.stock with
        | none => trivial
        | block hi given => exact hspent hi given hk
      rw [heq]
      simp only [Stock.refill, Stock.ended, Stock.refilled, Draw.answers]
      cases hr : (S.draw D.source).reply with
      | none => exact .inr ⟨hk, rfl, by simp, .inr (.inl rfl)⟩
      | some r =>
        cases r with
        | value hi => exact .inl ⟨hi, 0, rfl, L.size_pos, rfl, fun _ => ⟨rfl, by simp⟩⟩
        | failure cause => exact .inr ⟨hk, rfl, by simp, .inr (.inr (by simp))⟩
        | crash text => exact .inr ⟨hk, rfl, by simp, .inr (.inr (by simp))⟩

section Runs

variable {S : Source σ ε} {kind : LockKind} {L : Layout} {c : Check} {attempts : UInt32}

/-- A call that gets a pair keeps the track. -/
theorem Tracks.claimed {m m' : Memory} {D D' : Desk σ} {t : Trail} {a : Called σ ε} {n given : Nat}
    {hi : Int64} (h : Tracks L m D t) (holds : Holds L false n m' D')
    (layout : a.generator.layout = L) (claimed : a.ending = .claimed hi (.ofNat given))
    (room : given < L.size) (stock : D'.stock = .block hi (given + 1)) (lo : m'.lo = .ofNat given)
    (new : D.stock.Spent L.size → given = 0 ∧ .value hi ∈ a.acts.filterMap Act.answer?) :
    Proper L t a ∧ Tracks L m' D' (t.step a.ending) := by
  have hsize := L.size_lt
  have hgiven : (Int64.ofNat given).toInt = given := Int64.toInt_ofNat_of_lt (by omega)
  have hfits : Fits L n m' (.block hi (given + 1)) := stock ▸ holds.fits
  have hinside : ∀ hi' lo, a.ending = .claimed hi' lo →
      hi' ≠ reserved ∧ 0 ≤ lo ∧ lo < L.capacity := by
    intro hi' lo hlo
    obtain ⟨rfl, rfl⟩ := Ending.claimed.inj (hlo.symm.trans claimed)
    refine ⟨hfits.hi_ne_reserved, ?_, Int64.not_le.mp (L.not_capacity_le room)⟩
    rw [Int64.le_iff_toInt_le, hgiven]
    exact Int.natCast_nonneg given
  refine ⟨⟨hinside, Ending.outcome_ne_misuse (layout ▸ hinside), fun hexhausted => ?_,
    fun hexhausted hi' lo hlo => ?_⟩, ?_⟩
  · obtain ⟨-, hmem⟩ := new (h.spent_of_exhausted hexhausted)
    exact .inr (.inr (List.ne_nil_of_mem hmem))
  · obtain ⟨rfl, rfl⟩ := Ending.claimed.inj (hlo.symm.trans claimed)
    obtain ⟨rfl, hmem⟩ := new (h.spent_of_exhausted hexhausted)
    exact ⟨rfl, hmem⟩
  · rw [claimed]
    refine ⟨⟨_, holds⟩, fun hk => ?_, fun hi' given' hk => ?_, fun _ => ?_⟩
    · rw [stock] at hk
      cases hk
    · obtain ⟨rfl, rfl⟩ := Stock.block.inj (stock.symm.trans hk)
      exact ⟨_, rfl, by omega⟩
    · rw [lo, hgiven]
      omega

/-- A call that gets no pair keeps the track: it moves lo twice at most. -/
theorem Tracks.vain {m m' : Memory} {D D' : Desk σ} {t : Trail} {a : Called σ ε} {n : Nat}
    (h : Tracks L m D t) (holds : Holds L false (n + 2) m' D')
    (reach : n ≤ L.size + 2 * t.since) (stock : D'.stock = D.stock)
    (none : ∀ hi lo, a.ending ≠ .claimed hi lo)
    (asks : a.ending = .failed .poisoned ∨ a.ending = .unsettled ∨
      a.acts.filterMap Act.answer? ≠ []) :
    Proper L t a ∧ Tracks L m' D' (t.step a.ending) := by
  have hstep : t.step a.ending = { t with since := t.since + 1 } := by
    cases he : a.ending with
    | claimed hi lo => exact absurd he (none hi lo)
    | _ => rfl
  rw [hstep]
  refine ⟨⟨fun hi lo hlo => absurd hlo (none hi lo),
    Ending.outcome_ne_misuse fun hi lo hlo => absurd hlo (none hi lo), fun _ => asks,
    fun _ hi lo hlo => absurd hlo (none hi lo)⟩, ⟨_, holds⟩, ?_, ?_, fun _ => ?_⟩
  · rw [stock]
    exact h.unstarted
  · rw [stock]
    exact h.started
  · have hle : m'.lo.toInt + 1 ≤ (n + 2 : Nat) := holds.fits.lo_le
    dsimp only
    omega

/-- **One call keeps the track, and does as it should.** -/
theorem Tracks.call {m : Memory} {D : Desk σ} {t : Trail} (h : Tracks L m D t)
    (roomy : t.Roomy L) (S : Source σ ε) (kind : LockKind) (c : Check) (attempts : UInt32) :
    let a := Generator.call S kind ⟨c.design attempts, L, m⟩ D.source
    ∃ D' : Desk σ, D'.source = a.source ∧ Proper L t a ∧
      Tracks L a.generator.memory D' (t.step a.ending) := by
  intro a
  obtain ⟨n, hholds, hn, hreach⟩ := h.exists_bound roomy
  have hstrict : (c.design attempts).isStrict = false := by cases c <;> rfl
  have hshared : (c.design attempts).isShared = true := by cases c <;> rfl
  have hattends := (c.design attempts).attends S kind (hstrict ▸ hholds) (by simp [hshared])
    (Nat.lt_of_succ_lt hn) fun _ => hn
  rw [hstrict] at hattends
  have hending : a.ending = (D.serve S L.size).ending := hattends.ending
  have hanswers : a.acts.filterMap Act.answer? = (D.serve S L.size).answers := hattends.answers
  refine ⟨D.after S ((c.design attempts).spoils kind) L.size, hattends.source.symm, ?_⟩
  rcases Desk.serve_cases S L ((c.design attempts).spoils kind) hholds.spent with
    ⟨hi, given, hclaimed, room, hstock, hnew⟩ | ⟨hspent, hstock, hnone, hasks⟩
  · rw [← hending] at hclaimed
    rw [← hanswers] at hnew
    exact h.claimed hattends.holds rfl hclaimed room hstock
      ((c.routine_leaves L attempts).run S kind m D.source nofun hi _ hclaimed) hnew
  · rw [← hending] at hnone hasks
    rw [← hanswers] at hasks
    exact h.vain hattends.holds (hreach hspent) hstock hnone hasks

/-- **Calls in a row keep the track.** -/
theorem Tracks.calls (n : Nat) :
    ∀ {m : Memory} {D : Desk σ} {t : Trail}, Tracks L m D t →
      let cs := Generator.calls S kind n ⟨c.design attempts, L, m⟩ D.source
      (∀ j < n, (t.extend (cs.take j)).Roomy L) →
      ∀ j a, cs[j]? = some a → Proper L (t.extend (cs.take j)) a := by
  induction n with
  | zero =>
    intro m D t _ cs _ j a ha
    cases ha
  | succ n ih =>
    intro m D t h cs roomy j a ha
    obtain ⟨D', hsource, hproper, htracks⟩ :=
      h.call (roomy 0 (Nat.succ_pos n)) S kind c attempts
    cases j with
    | zero =>
      obtain rfl := Option.some.inj ha
      exact hproper
    | succ j =>
      simp only [cs, Generator.calls, ← hsource] at ha roomy ⊢
      exact ih htracks (fun j hj => roomy (j + 1) (Nat.succ_lt_succ hj)) j a ha

/-- **Lo stays inside its block.** Take a new generator that counts without the lock, any
source and a run of any length in which no row of calls without a pair behind a used-up
block is so long that lo would wrap. No call trips over a lo outside the block or over
the reserved hi, and while nothing is left every call asks the source, unless a spoiled
lock refuses it, and brings a pair only of a hi that it has just got. -/
theorem lo_stays_inside {n : Nat} {s : σ}
    (roomy : ∀ j < n, (Trail.ofCalls ((Generator.calls S kind n
      (.fresh (c.design attempts) L) s).take j)).Roomy L) :
    let cs := Generator.calls S kind n (.fresh (c.design attempts) L) s
    ∀ j a, cs[j]? = some a → Proper L (Trail.ofCalls (cs.take j)) a := by
  have hfresh : Tracks L .fresh (⟨.none, false, s⟩ : Desk σ) ⟨none, 0⟩ :=
    ⟨⟨0, .fresh L false s⟩, fun _ => rfl, nofun, fun _ => show (-1 : Int) + 1 ≤ _ by omega⟩
  exact hfresh.calls n roomy

end Runs

/-- A stamped generator whose source fails twice at a rollover. -/
theorem lo_stays_inside_through_failures :
    let L : Layout := ⟨2, .hilo, by decide⟩
    let feed := Feed.ofSupply (.script (.ofList
      [.value 3, .failure .unit, .failure .unit, .value 5] false)) false
    let cs := Generator.calls Feed.source .poisoning 6 (.fresh (Check.version.design 2) L) feed
    cs.map (·.outcome.id?) = [some 6, some 7, none, none, some 10, some 11] ∧
      ∀ j a, cs[j]? = some a → Proper L (Trail.ofCalls (cs.take j)) a := by
  intro L feed cs
  have hsize : L.size = 2 := rfl
  have hroomy : ∀ j < 6, (Trail.ofCalls (cs.take j)).Roomy L := fun j hj => by
    have hlength : (cs.take j).length ≤ j := List.length_take_le j cs
    exact Trail.roomy_of_length (by omega)
  exact ⟨by decide +kernel, lo_stays_inside hroomy⟩

/-! ## Without the bound -/

/-- A script that has come to its end, after a number of requests. -/
def drained (requests : Nat) : Feed := ⟨.script ⟨[.value 5], [], false⟩, none, false, requests⟩

/-- A block may have one identifier. -/
theorem one_positive : (0 : Int64) < 1 := by decide

/-- A generator with blocks of one identifier, after a pair and `i` calls without one. -/
def worn (i : Nat) : Generator :=
  ⟨.optimistic 4, ⟨1, .hilo, one_positive⟩, { hi := 5, lo := .ofNat (2 * i) }⟩

namespace Optimistic

variable {S : Source σ ε} {kind : LockKind} {L : Layout} {m : Memory} {s : σ}
  {attempts : UInt32} {cause : ε}

/-- Where lo wraps under the lock, the call accepts it. -/
theorem run_of_wrap (hattempts : attempts.toNat ≠ 0) (hhi : m.hi ≠ reserved)
    (hlo : L.capacity ≤ m.lo + 1) (hlo' : ¬ L.capacity ≤ m.lo + 1 + 1) (hm : m.poisoned = false) :
    ((routine L attempts).run S kind m s).ending = .claimed m.hi (m.lo + 1 + 1) := by
  obtain ⟨n, hn⟩ := Nat.exists_eq_succ_of_ne_zero hattempts
  simp [routine, hn, attempt, exclusive, Check.exclusive, Check.enter, Check.work, Check.claimNext,
    Check.leave, Routine.run, Performed.prepend, hhi, hlo, hlo', hm]

/-- Behind a used-up block, a call that the source fails moves lo by two. -/
theorem run_of_failure (hattempts : attempts.toNat ≠ 0) (hhi : m.hi ≠ reserved)
    (hlo : L.capacity ≤ m.lo + 1) (hlo' : L.capacity ≤ m.lo + 1 + 1) (hm : m.poisoned = false)
    (hdraw : (S.draw s).reply = some (.failure cause)) :
    let p := (routine L attempts).run S kind m s
    p.memory = { m with lo := m.lo + 1 + 1 } ∧ p.source = (S.draw s).state := by
  obtain ⟨n, hn⟩ := Nat.exists_eq_succ_of_ne_zero hattempts
  simp [routine, hn, attempt, exclusive, Check.exclusive, Check.enter, Check.work, Check.claimNext,
    Check.drawThen, Check.leave, Routine.drawThen, Routine.run, Performed.prepend, hhi, hlo, hlo',
    hm, hdraw, Memory.released]

end Optimistic

theorem worn_call {i : Nat} (requests : Nat) (hi : i + 1 < 2 ^ 62) :
    let a := (worn i).call Feed.source .poisoning (drained requests)
    a.generator = worn (i + 1) ∧ a.source = drained (requests + 1) := by
  have hlo : (Int64.ofNat (2 * i)).toInt = (2 * i : Nat) := Int64.toInt_ofNat_of_lt (by omega)
  have hfirst := toInt_add_one (x := .ofNat (2 * i)) (by omega)
  have hsecond := toInt_add_one (x := .ofNat (2 * i) + 1) (by omega)
  have hnext : Int64.ofNat (2 * i) + 1 + 1 = .ofNat (2 * (i + 1)) := by
    apply Int64.toInt.inj
    rw [hsecond, hfirst, hlo, Int64.toInt_ofNat_of_lt (by omega)]
    omega
  have hpast : ∀ {x : Int64}, 1 ≤ x.toInt → (1 : Int64) ≤ x := fun h => Int64.le_iff_toInt_le.mpr h
  have hlo₁ : (1 : Int64) ≤ .ofNat (2 * i) + 1 := hpast (by omega)
  have hlo₂ : (1 : Int64) ≤ .ofNat (2 * i) + 1 + 1 := hpast (by omega)
  have hreserved : (5 : Int64) ≠ reserved := by decide
  have hdraw : (Feed.source.draw (drained requests)).reply = some (.failure (.text "exhausted")) :=
    rfl
  obtain ⟨hmemory, hsource⟩ := @Optimistic.run_of_failure _ _ Feed.source .poisoning
    (worn i).layout (worn i).memory (drained requests) 4 _ (by decide) hreserved hlo₁ hlo₂ rfl hdraw
  refine ⟨congrArg (Generator.mk _ _) (hmemory.trans ?_), hsource⟩
  rw [← hnext]
  rfl

/-- Calls without a pair wear the generator out further. -/
theorem worn_calls (n : Nat) :
    ∀ {i requests : Nat} (k : Nat), i + k < 2 ^ 62 →
      ((worn i).calls Feed.source .poisoning (k + n) (drained requests)).drop k
        = (worn (i + k)).calls Feed.source .poisoning n (drained (requests + k))
  | i, requests, 0, _ => by simp
  | i, requests, k + 1, h => by
    obtain ⟨hgenerator, hsource⟩ := worn_call requests (i := i) (by omega)
    rw [Nat.add_right_comm, Generator.calls]
    simp only [hgenerator, hsource, List.drop_succ_cons]
    rw [worn_calls n k (by omega), Nat.add_right_comm i 1 k, Nat.add_right_comm requests 1 k]
    rfl

/-- **Without the bound lo wraps.** A generator with blocks of one identifier gets a pair,
and then its source fails for ever. After `2 ^ 62` calls the next one counts lo over the
greatest number, takes the least one for a lo of the block, and trips over it. -/
theorem lo_wraps :
    ∃ a, (Generator.calls Feed.source .poisoning (2 ^ 62 + 1)
        (.fresh (.optimistic 4) ⟨1, .hilo, by decide⟩)
        (.ofSupply (.script (.ofList [.value 5] false)) false))[2 ^ 62]? = some a ∧
      a.ending = .claimed 5 Int64.minValue ∧ a.outcome = .crashed (.misuse .lo) := by
  have hreserved : (5 : Int64) ≠ reserved := by decide
  have hpast : (1 : Int64) ≤ .ofNat (2 * (2 ^ 62 - 1)) + 1 := by decide
  have hwrapped : ¬ (1 : Int64) ≤ .ofNat (2 * (2 ^ 62 - 1)) + 1 + 1 := by decide
  have hleast : Int64.ofNat (2 * (2 ^ 62 - 1)) + 1 + 1 = Int64.minValue := by decide
  obtain ⟨N, hN⟩ : ∃ N, N + 1 = 2 ^ 62 := ⟨2 ^ 62 - 1, rfl⟩
  rw [show 2 ^ 62 - 1 = N by omega] at hpast hwrapped hleast
  have hcalls : (Generator.calls Feed.source .poisoning (2 ^ 62 + 1)
        (.fresh (.optimistic 4) ⟨1, .hilo, by decide⟩)
        (.ofSupply (.script (.ofList [.value 5] false)) false))[2 ^ 62]?
      = some ((worn N).call Feed.source .poisoning (drained (1 + N))) := by
    have hgenerator : (Generator.call Feed.source .poisoning
        (.fresh (.optimistic 4) ⟨1, .hilo, by decide⟩)
        (.ofSupply (.script (.ofList [.value 5] false)) false)).generator = worn 0 := by
      decide +kernel
    have hsource : (Generator.call Feed.source .poisoning
        (.fresh (.optimistic 4) ⟨1, .hilo, by decide⟩)
        (.ofSupply (.script (.ofList [.value 5] false)) false)).source = drained 1 := by
      simp [Generator.call, Generator.fresh, Design.routine, Optimistic.routine,
        Optimistic.attempt, Optimistic.exclusive, Check.exclusive, Check.enter, Check.work,
        Check.drawThen, Routine.drawThen, Routine.run, Performed.prepend, Memory.fresh]
      rfl
    have hworn : ((worn 0).calls Feed.source .poisoning (N + 1) (drained 1)).drop N = _ :=
      worn_calls 1 N (by omega)
    rw [← hN, Generator.calls, List.getElem?_cons_succ, hgenerator, hsource, ← Nat.add_zero N,
      ← List.getElem?_drop, Nat.add_zero, hworn, Nat.zero_add]
    rfl
  have hending : ((worn N).call Feed.source .poisoning (drained (1 + N))).ending
      = .claimed 5 Int64.minValue := by
    rw [← hleast]
    exact @Optimistic.run_of_wrap _ _ Feed.source .poisoning (worn N).layout (worn N).memory
      (drained (1 + N)) 4 (by decide) hreserved hpast hwrapped rfl
  refine ⟨_, hcalls, hending, ?_⟩
  rw [Called.outcome, hending]
  rfl

end HiLo
