/-
HiLo.Proofs.Singles — blocks of one identifier.

With a capacity of one every call needs a hi of its own, and all threads count lo up meanwhile, far
past the block. Still no hi is lost: a lo inside the block is seen only under the lock, by the call
that has just drawn a hi, and this call returns the pair. So the callers get one identifier for
each usable value of the source (`single_blocks_lossless`), and from a source that goes through the
words they get the words in a row.

The invariant `Singles` says of every call where it stands in its errand, and gives every thread
its receipts.
-/
import HiLo.Proofs.Errands
import HiLo.Proofs.Terms

namespace HiLo

variable {σ ε : Type}

/-! ## The invariant -/

/-- A call is at a spot. While there is no hi, lo is below zero until the holder of the lock has
counted it up. -/
def Spot.Stands (M : Machine σ ε) (i : Nat) : Spot → Prop
  | .outside seen _ => M.holder ≠ some i ∧ (seen = true → M.memory.hi ≠ reserved)
  | .inside hi _ counted => M.holder = some i ∧ M.memory.hi = hi ∧
      (hi = reserved → M.memory.lo = if counted then 0 else -1)

/-- The cells: lo is at the first identifier of a block or past it once there is a hi, and it was
counted up more often than it shows. If all is `calm`, the source goes on with values only. -/
structure Lone (S : Source σ ε) (calm : Prop) (M : Machine σ ε) : Prop where
  steady : calm → ∀ n, ∃ hi, S.reply n M.source = .value hi
  sound : calm → M.memory.poisoned = false
  low : -1 ≤ M.memory.lo.toInt
  high : M.memory.lo.toInt + 1 ≤ M.los.length
  past : M.memory.hi ≠ reserved → 0 ≤ M.memory.lo.toInt
  free : M.holder = none → M.memory.hi = reserved → M.memory.lo = -1

/-- A call is on its way, and its thread has its receipts. -/
def Machine.Running (calm : Prop) (k : Nat) (M : Machine σ ε) (i : Nat) (r : Routine ε)
    (es : List (Event ε)) : Prop :=
  ∃ n p, Errand calm n p r ∧ p.Stands M i ∧ Receipts calm k es p.own 1 n

/-- The cells are those of blocks of one identifier, and every thread has its receipts. -/
structure Singles (S : Source σ ε) (calm : Prop) (k : Nat) (M : Machine σ ε) : Prop where
  cells : Lone S calm M
  booked : M.Booked (M.Running calm k) fun es => Receipts calm k es none 0 0

section

variable {S : Source σ ε} {calm : Prop} {k : Nat} {M M' : Machine σ ε} {i j : Nat} {p : Spot}
  {e : Event ε} {r : Routine ε}

namespace Spot.Stands

theorem congr (h : p.Stands M j) (holder : M'.holder = M.holder)
    (hi : M'.memory.hi = M.memory.hi) (lo : M'.memory.lo = M.memory.lo) : p.Stands M' j := by
  cases p with
  | outside seen own => exact ⟨holder ▸ h.1, hi ▸ h.2⟩
  | inside hi' own counted =>
    exact ⟨holder.trans h.1, hi.trans h.2.1, fun none => lo.trans (h.2.2 none)⟩

/-- A call without the lock relies on nothing but that there is still a hi. -/
theorem of_free (h : p.Stands M j) (free : M.holder ≠ some j) (free' : M'.holder ≠ some j)
    (hi : M.memory.hi ≠ reserved → M'.memory.hi ≠ reserved) : p.Stands M' j := by
  cases p with
  | outside seen own => exact ⟨free', fun hseen => hi (h.2 hseen)⟩
  | inside hi' own counted => exact absurd h.1 free

/-- Under a hi, no call relies on lo. -/
theorem of_hi (h : p.Stands M j) (some : M.memory.hi ≠ reserved) (holder : M'.holder = M.holder)
    (hi : M'.memory.hi = M.memory.hi) : p.Stands M' j := by
  cases p with
  | outside seen own => exact ⟨holder ▸ h.1, hi ▸ h.2⟩
  | inside hi' own counted =>
    exact ⟨holder.trans h.1, hi.trans h.2.1, fun none => absurd (h.2.1.trans none) some⟩

end Spot.Stands

namespace Lone

/-- An event that counts nothing and asks nothing. -/
theorem quiet (h : Lone S calm M) (log : M'.log = (i, e) :: M.log) (count : e.lo? = none)
    (source : M'.source = M.source) (hi : M'.memory.hi = M.memory.hi)
    (lo : M'.memory.lo = M.memory.lo) (sound : calm → M'.memory.poisoned = false)
    (free : M'.holder = none → M'.memory.hi = reserved → M'.memory.lo = -1) : Lone S calm M' where
  steady := source ▸ h.steady
  sound := sound
  low := lo ▸ h.low
  high := by
    have hlos : M'.los = M.los := by simp [Machine.los, log, count]
    rw [lo, hlos]
    exact h.high
  past := by
    rw [hi, lo]
    exact h.past
  free := free

theorem room (h : Lone S calm M) (granted : M.los.length < 2 ^ 62) :
    M.memory.lo.toInt + 1 < 2 ^ 63 := by
  have := h.high
  omega

/-- Lo is counted up. -/
theorem count (h : Lone S calm M) (granted : M.los.length < 2 ^ 62)
    (log : M'.log = (i, .did (.bumpedLo (M.memory.lo + 1))) :: M.log)
    (source : M'.source = M.source)
    (memory : M'.memory = { M.memory with lo := M.memory.lo + 1 })
    (free : M'.holder = none → M'.memory.hi ≠ reserved) : Lone S calm M' := by
  have hnext := toInt_add_one (h.room granted)
  have hlow := h.low
  have hhigh := h.high
  have hlos : M'.los.length = M.los.length + 1 := by
    rw [Machine.los, log]
    rfl
  refine ⟨source ▸ h.steady, memory ▸ h.sound, ?_, ?_, ?_,
    fun hnone hhi => absurd hhi (free hnone)⟩
  · rw [memory]
    dsimp only
    omega
  · rw [memory, hlos]
    dsimp only
    omega
  · rw [memory]
    intro _
    dsimp only
    omega

/-- Under a hi, lo is counted past the block. -/
theorem one_le (h : Lone S calm M) (granted : M.los.length < 2 ^ 62)
    (some : M.memory.hi ≠ reserved) : 1 ≤ M.memory.lo + 1 := by
  have hpast := h.past some
  rw [Int64.le_iff_toInt_le, toInt_add_one (h.room granted), show (1 : Int64).toInt = 1 from rfl]
  omega

end Lone

namespace Singles

/-- A thread has moved. -/
theorem advance (h : Singles S calm k M) {o : Option (Routine ε)} (busy : i < M.threads.length)
    (threads : M'.threads = M.threads.set i o) (log : M'.log = (i, e) :: M.log)
    (cells : Lone S calm M') (own : ∀ r, o = some r → M'.Running calm k i r (e :: share M.log i))
    (ended : o = none → Receipts calm k (e :: share M.log i) none 0 0)
    (kept : M'.holder = some i → o ≠ none)
    (others : ∀ j ≠ i, (M'.holder = some j → M.holder = some j) ∧
      ∀ p : Spot, p.Stands M j → p.Stands M' j) : Singles S calm k M' where
  cells := cells
  booked := h.booked.advance busy threads log own ended kept fun j hj =>
    ⟨(others j hj).1, fun _ _ ⟨n, p, herrand, hp, hreceipts⟩ =>
      ⟨n, p, herrand, (others j hj).2 p hp, hreceipts⟩⟩

/-- A thread has moved, and hi, lo and the lock are as before. -/
theorem stay (h : Singles S calm k M) {o : Option (Routine ε)} (busy : i < M.threads.length)
    (threads : M'.threads = M.threads.set i o) (log : M'.log = (i, e) :: M.log)
    (cells : Lone S calm M') (holder : M'.holder = M.holder) (hi : M'.memory.hi = M.memory.hi)
    (lo : M'.memory.lo = M.memory.lo)
    (own : ∀ r, o = some r → ∃ n p, Errand calm n p r ∧ p.Stands M i ∧
      Receipts calm k (e :: share M.log i) p.own 1 n)
    (ended : o = none → Receipts calm k (e :: share M.log i) none 0 0)
    (kept : M.holder = some i → o ≠ none) : Singles S calm k M' := by
  refine h.advance busy threads log cells (fun r hr => ?_) ended (holder ▸ kept) fun j _ =>
    ⟨by rw [holder]; exact id, fun p hp => hp.congr holder hi lo⟩
  obtain ⟨n, p, herrand, hp, hreceipts⟩ := own r hr
  exact ⟨n, p, herrand, hp.congr holder hi lo, hreceipts⟩

/-- A call goes on, and nothing that matters has changed. -/
theorem proceed (h : Singles S calm k M) (busy : i < M.threads.length)
    (threads : M'.threads = M.threads.set i (some r)) (log : M'.log = (i, e) :: M.log)
    (count : e.lo? = none) (source : M'.source = M.source) (holder : M'.holder = M.holder)
    (hi : M'.memory.hi = M.memory.hi) (lo : M'.memory.lo = M.memory.lo)
    (poisoned : M'.memory.poisoned = M.memory.poisoned)
    (own : ∃ n p, Errand calm n p r ∧ p.Stands M i ∧
      Receipts calm k (e :: share M.log i) p.own 1 n) : Singles S calm k M' := by
  have cells : Lone S calm M' := h.cells.quiet log count source hi lo
    (fun hcalm => poisoned.trans (h.cells.sound hcalm)) fun hnone hhi => by
      rw [lo, h.cells.free (holder ▸ hnone) (hi ▸ hhi)]
  exact h.stay busy threads log cells holder hi lo (fun _ hr => Option.some.inj hr ▸ own) nofun
    fun _ => nofun

/-- A thread has moved under the lock. -/
theorem work (h : Singles S calm k M) (holder : M.holder = some i) (busy : i < M.threads.length)
    (threads : M'.threads = M.threads.set i (some r)) (log : M'.log = (i, e) :: M.log)
    (cells : Lone S calm M') (kept : M'.holder = some i ∨ M'.holder = none)
    (hi : M.memory.hi ≠ reserved → M'.memory.hi ≠ reserved)
    (own : M'.Running calm k i r (e :: share M.log i)) : Singles S calm k M' := by
  refine h.advance busy threads log cells (fun _ hr => Option.some.inj hr ▸ own) nofun
    (fun _ => nofun) fun j hj => ?_
  obtain ⟨hother, hother'⟩ := Machine.holder_ne_of_holder holder kept j hj
  exact ⟨fun heq => absurd heq hother', fun p hp => hp.of_free hother hother' hi⟩

/-- **One action of one thread leaves every thread with its receipts**, as long as lo cannot
wrap. -/
theorem act {A : Arena σ ε} (h : Singles A.source calm k M) (granted : M.los.length < 2 ^ 62)
    (busy : M.threads[i]? = some (some r)) (hact : A.act M i r = some M') :
    Singles A.source calm k M' := by
  have hlt : i < M.threads.length := (List.getElem?_eq_some_iff.mp busy).1
  obtain ⟨n, p, herrand, hp, hreceipts⟩ := h.booked.attended.each busy
  obtain ⟨e, rfl, rfl⟩ | ⟨q, hq, hfree, rfl⟩ := Arena.act_cases hact
  · cases herrand with
    | finish pair some =>
      exact h.stay hlt rfl rfl (h.cells.quiet rfl rfl rfl rfl rfl h.cells.sound h.cells.free)
        rfl rfl rfl nofun (fun _ => hreceipts.ended pair some) fun heq => absurd heq hp.1
  cases herrand with
  | note rest =>
    obtain rfl := Option.some.inj hq
    exact h.proceed hlt rfl rfl rfl rfl rfl rfl rfl rfl
      ⟨_, _, rest, hp, hreceipts.act rfl rfl rfl⟩
  | readVersion rest =>
    obtain rfl := Option.some.inj hq
    exact h.proceed hlt rfl rfl rfl rfl rfl rfl rfl rfl
      ⟨_, _, rest _, hp, hreceipts.act rfl rfl rfl⟩
  | bumpVersion rest =>
    obtain rfl := Option.some.inj hq
    exact h.proceed hlt rfl rfl rfl rfl rfl rfl rfl rfl
      ⟨_, _, rest, hp, hreceipts.act rfl rfl rfl⟩
  | lookHi none some =>
    obtain rfl := Option.some.inj hq
    refine h.proceed hlt rfl rfl rfl rfl rfl rfl rfl rfl ?_
    by_cases hhi : M.memory.hi = reserved
    · exact ⟨_, .outside false _, hhi ▸ none, ⟨hp.1, nofun⟩, hreceipts.act rfl rfl rfl⟩
    · exact ⟨_, .outside true _, some _ hhi, ⟨hp.1, fun _ => hhi⟩, hreceipts.act rfl rfl rfl⟩
  | readHi rest =>
    obtain rfl := Option.some.inj hq
    obtain ⟨hholder, rfl, hlo⟩ := hp
    exact h.proceed hlt rfl rfl rfl rfl rfl rfl rfl rfl
      ⟨_, .inside _ _ _, rest, ⟨hholder, rfl, hlo⟩, hreceipts.act rfl rfl rfl⟩
  | finish => cases hq
  | countLo rest =>
    obtain rfl := Option.some.inj hq
    have hhi : M.memory.hi ≠ reserved := hp.2 rfl
    -- others may work under the lock meanwhile, but they rely on no lo
    refine h.advance hlt rfl rfl (h.cells.count granted rfl rfl rfl fun _ => hhi)
      (fun _ hr => ?_) nofun (fun _ => nofun) fun j _ => ⟨id, fun p hp => hp.of_hi hhi rfl rfl⟩
    obtain rfl := Option.some.inj hr
    exact ⟨_, .outside true _, rest _ (h.cells.one_le granted hhi), hp, hreceipts.act rfl rfl rfl⟩
  | acquire rest =>
    by_cases hpoisoned : M.memory.poisoned = true
    · -- a spoiled lock refuses the call, which has not drawn any hi
      obtain rfl := Option.some.inj ((if_pos hpoisoned).symm.trans hq)
      have rough : ¬ calm := fun hcalm => absurd (hpoisoned.symm.trans (h.cells.sound hcalm)) nofun
      exact h.proceed hlt rfl rfl rfl rfl rfl rfl rfl rfl
        ⟨_, .outside false none, .finish rfl fun hcalm => absurd hcalm rough, ⟨hp.1, nofun⟩,
          hreceipts.act rfl rfl rfl⟩
    · obtain rfl := Option.some.inj ((if_neg hpoisoned).symm.trans hq)
      have hnone : M.holder = none := hfree rfl
      refine h.advance hlt rfl rfl
        (h.cells.quiet rfl rfl rfl rfl rfl h.cells.sound nofun) (fun _ hr => ?_) nofun
        (fun _ => nofun) fun j hj => ?_
      · obtain rfl := Option.some.inj hr
        exact ⟨_, .inside _ none false, rest M.memory.hi, ⟨rfl, rfl, h.cells.free hnone⟩,
          hreceipts.act rfl rfl rfl⟩
      · have hother : some i ≠ some j := fun heq => hj (Option.some.inj heq).symm
        exact ⟨fun heq => absurd heq hother, fun p hp => hp.of_free (by simp [hnone]) hother id⟩
  | @draw n hi f rest =>
    obtain rfl := Option.some.inj hq
    have cells : Lone A.source calm
        ⟨M.memory, M.holder, (A.source.next M.source).2, M.threads.set i (some
          (if (A.source.next M.source).1.isReserved then .draw f
            else f (A.source.next M.source).1)),
          (i, .did (.asked (A.source.next M.source).1)) :: M.log⟩ :=
      { h.cells with steady := fun hcalm n => h.cells.steady hcalm (n + 1) }
    refine h.stay hlt rfl rfl cells rfl rfl rfl (fun _ hr => ?_) nofun fun _ => nofun
    obtain rfl := Option.some.inj hr
    refine ⟨n, .inside hi (A.source.next M.source).1.usable? false, ?_, hp, hreceipts.asked _⟩
    cases ha : (A.source.next M.source).1.isReserved with
    | true =>
      have husable : (A.source.next M.source).1.usable? = none := by
        rw [Reply.eq_of_isReserved ha]
        rfl
      rw [husable, if_pos rfl]
      exact .draw rest
    | false => exact rest _ ha fun hcalm => h.cells.steady hcalm 0
  | countFirst rest =>
    obtain rfl := Option.some.inj hq
    obtain ⟨hholder, hhi, hlo⟩ := hp
    have hzero : M.memory.lo + 1 = 0 := by rw [hlo rfl]; rfl
    exact h.work hholder hlt rfl rfl
      (h.cells.count granted rfl rfl rfl fun hnone => absurd (hholder.symm.trans hnone) nofun)
      (.inl hholder) id ⟨_, .inside reserved _ true, hzero ▸ rest,
        ⟨hholder, hhi, fun _ => hzero⟩, hreceipts.act rfl rfl rfl⟩
  | countNext useful rest =>
    obtain rfl := Option.some.inj hq
    obtain ⟨hholder, rfl, -⟩ := hp
    exact h.work hholder hlt rfl rfl
      (h.cells.count granted rfl rfl rfl fun _ => useful) (.inl hholder) id
      ⟨_, .inside _ _ false, rest _ (h.cells.one_le granted useful),
        ⟨hholder, rfl, fun hnone => absurd hnone useful⟩, hreceipts.act rfl rfl rfl⟩
  | setFirst useful rest =>
    obtain rfl := Option.some.inj hq
    obtain ⟨hholder, -, hlo⟩ := hp
    have hzero : M.memory.lo = 0 := hlo rfl
    exact h.work hholder hlt rfl rfl { h.cells with
      past := fun _ => by rw [hzero]; decide
      free := fun _ hnone => absurd hnone useful } (.inl hholder) (fun _ => useful)
      ⟨_, .inside _ _ false, rest, ⟨hholder, rfl, fun hnone => absurd hnone useful⟩,
        hreceipts.act rfl rfl rfl⟩
  | setNext useful useful' rest =>
    obtain rfl := Option.some.inj hq
    obtain ⟨hholder, rfl, -⟩ := hp
    exact h.work hholder hlt rfl rfl { h.cells with
      past := fun _ => h.cells.past useful
      free := fun _ hnone => absurd hnone useful' } (.inl hholder) (fun _ => useful')
      ⟨_, .inside _ _ false, rest, ⟨hholder, rfl, fun hnone => absurd hnone useful'⟩,
        hreceipts.act rfl rfl rfl⟩
  | restart useful rest =>
    obtain rfl := Option.some.inj hq
    obtain ⟨hholder, rfl, -⟩ := hp
    have hzero : (0 : Int64).toInt = 0 := rfl
    have hcounted : (0 : Int64).toInt + 1 ≤ M.los.length := by
      have hpast := h.cells.past useful
      have hhigh := h.cells.high
      omega
    exact h.work hholder hlt rfl rfl { h.cells with
      low := (by decide : -1 ≤ (0 : Int64).toInt)
      high := hcounted
      past := fun _ => (by decide : 0 ≤ (0 : Int64).toInt)
      free := fun _ hnone => absurd hnone useful } (.inl hholder) id
      ⟨_, .inside _ _ false, rest, ⟨hholder, rfl, fun hnone => absurd hnone useful⟩,
        hreceipts.act rfl rfl rfl⟩
  | release useful sound rest =>
    obtain rfl := Option.some.inj hq
    obtain ⟨hholder, rfl, hlo⟩ := hp
    exact h.work hholder hlt rfl rfl
      (h.cells.quiet rfl rfl rfl rfl rfl
        (fun hcalm => by simp [Memory.released, h.cells.sound hcalm, sound hcalm])
        fun _ hnone => hlo hnone) (.inr rfl) id
      ⟨_, .outside _ _, rest, ⟨nofun, useful⟩, hreceipts.act rfl rfl rfl⟩

/-- Idle threads at a new generator. -/
theorem fresh (S : Source σ ε) (k threads : Nat) (s : σ) :
    Singles S (∀ n, ∃ hi, S.reply n s = .value hi) k (Machine.idle threads .fresh s) where
  cells := by
    have low : -1 ≤ (-1 : Int64).toInt := by decide
    have high : (-1 : Int64).toInt + 1 ≤ ((0 : Nat) : Int) := by decide
    exact ⟨id, fun _ => rfl, low, high, fun some => absurd rfl some, fun _ _ => rfl⟩
  booked := .fresh _ (.nil _ k) threads .fresh s

section Runs

variable {A : Arena σ ε} {n : Nat} (call : Errand calm n (.outside false none) A.call)
  (enough : n + 1 ≤ k)

include call enough

/-- **One move of one thread leaves every thread with its receipts.** -/
theorem move (granted : M.los.length < 2 ^ 62) (h : Singles A.source calm k M)
    (hmove : A.move M i = some M') : Singles A.source calm k M' := by
  rcases Arena.move_cases hmove with ⟨hidle, rfl⟩ | ⟨r, hbusy, hact⟩
  · have hholder := h.booked.attended.holder_ne hidle
    have hreceipts := h.booked.idle (i := i) fun r hr => absurd (hidle.symm.trans hr) nofun
    exact h.proceed (List.getElem?_eq_some_iff.mp hidle).1 rfl rfl rfl rfl rfl rfl rfl rfl
      ⟨n, .outside false none, call, ⟨hholder, nofun⟩, hreceipts.began enough⟩
  · exact h.act granted hbusy hact

/-- **Every interleaving leaves every thread with its receipts**, as long as lo cannot wrap. -/
theorem run : ∀ {sched : List Nat} {M M' : Machine σ ε}, A.run M sched = some M' →
    M'.los.length < 2 ^ 62 → Singles A.source calm k M → Singles A.source calm k M'
  | [], M, M', hrun, _, h => by
    obtain rfl := Option.some.inj hrun
    exact h
  | i :: sched, M, M', hrun, granted, h => by
    have hlos := Arena.length_los_run hrun
    obtain ⟨M₁, hmove, hrest⟩ := Option.bind_eq_some_iff.mp hrun
    exact run hrest granted (h.move call enough (by omega) hmove)

end Runs

/-- The moves are those that were granted to the calls, and the answers of the source. -/
theorem length_log_le (h : Singles S calm k M) :
    M.log.length ≤ k * M.calls + M.replies.length := by
  have hmoves : M.log.countP (fun _ => true) ≤ k * M.calls + M.replies.length := by
    rw [Machine.replies, List.length_filterMap_eq_countP]
    refine countP_le_add_of_share (q := fun _ => true) (r := Event.isBegin)
      (t := fun e => e.answer?.isSome) fun i => ?_
    rw [List.countP_true, ← List.length_filterMap_eq_countP]
    obtain ⟨r, -, n, p, -, -, hreceipts⟩ | hreceipts := h.booked.busy_or_idle i
    · exact Nat.le_trans (Nat.le_add_right _ _) hreceipts.moves
    · exact hreceipts.moves
  rwa [List.countP_true] at hmoves

/-- While a thread makes a call, one that does can move. -/
theorem exists_move {A : Arena σ ε} (h : Singles S calm k M) (busy : M.busy i = true) :
    ∃ j M', M.busy j = true ∧ A.move M j = some M' := by
  refine h.booked.attended.exists_move (fun j w ⟨n, p, herrand, hp, _⟩ => ?_) busy
  cases herrand with
  | acquire => exact hp.1

/-- A thread that makes no call has returned the hi values that it was answered, one after
another. -/
theorem endings_eq (h : Singles S calm k M) (idle : M.busy i = false) :
    (M.endings i).filterMap Ending.pair?
      = (((M.answers i).filterMap Reply.usable?).map (·, 0)).reverse := by
  obtain ⟨his, husable, hpairs, -⟩ := (h.booked.of_not_busy idle).paid
  have hanswers : (share M.log i).filterMap Event.usable?
      = ((M.answers i).filterMap Reply.usable?).reverse := by
    rw [← List.filterMap_reverse, ← M.filterMap_answer_share, List.filterMap_filterMap]
    rfl
  rw [← M.filterMap_ending_share, hpairs, ← List.map_reverse, ← hanswers, husable]
  rfl

/-- No more hi values were answered than calls have begun. -/
theorem length_usable_le (h : Singles S calm k M) :
    (M.replies.filterMap Reply.usable?).length ≤ M.calls := by
  rw [M.filterMap_usable_replies, List.length_filterMap_eq_countP]
  rw [← Nat.one_mul M.calls]
  refine countP_le_of_share (q := fun e : Event ε => e.usable?.isSome) (r := Event.isBegin)
    fun i => ?_
  rw [← List.length_filterMap_eq_countP, Nat.one_mul]
  obtain ⟨r, -, n, p, -, -, hreceipts⟩ | hreceipts := h.booked.busy_or_idle i
  · exact hreceipts.length_usable_le (by cases p.own <;> simp)
  · exact hreceipts.length_usable_le (Nat.le_refl 0)

section Over

variable (h : Singles S calm k M) (idle : M.Idle)

include h idle

/-- When all calls are over, the pairs are the hi values that the source answered, with lo zero. -/
theorem pairs_of_idle : ((M.log.filterMap fun x => x.2.ending?).filterMap Ending.pair?).Perm
    ((M.replies.filterMap Reply.usable?).map (·, 0)) := by
  rw [M.filterMap_usable_replies, List.filterMap_filterMap, List.map_filterMap]
  refine perm_filterMap (f := fun e : Event ε => e.ending?.bind Ending.pair?)
    (g := fun e : Event ε => e.usable?.map (·, 0)) fun i => ?_
  obtain ⟨his, husable, hpairs, -⟩ := (h.booked.of_not_busy (idle i)).paid
  rw [← List.filterMap_filterMap, hpairs, ← List.map_filterMap, husable]
  rfl

/-- If all is calm, every call has ended with such a pair. -/
theorem endings_of_idle (hcalm : calm) : (M.log.filterMap fun x => x.2.ending?).Perm
    ((M.replies.filterMap Reply.usable?).map (.claimed · 0)) := by
  rw [M.filterMap_usable_replies, List.map_filterMap]
  refine perm_filterMap (f := Event.ending?)
    (g := fun e : Event ε => e.usable?.map (.claimed · 0)) fun i => ?_
  obtain ⟨his, husable, -, hends⟩ := (h.booked.of_not_busy (idle i)).paid
  rw [hends hcalm, ← List.map_filterMap, husable]
  rfl

/-- When all calls are over, each of them has ended. -/
theorem length_endings_of_idle : (M.log.filterMap fun x => x.2.ending?).length = M.calls := by
  rw [List.length_filterMap_eq_countP]
  refine countP_eq_of_share (q := fun e : Event ε => e.ending?.isSome) (r := Event.isBegin)
    fun i => ?_
  rw [(h.booked.of_not_busy (idle i)).begun, List.length_filterMap_eq_countP]
  rfl

end Over

end Singles

end

/-! ## Sources that count -/

/-- The first `m` words from `start` on, wrapping, without the reserved value. -/
def words (start : Int64) (m : Nat) : List Int64 :=
  ((List.range m).map fun i => start + .ofNat i).filter (· ≠ reserved)

/-- A source never fails and goes through the words in order from `start` on. It may answer the
reserved value in its turn, or leave it out. -/
structure Source.Dense (S : Source σ ε) (s : σ) (start : Int64) : Prop where
  value (n : Nat) : ∃ hi, S.reply n s = .value hi
  row (n : Nat) : ∃ m, n ≤ m ∧ S.usables n s = words start m

section

variable {start : Int64}

theorem words_succ (start : Int64) (m : Nat) : words start (m + 1)
    = words start m ++ if start + .ofNat m = reserved then [] else [start + .ofNat m] := by
  unfold words
  rw [List.range_succ, List.map_append, List.filter_append]
  by_cases hm : start + .ofNat m = reserved <;> simp [hm]

/-- No two words in a row are left out. -/
theorem le_length_words (start : Int64) : ∀ m, m ≤ 2 * (words start m).length + 1
  | 0 => Nat.zero_le _
  | 1 => Nat.le_add_left 1 _
  | m + 2 => by
    have hm := le_length_words start m
    have hone : start + .ofNat m = reserved → start + .ofNat (m + 1) ≠ reserved := by
      intro heq heq'
      rw [Int64.ofNat_add, ← Int64.add_assoc, heq] at heq'
      exact absurd heq' (by decide)
    rw [words_succ, words_succ, List.length_append, List.length_append]
    split
    · next hleft =>
      rw [if_neg (hone hleft), List.length_singleton]
      omega
    · rw [List.length_singleton]
      omega

/-- A progression by ones goes through all words. -/
theorem Progression.dense (ε : Type) (p : Progression) (one : p.step = 1) :
    (Progression.source ε).Dense p p.upcoming where
  value n := ⟨_, reply_source ε n p⟩
  row n := by
    refine ⟨n + p.skips n, Nat.le_add_right n _, ?_⟩
    have hterm : ∀ i, p.upcoming + .ofNat i = p.term i := fun i => by
      rw [term, one, Int64.mul_one]
    induction n with
    | zero =>
      rw [skips, due]
      split
      · next hfirst => simp [words, Source.usables, hfirst]
      · rfl
    | succ n ih =>
      have hvalue := term_skips_ne_reserved n p
      have husable : ((source ε).reply n p).usable? = some (p.term (n + p.skips n)) := by
        rw [reply_source, Reply.usable?, if_neg hvalue]
      rw [Source.usables_succ, husable, ih, skips_succ]
      split
      · next hskip =>
        rw [show n + 1 + (p.skips n + 1) = n + p.skips n + 1 + 1 by omega, words_succ, words_succ,
          hterm, hterm, if_neg hvalue, if_pos hskip, List.append_nil]
        rfl
      · rw [show n + 1 + (p.skips n + 0) = n + p.skips n + 1 by omega, words_succ, hterm,
          if_neg hvalue]
        rfl

end

/-! ## The theorem -/

/-- Lo zero makes an identifier with every usable hi. -/
theorem Source.compose_of_mem_usables {S : Source σ ε} {s : σ} {n : Nat} (L : Layout)
    {hi : Int64} (mem : hi ∈ S.usables n s) :
    L.compose hi 0 = .ok (L.scheme.combine hi 0 L.capacity) := by
  obtain ⟨i, -, husable⟩ := List.mem_filterMap.mp mem
  exact L.compose_eq_ok (Reply.ne_reserved_of_usable? husable) (by decide) L.positive

/-- A call has an identifier if it ended with a pair that makes one. -/
theorem Ending.id?_outcome (L : Layout) (e : Ending ε) :
    (e.outcome L).id? = e.pair?.bind fun p => (L.compose p.1 p.2).toOption := by
  cases e with
  | claimed hi lo =>
    rw [outcome, pair?, Option.bind_some]
    cases L.compose hi lo <;> rfl
  | _ => rfl

namespace Singles

variable {S : Source σ ε} {calm : Prop} {k n : Nat} {s : σ} {M : Machine σ ε} {L : Layout}
  (h : Singles S calm k M) (idle : M.Idle)
  (answered : M.replies.filterMap Reply.usable? = (S.usables n s).reverse)

include h idle answered

/-- When all calls are over, there is one identifier for each usable answer. -/
theorem ids_of_idle : ((M.outcomes L).filterMap Outcome.id?).Perm
    ((S.usables n s).map fun hi => L.scheme.combine hi 0 L.capacity) := by
  have hids : (M.outcomes L).filterMap Outcome.id?
      = ((M.log.filterMap fun x => x.2.ending?).filterMap Ending.pair?).filterMap
        fun p => (L.compose p.1 p.2).toOption := by
    rw [Machine.outcomes, List.filterMap_map, show Outcome.id? ∘ Ending.outcome L = _ from
      funext (Ending.id?_outcome L)]
    exact List.filterMap_filterMap.symm
  have hcompose : (S.usables n s).filterMap (fun hi => (L.compose hi 0).toOption)
      = (S.usables n s).map fun hi => L.scheme.combine hi 0 L.capacity := by
    rw [← List.filterMap_eq_map]
    refine List.filterMap_congr fun hi hmem => ?_
    rw [Source.compose_of_mem_usables L hmem]
    rfl
  have hpairs := (h.pairs_of_idle idle).filterMap fun p => (L.compose p.1 p.2).toOption
  rw [List.filterMap_map, answered] at hpairs
  rw [hids, ← hcompose]
  exact hpairs.trans ((List.reverse_perm _).filterMap _)

/-- If all is calm, every call has got one of them. -/
theorem outcomes_of_idle (hcalm : calm) : (M.outcomes L).Perm
    ((S.usables n s).map fun hi => .id (L.scheme.combine hi 0 L.capacity)) := by
  have houtcome : ∀ hi ∈ S.usables n s, (Ending.claimed hi 0).outcome L
      = (.id (L.scheme.combine hi 0 L.capacity) : Outcome ε) := by
    intro hi hmem
    rw [Ending.outcome, Source.compose_of_mem_usables L hmem]
  have hends := (h.endings_of_idle idle hcalm).map (Ending.outcome L)
  rw [answered, List.map_map] at hends
  exact hends.trans (((List.reverse_perm _).map _).trans
    (.of_eq (List.map_congr_left houtcome)))

end Singles

/-- **Blocks of one identifier lose none.** Take a design that counts without the lock, a capacity
of one, and any number of threads, calls and attempts in any interleaving where lo cannot wrap, with
any source. Then a thread between two calls has returned just the hi values that it was answered,
each with lo zero; no call goes on for ever but for the source, and none is stuck; and when all are
over, the callers have one identifier for each usable value that the source has answered.

From a source that goes through the words in order, every call gets an identifier, and together they
are the first words, the reserved one left out. -/
theorem single_blocks_lossless {S : Source σ ε} {kind : LockKind} {L : Layout}
    (one : L.capacity = 1) {c : Check} {attempts : UInt32} {threads : Nat} {s : σ}
    {sched : List Nat} {M : Machine σ ε}
    (hrun : ((Generator.fresh (c.design attempts) L).arena S kind).run
      (.idle threads .fresh s) sched = some M) (granted : M.los.length < 2 ^ 62) :
    let A := (Generator.fresh (c.design attempts) L).arena S kind
    let k := 3 * attempts.toNat + 13
    (∀ i, M.busy i = false → (M.endings i).filterMap Ending.pair?
      = (((M.answers i).filterMap Reply.usable?).map (·, 0)).reverse) ∧
    sched.length ≤ k * M.calls + M.replies.length ∧
    (∀ i, M.busy i = true → ∃ j M', M.busy j = true ∧ A.move M j = some M') ∧
    M.source = S.after M.replies.length s ∧
    (M.Idle → ((M.outcomes L).filterMap Outcome.id?).Perm
      ((S.usables M.replies.length s).map fun hi => L.scheme.combine hi 0 L.capacity)) ∧
    (∀ start, S.Dense s start → sched.length ≤ (k + 2) * M.calls + 1 ∧
      (M.Idle → ∃ m, (words start m).length = M.calls ∧
        (M.outcomes L).Perm ((words start m).map .id))) := by
  intro A k
  have h : Singles S (∀ n, ∃ hi, S.reply n s = .value hi) k M :=
    Singles.run (c.routine_errand one attempts) (Nat.le_refl _) hrun granted (.fresh S k threads s)
  have hgives : S.Gives s M.replies.reverse M.source := Arena.gives_run hrun .nothing
  have husables : M.replies.filterMap Reply.usable? = (S.usables M.replies.length s).reverse := by
    rw [← List.length_reverse, ← hgives.usables_eq, List.filterMap_reverse, List.reverse_reverse]
  have hmoves : sched.length ≤ k * M.calls + M.replies.length :=
    Arena.length_log_run hrun ▸ h.length_log_le
  refine ⟨fun i => h.endings_eq, hmoves, fun i busy => h.exists_move busy, ?_, fun idle => ?_,
    fun start hdense => ?_⟩
  · rw [← List.length_reverse]
    exact hgives.after_eq
  · exact h.ids_of_idle idle husables
  · obtain ⟨m, hm, hrow⟩ := hdense.row M.replies.length
    have hcounted : (words start m).length ≤ M.calls := by
      have hlength := h.length_usable_le
      rwa [husables, List.length_reverse, hrow] at hlength
    have hreplies : M.replies.length ≤ 2 * M.calls + 1 := by
      have := le_length_words start m
      omega
    refine ⟨?_, fun idle => ?_⟩
    · rw [Nat.add_mul]
      omega
    · have houtcomes := h.outcomes_of_idle (L := L) idle husables hdense.value
      have hself : ∀ hi, L.scheme.combine hi 0 L.capacity = hi := fun hi => by
        rw [one]
        cases L.scheme <;> simp [Scheme.combine]
      simp only [hself, hrow] at houtcomes
      have hlength := houtcomes.length_eq
      rw [Machine.outcomes, List.length_map, h.length_endings_of_idle idle, List.length_map]
        at hlength
      exact ⟨m, hlength.symm, houtcomes⟩

/-- Two first calls, the second of which has seen no hi when the first one draws the last word
before the reserved one. -/
theorem single_blocks_lossless_around_reserved :
    let S := Progression.source Unit
    let p : Progression := ⟨Int64.maxValue, 1, by decide⟩
    let L : Layout := ⟨1, .hilo, by decide⟩
    let A := (Generator.fresh (Check.reread.design 1) L).arena S .poisoning
    let sched := [0, 0, 0, 0, 1, 1, 1] ++ List.replicate 7 0 ++ List.replicate 9 1
    ∃ M, A.run (.idle 2 .fresh p) sched = some M ∧ M.Idle ∧
      ((M.outcomes L).filterMap Outcome.id?).Perm [Int64.maxValue, Int64.minValue + 1] ∧
      ∃ m, (words Int64.maxValue m).length = 2 ∧
        (M.outcomes L).Perm ((words Int64.maxValue m).map .id) := by
  intro S p L A sched
  have hend : (A.run (.idle 2 .fresh p) sched).map (fun M => (M.threads.all Option.isNone, M.calls,
      M.los.length, M.replies.length)) = some (true, 2, 2, 2) := by
    decide +kernel
  obtain ⟨M, hM, hdata⟩ := Option.map_eq_some_iff.mp hend
  simp only [Prod.mk.injEq] at hdata
  obtain ⟨hidle, hcalls, hlos, hreplies⟩ := hdata
  have hidle := Machine.idle_of_all hidle
  obtain ⟨-, -, -, -, hids, hdense⟩ :=
    single_blocks_lossless rfl hM (by rw [hlos]; decide)
  have hall := (hdense _ (p.dense Unit rfl)).2 hidle
  rw [hcalls] at hall
  refine ⟨M, hM, hidle, ?_, hall⟩
  have hvalues : ((S.usables 2 p).map fun hi => L.scheme.combine hi 0 L.capacity)
      = [Int64.maxValue, Int64.minValue + 1] := by
    decide +kernel
  have hperm := hids hidle
  rwa [hreplies, hvalues] at hperm

end HiLo
