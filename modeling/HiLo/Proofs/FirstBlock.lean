/-
HiLo.Proofs.FirstBlock — the first block of a new generator.

Take a new generator that looks at hi twice, a source whose first answer is a usable hi, and
no more calls than a block has identifiers. Then every call counts lo up once, whatever the
interleaving: the hi that a call sees stays the same, so the lo it has counted is its own.
No call spins, waits for ever or fails, and one request to the source serves all of them.

`Frugal` says what is left of a call at its post, with a bound on its moves; `Account` is what the
log has of its thread. The accounts of all threads add up to what the callers got, and to a
bound on the moves of all together. `no_early_rollover` has this beside what holds of every
rollover.
-/
import HiLo.Proofs.Posts
import HiLo.Proofs.Rollover
import HiLo.Source.Progression

namespace HiLo

variable {σ ε : Type}

/-! ## The account of a thread -/

/-- What the log has of a thread: its calls have ended with the lo values that they have
counted, but for those in `own`; every call has counted one, but for `wants` calls; and
there are few enough moves for `left` more. -/
structure Account (hi : Int64) (es : List (Event ε)) (own : List Int64) (wants left : Nat) :
    Prop where
  paid : ∃ los : List Int64, es.filterMap Event.lo? = own ++ los ∧
    es.filterMap Event.ending? = los.map (.claimed hi)
  begun : es.countP Event.isBegin = es.countP (·.lo?.isSome) + wants
  moves : es.length + left ≤ 11 * es.countP Event.isBegin

namespace Account

variable {hi lo : Int64} {es : List (Event ε)} {own : List Int64} {wants left : Nat}

theorem nil : Account hi ([] : List (Event ε)) [] 0 0 := ⟨⟨[], rfl, rfl⟩, rfl, Nat.le_refl _⟩

/-- A call begins, with ten more moves. -/
theorem began (h : Account hi es [] 0 0) : Account hi (.began :: es) [] 1 10 where
  paid := h.paid
  begun := by
    have := h.begun
    simp only [List.countP_cons, Event.isBegin, Event.lo?] at this ⊢
    simpa using this
  moves := by
    have := h.moves
    simp only [List.countP_cons, Event.isBegin, List.length_cons, if_true]
    omega

/-- A thread acts and counts nothing. -/
theorem act (h : Account hi es own wants (left + 1)) {e : Event ε} (begin : e.isBegin = false)
    (lo : e.lo? = none) (ending : e.ending? = none) : Account hi (e :: es) own wants left where
  paid := by
    rw [List.filterMap_cons_none lo, List.filterMap_cons_none ending]
    exact h.paid
  begun := by
    rw [List.countP_cons_of_neg (by simp [begin]), List.countP_cons_of_neg (by simp [lo])]
    exact h.begun
  moves := by
    have := h.moves
    rw [List.countP_cons_of_neg (by simp [begin]), List.length_cons]
    omega

/-- A thread counts lo up. -/
theorem count (h : Account hi es [] 1 (left + 1)) (lo : Int64) :
    Account hi (.did (.bumpedLo lo) :: es) [lo] 0 left where
  paid := by
    obtain ⟨los, hlos, hendings⟩ := h.paid
    exact ⟨los, congrArg (lo :: ·) hlos, hendings⟩
  begun := by
    rw [List.countP_cons_of_neg (by simp [Event.isBegin]), List.countP_cons_of_pos rfl]
    exact h.begun
  moves := by
    have := h.moves
    rw [List.countP_cons_of_neg (by simp [Event.isBegin]), List.length_cons]
    omega

/-- A call ends with the lo that it has counted. -/
theorem ended (h : Account hi es [lo] 0 (left + 1)) :
    Account hi (.ended (.claimed hi lo) :: es) [] 0 0 where
  paid := by
    obtain ⟨los, hlos, hendings⟩ := h.paid
    exact ⟨lo :: los, hlos, congrArg (Ending.claimed hi lo :: ·) hendings⟩
  begun := by
    rw [List.countP_cons_of_neg (by simp [Event.isBegin]),
      List.countP_cons_of_neg (by simp [Event.lo?])]
    exact h.begun
  moves := by
    have := h.moves
    rw [List.countP_cons_of_neg (by simp [Event.isBegin]), List.length_cons]
    omega

end Account

/-! ## What is left of a call -/

/-- The rest of a call that ends with a pair of `hi` after `n` moves at most, where every hi
that it sees is `hi`, every lo that it counts is inside the block, and the source answers
with `hi`. -/
inductive Frugal (L : Layout) (hi : Int64) : Nat → Post → Routine ε → Prop where
  | note {n : Nat} {p : Post} {x : Note} {r : Routine ε} (rest : Frugal L hi n p r) :
      Frugal L hi (n + 1) p (.note x r)
  | lookHi {n : Nat} {seen : Bool} {f : Int64 → Routine ε}
      (unset : Frugal L hi n (.waiting false) (f reserved))
      (given : Frugal L hi n (.waiting true) (f hi)) :
      Frugal L hi (n + 1) (.waiting seen) (.readHi f)
  | countLo {n : Nat} {f : Int64 → Routine ε}
      (rest : ∀ lo, lo < L.capacity → Frugal L hi n (.holding lo) (f lo)) :
      Frugal L hi (n + 1) (.waiting true) (.bumpLo f)
  | acquire {n : Nat} {seen : Bool} {r : Routine ε} (unset : Frugal L hi n (.working reserved) r)
      (given : Frugal L hi n (.working hi) r) : Frugal L hi (n + 1) (.waiting seen) (.acquire r)
  | readHi {n : Nat} {found : Int64} {f : Int64 → Routine ε}
      (rest : Frugal L hi n (.working found) (f found)) :
      Frugal L hi (n + 1) (.working found) (.readHi f)
  | draw {n : Nat} {f : Reply ε → Routine ε} (rest : Frugal L hi n .drawn (f (.value hi))) :
      Frugal L hi (n + 1) (.working reserved) (.draw f)
  | countFirst {n : Nat} {f : Int64 → Routine ε}
      (rest : ∀ lo, lo < L.capacity → Frugal L hi n (.counted lo) (f lo)) :
      Frugal L hi (n + 1) .drawn (.bumpLo f)
  | countNext {n : Nat} {f : Int64 → Routine ε}
      (rest : ∀ lo, lo < L.capacity → Frugal L hi n (.settled lo) (f lo)) :
      Frugal L hi (n + 1) (.working hi) (.bumpLo f)
  | publish {n : Nat} {lo : Int64} {r : Routine ε} (rest : Frugal L hi n (.settled lo) r) :
      Frugal L hi (n + 1) (.counted lo) (.writeHi hi r)
  | release {n : Nat} {lo : Int64} {r : Routine ε} (rest : Frugal L hi n (.holding lo) r) :
      Frugal L hi (n + 1) (.settled lo) (.release false r)
  | confirm {n : Nat} {lo : Int64} {f : Int64 → Routine ε}
      (rest : Frugal L hi n (.holding lo) (f hi)) : Frugal L hi (n + 1) (.holding lo) (.readHi f)
  | finish {n : Nat} {lo : Int64} :
      Frugal L hi (n + 1) (.holding lo) (.finish (.claimed hi lo))

namespace Optimistic

variable {L : Layout} {hi : Int64}

theorem exclusive_frugal (hhi : hi ≠ reserved) (n : Nat) {seen : Bool} :
    Frugal L hi (n + 8) (.waiting seen) (exclusive L : Routine ε) := by
  refine .acquire (.readHi ?_) (.readHi ?_)
  · rw [if_pos rfl]
    exact .draw (.countFirst fun lo _ => .publish (.release (.note .finish)))
  · rw [if_neg hhi]
    refine .countNext fun lo inside => ?_
    rw [if_neg (Int64.not_le.mpr inside)]
    exact .release .finish

theorem attempt_frugal (hhi : hi ≠ reserved) :
    ∀ n, Frugal L hi 9 (.waiting false) (attempt L n : Routine ε)
  | 0 => exclusive_frugal hhi 1
  | n + 1 => by
    rw [attempt_succ]
    refine .lookHi ?_ ?_
    · rw [if_pos rfl]
      exact exclusive_frugal hhi 0
    · rw [if_neg hhi]
      refine .countLo fun lo inside => ?_
      rw [if_neg (Int64.not_le.mpr inside)]
      refine .confirm ?_
      rw [if_pos rfl]
      exact .finish

/-- **Every call is frugal**, with ten moves. -/
theorem routine_frugal (hhi : hi ≠ reserved) (attempts : UInt32) :
    Frugal L hi 10 (.waiting false) (routine L attempts : Routine ε) :=
  .note (attempt_frugal hhi _)

end Optimistic

/-! ## The invariant -/

/-- What the log has of a thread fits its call: where it stands, what is left of it, and
its account. -/
def Machine.Fits (L : Layout) (hi : Int64) (s : σ) (M : Machine σ ε) (i : Nat) (r : Routine ε) :
    Prop :=
  ∃ n p, Frugal L hi n p r ∧ p.Stands hi s M i ∧ Account hi (share M.log i) p.own p.wants n

/-- The cells are those of a first block, and every thread has its account. -/
structure Opening (L : Layout) (hi : Int64) (s : σ) (M : Machine σ ε) : Prop where
  early : Early hi s M
  attended : M.Attended (M.Fits L hi s)
  idle {i : Nat} (idle : ∀ r, M.threads[i]? ≠ some (some r)) :
    Account hi (share M.log i) [] 0 0

/-- What is left of a call fits its post and the account of its thread. -/
def Post.Accounted (L : Layout) (hi : Int64) (p : Post) (r : Routine ε) (es : List (Event ε)) :
    Prop :=
  ∃ n, Frugal L hi n p r ∧ Account hi es p.own p.wants n

/-! ## Every thread keeps its account -/

section

variable {L : Layout} {hi : Int64} {s : σ} {M M' : Machine σ ε} {i : Nat} {r : Routine ε}

namespace Opening

theorem posted (h : Opening L hi s M) :
    Posted (Post.Accounted L hi) (Account hi · [] 0 0) hi s M where
  early := h.early
  booked.attended.held := h.attended.held
  booked.attended.each busy := by
    obtain ⟨n, p, hfrugal, hp, haccount⟩ := h.attended.each busy
    exact ⟨p, ⟨n, hfrugal, haccount⟩, hp⟩
  booked.idle := h.idle

theorem of_posted (h : Posted (Post.Accounted L hi) (Account hi · [] 0 0) hi s M) :
    Opening L hi s M where
  early := h.early
  attended.held := h.booked.attended.held
  attended.each busy := by
    obtain ⟨p, ⟨n, hfrugal, haccount⟩, hp⟩ := h.booked.attended.each busy
    exact ⟨n, p, hfrugal, hp, haccount⟩
  idle := h.booked.idle

/-- Every thread has an account. -/
theorem exists_account (h : Opening L hi s M) (i : Nat) :
    ∃ own wants left, Account hi (share M.log i) own wants left := by
  obtain ⟨r, -, p, ⟨n, -, haccount⟩, -⟩ | haccount := h.posted.booked.busy_or_idle i
  · exact ⟨_, _, _, haccount⟩
  · exact ⟨_, _, _, haccount⟩

/-- While a call has still to count, there are fewer counts than calls. -/
theorem length_los_lt (h : Opening L hi s M) {own : List Int64} {left : Nat}
    (wants : Account hi (share M.log i) own 1 left) : M.los.length < M.calls := by
  rw [M.length_los]
  refine countP_lt_of_share (q := fun e => e.lo?.isSome) (r := Event.isBegin) (i := i)
    (fun j => ?_) ?_
  · obtain ⟨own, wants, left, haccount⟩ := h.exists_account j
    have := haccount.begun
    omega
  · have := wants.begun
    omega

/-- What a call counts next is inside the block. -/
theorem next_inside (h : Opening L hi s M) (room : M.calls ≤ L.size) {own : List Int64} {left : Nat}
    (wants : Account hi (share M.log i) own 1 left) :
    M.los.length < L.size ∧ M.memory.lo + 1 < L.capacity := by
  have hcounted := Nat.lt_of_lt_of_le (h.length_los_lt wants) room
  exact ⟨hcounted, h.early.next_lo hcounted ▸ Layout.lo_lt_capacity hcounted⟩

/-- **One action of one thread leaves every thread with its account**, as long as there are
no more calls than a block has identifiers. -/
theorem act {A : Arena σ ε} (useful : hi ≠ reserved) (first : A.source.reply 0 s = .value hi)
    (room : M.calls ≤ L.size) (h : Opening L hi s M) (busy : M.threads[i]? = some (some r))
    (hact : A.act M i r = some M') : Opening L hi s M' := by
  have hlt : i < M.threads.length := (List.getElem?_eq_some_iff.mp busy).1
  have hposted := h.posted
  obtain ⟨p, ⟨n, hfrugal, haccount⟩, hp⟩ := hposted.booked.attended.each busy
  refine of_posted ?_
  obtain ⟨e, rfl, rfl⟩ | ⟨q, hq, hfree, rfl⟩ := Arena.act_cases hact
  · cases hfrugal with
    | finish =>
      exact hposted.stay hlt rfl rfl rfl rfl rfl rfl rfl nofun (fun _ => haccount.ended)
        fun heq => absurd heq hp.1
  cases hfrugal with
  | note rest =>
    obtain rfl := Option.some.inj hq
    exact hposted.proceed hlt rfl rfl rfl rfl rfl rfl rfl
      ⟨_, ⟨_, rest, haccount.act rfl rfl rfl⟩, hp⟩
  | lookHi unset given =>
    obtain rfl := Option.some.inj hq
    refine hposted.proceed hlt rfl rfl rfl rfl rfl rfl rfl ?_
    rcases h.early.one with hunset | hgiven
    · exact ⟨.waiting false, ⟨_, hunset ▸ unset, haccount.act rfl rfl rfl⟩, ⟨hp.1, nofun⟩⟩
    · exact ⟨.waiting true, ⟨_, hgiven ▸ given, haccount.act rfl rfl rfl⟩,
        ⟨hp.1, fun _ => hgiven⟩⟩
  | confirm rest =>
    obtain rfl := Option.some.inj hq
    obtain ⟨hholder, hgiven⟩ := hp
    exact hposted.proceed hlt rfl rfl rfl rfl rfl rfl rfl
      ⟨.holding _, ⟨_, hgiven ▸ rest, haccount.act rfl rfl rfl⟩, ⟨hholder, hgiven⟩⟩
  | readHi rest =>
    obtain rfl := Option.some.inj hq
    obtain ⟨hholder, rfl, huntouched⟩ := hp
    exact hposted.proceed hlt rfl rfl rfl rfl rfl rfl rfl
      ⟨.working _, ⟨_, rest, haccount.act rfl rfl rfl⟩, ⟨hholder, rfl, huntouched⟩⟩
  | finish => cases hq
  | acquire unset given =>
    obtain rfl := Option.some.inj ((if_neg (Bool.eq_false_iff.mp h.early.sound)).symm.trans hq)
    have hnone : M.holder = none := hfree rfl
    -- whoever takes the lock finds hi set, or that nothing has happened yet
    refine hposted.advance hlt rfl rfl (h.early.quiet rfl rfl rfl rfl nofun) (fun _ hr => ?_) nofun
      (fun _ => nofun) fun j hj => ?_
    · obtain rfl := Option.some.inj hr
      rcases h.early.one with hunset | hgiven
      · obtain ⟨hsource, hreplies, hlos⟩ := h.early.free hnone hunset
        exact ⟨.working reserved, ⟨_, unset, haccount.act rfl rfl rfl⟩,
          ⟨rfl, hunset, fun _ => ⟨hsource, hreplies, hlos⟩⟩⟩
      · exact ⟨.working hi, ⟨_, given, haccount.act rfl rfl rfl⟩,
          ⟨rfl, hgiven, fun heq => absurd heq useful⟩⟩
    · have hother : some i ≠ some j := fun heq => hj (Option.some.inj heq).symm
      exact ⟨fun heq => absurd heq hother, fun p hp => hp.of_free (by simp [hnone]) hother id⟩
  | countLo rest =>
    obtain rfl := Option.some.inj hq
    obtain ⟨hholder, hseen⟩ := hp
    have hgiven : M.memory.hi = hi := hseen rfl
    obtain ⟨hroom, hinside⟩ := h.next_inside room haccount
    -- others may work under the lock meanwhile, but hi is set, and they rely on no lo
    refine hposted.advance hlt rfl rfl (h.early.count hroom rfl rfl fun _ => hgiven ▸ useful)
      (fun _ hr => ?_) nofun (fun _ => nofun) fun j _ =>
        ⟨id, fun p hp => hp.of_hi useful hgiven rfl rfl⟩
    obtain rfl := Option.some.inj hr
    exact ⟨.holding _, ⟨_, rest _ hinside, haccount.count _⟩, ⟨hholder, hgiven⟩⟩
  | @draw n f rest =>
    obtain rfl := Option.some.inj hq
    obtain ⟨hholder, hunset, huntouched⟩ := hp
    obtain ⟨rfl, hreplies, hlos⟩ := huntouched rfl
    -- nobody has asked before, so this is the first answer, and the draw is over with it
    have hanswer : (A.source.next M.source).1 = .value hi := first
    refine hposted.work hholder hlt rfl rfl { h.early with
      asked := fun hgiven => absurd (hgiven.symm.trans hunset) useful
      free := fun hnone => absurd (hholder.symm.trans hnone) nofun } (.inl hholder) id
      ⟨.drawn, ⟨n, ?_, haccount.act rfl rfl rfl⟩, ⟨hholder, hunset, ?_⟩⟩
    · rw [hanswer, if_neg (Bool.eq_false_iff.mp (Reply.isReserved_value.mpr useful))]
      exact rest
    · have hasked : (A.source.next M.source).1 :: M.replies = [.value hi] := by
        rw [hanswer, hreplies]
      exact hasked
  | countFirst rest =>
    obtain rfl := Option.some.inj hq
    obtain ⟨hholder, hunset, hreplies⟩ := hp
    obtain ⟨hroom, hinside⟩ := h.next_inside room haccount
    exact hposted.work hholder hlt rfl rfl
      (h.early.count hroom rfl rfl fun hnone => absurd (hholder.symm.trans hnone) nofun)
      (.inl hholder) id
      ⟨.counted _, ⟨_, rest _ hinside, haccount.count _⟩, ⟨hholder, hunset, hreplies⟩⟩
  | countNext rest =>
    obtain rfl := Option.some.inj hq
    obtain ⟨hholder, hgiven, -⟩ := hp
    obtain ⟨hroom, hinside⟩ := h.next_inside room haccount
    exact hposted.work hholder hlt rfl rfl
      (h.early.count hroom rfl rfl fun hnone => absurd (hholder.symm.trans hnone) nofun)
      (.inl hholder) id ⟨.settled _, ⟨_, rest _ hinside, haccount.count _⟩, ⟨hholder, hgiven⟩⟩
  | publish rest =>
    obtain rfl := Option.some.inj hq
    obtain ⟨hholder, hunset, hreplies⟩ := hp
    exact hposted.work hholder hlt rfl rfl { h.early with
      one := .inr rfl
      asked := fun _ => hreplies
      free := fun hnone => absurd (hholder.symm.trans hnone) nofun } (.inl hholder) (fun _ => rfl)
      ⟨.settled _, ⟨_, rest, haccount.act rfl rfl rfl⟩, ⟨hholder, rfl⟩⟩
  | release rest =>
    obtain rfl := Option.some.inj hq
    obtain ⟨hholder, hgiven⟩ := hp
    exact hposted.work hholder hlt rfl rfl { h.early with
      sound := by simp [Memory.released, h.early.sound]
      free := fun _ hunset => absurd (hgiven.symm.trans hunset) useful } (.inr rfl) id
      ⟨.holding _, ⟨_, rest, haccount.act rfl rfl rfl⟩, ⟨nofun, hgiven⟩⟩

/-- Idle threads at a new generator. -/
theorem fresh (useful : hi ≠ reserved) (L : Layout) (threads : Nat) (s : σ) :
    Opening L hi s (Machine.idle threads .fresh s : Machine σ ε) :=
  of_posted (.fresh .nil useful threads s)

/-- **One move of one thread leaves every thread with its account.** -/
theorem move {A : Arena σ ε} (useful : hi ≠ reserved) (first : A.source.reply 0 s = .value hi)
    (call : Frugal L hi 10 (.waiting false) A.call) (room : M.calls ≤ L.size)
    (h : Opening L hi s M) (hmove : A.move M i = some M') : Opening L hi s M' := by
  rcases Arena.move_cases hmove with ⟨hidle, rfl⟩ | ⟨r, hbusy, hact⟩
  · have hholder := h.attended.holder_ne hidle
    have haccount := h.idle (i := i) fun r hr => absurd (hidle.symm.trans hr) nofun
    exact of_posted <| h.posted.proceed (List.getElem?_eq_some_iff.mp hidle).1 rfl rfl rfl rfl rfl
      rfl rfl ⟨.waiting false, ⟨10, call, haccount.began⟩, ⟨hholder, nofun⟩⟩
  · exact h.act useful first room hbusy hact

/-- **Every interleaving leaves every thread with its account**, as long as there are no more
calls than a block has identifiers. -/
theorem run {A : Arena σ ε} (useful : hi ≠ reserved) (first : A.source.reply 0 s = .value hi)
    (call : Frugal L hi 10 (.waiting false) A.call) :
    ∀ {sched : List Nat} {M M' : Machine σ ε}, A.run M sched = some M' → M'.calls ≤ L.size →
      Opening L hi s M → Opening L hi s M'
  | [], M, M', hrun, _, h => by
    obtain rfl := Option.some.inj hrun
    exact h
  | i :: sched, M, M', hrun, room, h => by
    obtain ⟨M₁, hmove, hrest⟩ := Option.bind_eq_some_iff.mp hrun
    exact run useful first call hrest room
      (h.move useful first call (Nat.le_trans (Arena.calls_run hrun) room) hmove)

/-- No call moves more than ten times after it has begun. -/
theorem length_log_le (h : Opening L hi s M) : M.log.length ≤ 11 * M.calls := by
  have hmoves : M.log.countP (fun _ => true) ≤ 11 * M.calls := by
    refine countP_le_of_share (q := fun _ => true) (r := Event.isBegin) fun i => ?_
    obtain ⟨own, wants, left, haccount⟩ := h.exists_account i
    have := haccount.moves
    rw [List.countP_true]
    omega
  rwa [List.countP_true] at hmoves

/-- While a thread has something left of its call, one that has can move. -/
theorem exists_move {A : Arena σ ε} (h : Opening L hi s M) (busy : M.busy i = true) :
    ∃ j M', M.busy j = true ∧ A.move M j = some M' := by
  refine h.attended.exists_move (fun j w ⟨_, p, hfrugal, hp, _⟩ => ?_) busy
  cases hfrugal with
  | acquire => exact hp.1

section Over

variable (h : Opening L hi s M) (idle : M.Idle)

include h idle

theorem account_of_idle (i : Nat) : Account hi (share M.log i) [] 0 0 :=
  h.posted.booked.of_not_busy (idle i)

/-- When all calls are over, each has counted once. -/
theorem length_los_of_idle : M.los.length = M.calls := by
  rw [M.length_los]
  exact countP_eq_of_share fun i => (h.account_of_idle idle i).begun.symm

/-- When all calls are over, each has got an identifier of the block. -/
theorem outcomes_of_idle (useful : hi ≠ reserved) (room : M.calls ≤ L.size) :
    (M.outcomes L).Perm ((List.range M.calls).map fun k =>
      .id (L.scheme.combine hi (.ofNat k) L.capacity)) := by
  have hendings : (M.log.filterMap fun x => x.2.ending?).Perm (M.los.map (.claimed hi)) := by
    rw [Machine.los, List.map_filterMap]
    refine perm_filterMap (f := Event.ending?)
      (g := fun e : Event ε => e.lo?.map (.claimed hi)) fun i => ?_
    obtain ⟨los, hlos, hendings⟩ := (h.account_of_idle idle i).paid
    rw [hendings, ← List.map_filterMap, hlos, List.nil_append]
  have houtcome : ∀ k ∈ List.range M.calls, (Ending.claimed hi (.ofNat k)).outcome L
      = (.id (L.scheme.combine hi (.ofNat k) L.capacity) : Outcome ε) := by
    intro k hk
    have hlt : k < L.size := Nat.lt_of_lt_of_le (List.mem_range.mp hk) room
    rw [Ending.outcome, L.compose_ofNat useful hlt]
  -- the latest count comes first in the log
  refine (hendings.map (Ending.outcome L)).trans ?_
  rw [h.early.los, h.length_los_of_idle idle, List.map_map, List.map_map]
  refine ((List.reverse_perm _).map _).trans (.of_eq ?_)
  exact List.map_congr_left houtcome

/-- When all calls are over, and there were any, the source was asked once. -/
theorem replies_of_idle (some : M.calls ≠ 0) : M.replies = [.value hi] := by
  have hfree : M.holder = none := idle.free fun _ => h.attended.held
  refine h.early.asked (h.early.one.resolve_left fun hunset => some ?_)
  rw [← h.length_los_of_idle idle, (h.early.free hfree hunset).los]
  rfl

end Over

end Opening

end

/-! ## The theorem -/

/-- **The source is not asked too early.** Take a design that counts without the lock, and
any number of threads, calls and attempts in any interleaving, with any source. As long as
lo cannot wrap, whoever asks the source holds the lock, and no hi was adopted yet or every
lo of the current block was claimed, once; so until a block of claims was made, all calls
that get a pair share one hi.

With the design that looks at hi twice, where the source first answers with a usable hi and
there are no more calls than a block has identifiers, no call goes on for ever and none is
stuck; and when all are over, they have got the identifiers of the block from the first on,
for one request to the source. -/
theorem no_early_rollover {S : Source σ ε} {kind : LockKind} {L : Layout} {c : Check}
    {attempts : UInt32} {threads : Nat} {s : σ} {sched : List Nat} {M : Machine σ ε}
    (hrun : ((Generator.fresh (c.design attempts) L).arena S kind).run
      (.idle threads .fresh s) sched = some M) :
    let A := (Generator.fresh (c.design attempts) L).arena S kind
    let g := Ledger.ofLog L M.log
    (g.bumps < 2 ^ 62 →
      (∀ i a M', A.move M i = some M' → M'.log = (i, .did (.asked a)) :: M.log →
        M.holder = some i ∧ (g.adopted = [] ∨
          ∀ lo, 0 ≤ lo → lo < L.capacity → g.issued.count (g.block, lo) = 1)) ∧
      (g.issued.length < L.size →
        g.adopted.length ≤ 1 ∧ (M.pairs ≠ [] → g.adopted.length = 1))) ∧
    (c = .reread → ∀ hi, S.reply 0 s = .value hi → hi ≠ reserved → M.calls ≤ L.size →
      sched.length ≤ 11 * M.calls ∧
      (∀ i, M.busy i = true → ∃ j M', M.busy j = true ∧ A.move M j = some M') ∧
      (M.Idle →
        (M.outcomes L).Perm ((List.range M.calls).map fun k =>
          .id (L.scheme.combine hi (.ofNat k) L.capacity)) ∧
        (M.calls ≠ 0 → M.replies = [.value hi]))) := by
  intro A g
  refine ⟨fun granted => ?_, fun hc hi first useful room => ?_⟩
  · have h : Sparing L M :=
      Sparing.run (c.routine_thrifty L attempts) hrun granted (.idle L threads s)
    refine ⟨fun i a M' hmove asked => h.of_asked hmove asked, fun few => ?_⟩
    have hone := h.length_adopted_le few
    refine ⟨hone, fun hpairs => ?_⟩
    have hsome := List.length_pos_iff.mpr (h.paired hpairs)
    exact Nat.le_antisymm hone hsome
  · subst hc
    have h : Opening L hi s M :=
      Opening.run useful first (Optimistic.routine_frugal useful attempts) hrun room
        (.fresh useful L threads s)
    have hmoves := Arena.length_log_run hrun
    refine ⟨hmoves ▸ h.length_log_le, fun i busy => h.exists_move busy, fun idle => ?_⟩
    exact ⟨h.outcomes_of_idle idle useful room, h.replies_of_idle idle⟩

/-- Two first calls, the second of which waits for the first and returns before it; and a
rollover while another call has counted beyond the block. -/
theorem no_early_rollover_of_two :
    let S := Progression.source Unit
    let L : Layout := ⟨2, .hilo, by decide⟩
    let A := (Generator.fresh (Check.reread.design 1) L).arena S .poisoning
    let L' : Layout := ⟨1, .hilo, by decide⟩
    let A' := (Generator.fresh (Check.version.design 1) L').arena S .poisoning
    ∃ M N N',
      A.run (.idle 2 .fresh ⟨5, 1, by decide⟩) ([0, 0, 0, 1, 1, 1] ++ List.replicate 6 0
        ++ List.replicate 5 1 ++ [0, 0]) = some M ∧
      M.Idle ∧ (M.outcomes L).Perm [.id 10, .id 11] ∧ M.replies = [.value 5] ∧
      A'.run (.idle 2 .fresh ⟨5, 1, by decide⟩) (List.replicate 16 0 ++ List.replicate 5 1
        ++ List.replicate 8 0 ++ [1]) = some N ∧
      A'.move N 0 = some N' ∧ N'.log = (0, .did (.asked (.value 6))) :: N.log ∧
      N.holder = some 0 ∧ (Ledger.ofLog L' N.log).issued.count (0, 0) = 1 := by
  intro S L A L' A'
  have hfirst : (A.run (.idle 2 .fresh ⟨5, 1, by decide⟩) ([0, 0, 0, 1, 1, 1]
      ++ List.replicate 6 0 ++ List.replicate 5 1 ++ [0, 0])).map
        (fun M => (M.threads.all Option.isNone, M.calls)) = some (true, 2) := by
    decide +kernel
  have hnext : ((A'.run (.idle 2 .fresh ⟨5, 1, by decide⟩) (List.replicate 16 0
      ++ List.replicate 5 1 ++ List.replicate 8 0 ++ [1])).bind fun N =>
        (A'.move N 0).map fun N' =>
          let g := Ledger.ofLog L' N.log
          (decide (N'.log = (0, .did (.asked (.value 6))) :: N.log), g.bumps, g.adopted))
        = some (true, 4, [5]) := by
    decide +kernel
  obtain ⟨M, hM, hdata⟩ := Option.map_eq_some_iff.mp hfirst
  obtain ⟨hidle, hcalls⟩ := Prod.mk.inj hdata
  obtain ⟨N, hN, hnext⟩ := Option.bind_eq_some_iff.mp hnext
  obtain ⟨N', hN', hdata'⟩ := Option.map_eq_some_iff.mp hnext
  simp only [Prod.mk.injEq, decide_eq_true_eq] at hdata'
  obtain ⟨hasked, hbumps, hadopted⟩ := hdata'
  have hidle := Machine.idle_of_all hidle
  have hover := ((no_early_rollover hM).2 rfl 5 rfl (by decide) (by rw [hcalls]; decide)).2.2 hidle
  have hrollover := ((no_early_rollover hN).1 (by rw [hbumps]; decide)).1 0 _ N' hN' hasked
  rw [hcalls] at hover
  refine ⟨M, N, N', hM, hidle, hover.1, hover.2 (by decide), hN, hN', hasked, hrollover.1, ?_⟩
  have hcount := hrollover.2.resolve_left (by rw [hadopted]; decide) 0 (by decide) (by decide)
  rwa [Ledger.block, hadopted] at hcount

end HiLo
