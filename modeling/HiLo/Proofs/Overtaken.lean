/-
HiLo.Proofs.Overtaken — the first block of a new generator, under stamps.

Take a new generator that counts under a stamp, a source whose first answer is a usable hi, and
calls in any interleaving. Somebody who saw no hi may take the lock after the hi was set, and moves
the version on, between the count and the second check of another call. That call gives up the lo
that it has counted, although hi has not changed (`racing_calls_lose_lo`).

Nothing else is lost: while all counts are inside the block, every call gets an identifier of it,
and those identifiers together with the lo values that were given up are the first ones in a row
(`first_block_under_stamps`). So the callers get the first identifiers if and only if no count was
given up.

`Insists` says what is left of a call, with a bound on its moves and on the lo values that it gives
up, and `Balance` what the log has of its thread.
-/
import HiLo.Proofs.Posts
import HiLo.Source.Progression

namespace HiLo

variable {σ ε : Type}

/-! ## Lo values that were given up -/

/-- The lo that a thread gives up with its latest event: it has counted the lo just after it had
seen its stamp, and then sees another version. -/
def discard? : List (Event ε) → Option Int64
  | .did (.sawVersion later) :: .did (.bumpedLo lo) :: .did (.sawVersion stamp) :: _ =>
    if later = stamp then none else some lo
  | _ => none

def discarded (es : List (Event ε)) : List Int64 := (pasts es).filterMap discard?

def Machine.discards (M : Machine σ ε) : List Int64 :=
  (histories M.log).filterMap fun x => discard? x.2

/-- They are those of all threads together. -/
theorem Machine.length_discards (M : Machine σ ε) {s : Finset Nat} (all : owners M.log ⊆ s) :
    M.discards.length = ∑ i ∈ s, (discarded (share M.log i)).length := by
  rw [discards, List.length_filterMap_eq_countP,
    countP_eq_sum (fun past => (discard? past).isSome) s (owners_histories M.log ▸ all)]
  refine Finset.sum_congr rfl fun i _ => ?_
  rw [share_histories, discarded, List.length_filterMap_eq_countP]

/-- A version that is seen while no count is to be checked gives up nothing. -/
theorem discard?_of_plain {v : UInt64} {e : Event ε} {es : List (Event ε)} (plain : e.lo? = none) :
    discard? (.did (.sawVersion v) :: e :: es) = none := by
  cases e with
  | did a => cases a <;> first | rfl | cases plain
  | _ => rfl

theorem discarded_cons_none {e : Event ε} {es : List (Event ε)} (h : discard? (e :: es) = none) :
    discarded (e :: es) = discarded es := List.filterMap_cons_none h

theorem discarded_cons_some {e : Event ε} {es : List (Event ε)} {lo : Int64}
    (h : discard? (e :: es) = some lo) : discarded (e :: es) = lo :: discarded es :=
  List.filterMap_cons_some h

/-! ## Lo values that were won -/

def Ending.lo? : Ending ε → Option Int64
  | .claimed _ lo => some lo
  | _ => none

/-- The lo values that calls ended with, latest first. -/
def Machine.won (M : Machine σ ε) : List Int64 :=
  (M.log.filterMap fun x => x.2.ending?).filterMap Ending.lo?

theorem Ending.filterMap_lo?_claimed (hi : Int64) (los : List Int64) :
    (los.map (.claimed hi : Int64 → Ending ε)).filterMap Ending.lo? = los := by
  rw [List.filterMap_map]
  exact List.filterMap_some

/-- With one hi, different lo values make different identifiers. -/
theorem Scheme.combine_inj {m : Scheme} {hi lo lo' capacity : Int64} :
    m.combine hi lo capacity = m.combine hi lo' capacity ↔ lo = lo' := by
  cases m <;> unfold combine <;> grind

/-! ## The balance of a thread -/

/-- What the log has of a thread: the lo values that it has counted are those in `own`, those that
its calls ended with and those that it has given up, and the latest one was not given up unless a
call has still to count; every call has counted one more than it has given up, but for `wants`
calls; and there are few enough moves for `left` more, and few enough lo values given up for `tries`
more. -/
structure Balance (hi : Int64) (attempts : Nat) (es : List (Event ε)) (own : List Int64)
    (wants left tries : Nat) : Prop where
  paid : ∃ los : List Int64, (es.filterMap Event.lo?).Perm ((own ++ los) ++ discarded es) ∧
    es.filterMap Event.ending? = los.map (.claimed hi) ∧
    (wants = 0 → ∀ lo ∈ (es.filterMap Event.lo?).head?, lo ∈ own ++ los)
  begun : es.countP Event.isBegin + (discarded es).length = es.countP (·.lo?.isSome) + wants
  moves : es.length + left ≤ (5 * attempts + 12) * es.countP Event.isBegin
  tries : (discarded es).length + tries ≤ attempts * es.countP Event.isBegin

namespace Balance

variable {hi lo : Int64} {attempts wants left tries : Nat} {es : List (Event ε)} {own : List Int64}

theorem nil (hi : Int64) (attempts : Nat) :
    Balance hi attempts ([] : List (Event ε)) [] 0 0 0 :=
  ⟨⟨[], .nil, rfl, fun _ => nofun⟩, rfl, Nat.zero_le _, Nat.zero_le _⟩

/-- A call begins, with all its moves and attempts. -/
theorem began (h : Balance hi attempts es [] 0 0 0) :
    Balance hi attempts (.began :: es) [] 1 (5 * attempts + 11) attempts where
  paid := by
    obtain ⟨los, hlos, hends, -⟩ := h.paid
    exact ⟨los, hlos, hends, nofun⟩
  begun := by
    have := h.begun
    rw [List.countP_cons_of_pos rfl, List.countP_cons_of_neg (by simp [Event.lo?]),
      discarded_cons_none rfl]
    omega
  moves := by
    have := h.moves
    rw [List.countP_cons_of_pos rfl, List.length_cons, Nat.mul_add, Nat.mul_one]
    omega
  tries := by
    have := h.tries
    rw [List.countP_cons_of_pos rfl, discarded_cons_none rfl, Nat.mul_add, Nat.mul_one]
    omega

/-- A thread acts, and neither counts nor gives up anything. -/
theorem act (h : Balance hi attempts es own wants (left + 1) tries) {e : Event ε}
    (begin : e.isBegin = false) (lo : e.lo? = none) (ending : e.ending? = none)
    (kept : discard? (e :: es) = none) : Balance hi attempts (e :: es) own wants left tries where
  paid := by
    rw [List.filterMap_cons_none lo, List.filterMap_cons_none ending, discarded_cons_none kept]
    exact h.paid
  begun := by
    rw [List.countP_cons_of_neg (by simp [begin]), List.countP_cons_of_neg (by simp [lo]),
      discarded_cons_none kept]
    exact h.begun
  moves := by
    have := h.moves
    rw [List.countP_cons_of_neg (by simp [begin]), List.length_cons]
    omega
  tries := by
    rw [List.countP_cons_of_neg (by simp [begin]), discarded_cons_none kept]
    exact h.tries

/-- A thread counts lo up. -/
theorem count (h : Balance hi attempts es [] 1 (left + 1) tries) (lo : Int64) :
    Balance hi attempts (.did (.bumpedLo lo) :: es) [lo] 0 left tries where
  paid := by
    obtain ⟨los, hlos, hends, -⟩ := h.paid
    refine ⟨los, hlos.cons lo, hends, fun _ lo' hhead => ?_⟩
    obtain rfl : lo = lo' := Option.some.inj hhead
    exact List.mem_cons_self
  begun := by
    have := h.begun
    rw [List.countP_cons_of_neg (by simp [Event.isBegin]), List.countP_cons_of_pos rfl,
      discarded_cons_none rfl]
    omega
  moves := by
    have := h.moves
    rw [List.countP_cons_of_neg (by simp [Event.isBegin]), List.length_cons]
    omega
  tries := by
    rw [List.countP_cons_of_neg (by simp [Event.isBegin]), discarded_cons_none rfl]
    exact h.tries

/-- A call gives up the lo that it has counted. -/
theorem discard (h : Balance hi attempts es [lo] 0 (left + 1) (tries + 1)) {later : UInt64}
    (lost : discard? (.did (.sawVersion later) :: es) = some lo) :
    Balance hi attempts (.did (.sawVersion later) :: es) [] 1 left tries where
  paid := by
    obtain ⟨los, hlos, hends, -⟩ := h.paid
    refine ⟨los, ?_, hends, nofun⟩
    rw [List.filterMap_cons_none rfl, discarded_cons_some lost, List.nil_append]
    exact hlos.trans List.perm_middle.symm
  begun := by
    have := h.begun
    rw [List.countP_cons_of_neg (by simp [Event.isBegin]),
      List.countP_cons_of_neg (by simp [Event.lo?]), discarded_cons_some lost, List.length_cons]
    omega
  moves := by
    have := h.moves
    rw [List.countP_cons_of_neg (by simp [Event.isBegin]), List.length_cons]
    omega
  tries := by
    have := h.tries
    rw [List.countP_cons_of_neg (by simp [Event.isBegin]), discarded_cons_some lost,
      List.length_cons]
    omega

/-- A call ends with the lo that it has counted. -/
theorem ended (h : Balance hi attempts es [lo] 0 (left + 1) tries) :
    Balance hi attempts (.ended (.claimed hi lo) :: es) [] 0 0 0 where
  paid := by
    obtain ⟨los, hlos, hends, hlatest⟩ := h.paid
    exact ⟨lo :: los, hlos, congrArg (Ending.claimed hi lo :: ·) hends, hlatest⟩
  begun := by
    rw [List.countP_cons_of_neg (by simp [Event.isBegin]),
      List.countP_cons_of_neg (by simp [Event.lo?]), discarded_cons_none rfl]
    exact h.begun
  moves := by
    have := h.moves
    rw [List.countP_cons_of_neg (by simp [Event.isBegin]), List.length_cons]
    omega
  tries := by
    have := h.tries
    rw [List.countP_cons_of_neg (by simp [Event.isBegin]), discarded_cons_none rfl]
    omega

end Balance

/-! ## What is left of a call -/

/-- The rest of a call that ends with a pair of `hi` after `n` moves and `tries` lo values given up
at most, where every hi that it sees is `hi`, every lo that it counts is inside the block, and the
source answers with `hi`. The call stands at a post, and its thread has just done what is `latest`:
a lo is given up only right after it was counted under a stamp. -/
inductive Insists (L : Layout) (hi : Int64) :
    Nat → Nat → Post → List (Event ε) → Routine ε → Prop where
  | note {n tries : Nat} {p : Post} {latest : List (Event ε)} {x : Note} {r : Routine ε}
      (rest : Insists L hi n tries p [.did (.noted x)] r) :
      Insists L hi (n + 1) tries p latest (.note x r)
  | readVersion {n tries : Nat} {seen : Bool} {e : Event ε} {f : UInt64 → Routine ε}
      (plain : e.lo? = none)
      (rest : ∀ v, Insists L hi n tries (.waiting seen) [.did (.sawVersion v)] (f v)) :
      Insists L hi (n + 1) tries (.waiting seen) [e] (.readVersion f)
  | lookHi {n tries : Nat} {seen : Bool} {latest : List (Event ε)} {f : Int64 → Routine ε}
      (unset : Insists L hi n tries (.waiting false) [] (f reserved))
      (given : Insists L hi n tries (.waiting true) [.did (.sawHi hi)] (f hi)) :
      Insists L hi (n + 1) tries (.waiting seen) latest (.readHi f)
  | countLo {n tries : Nat} {stamp : UInt64} {f : Int64 → Routine ε}
      (rest : ∀ lo, lo < L.capacity → Insists L hi n tries (.holding lo)
        [.did (.bumpedLo lo), .did (.sawVersion stamp)] (f lo)) :
      Insists L hi (n + 1) tries (.waiting true) [.did (.sawVersion stamp)] (.bumpLo f)
  | confirm {n tries : Nat} {lo : Int64} {stamp : UInt64} {f : UInt64 → Routine ε}
      (kept : Insists L hi n (tries + 1) (.holding lo) [] (f stamp))
      (lost : ∀ later, later ≠ stamp →
        Insists L hi n tries (.waiting true) [.did (.sawVersion later)] (f later)) :
      Insists L hi (n + 1) (tries + 1) (.holding lo)
        [.did (.bumpedLo lo), .did (.sawVersion stamp)] (.readVersion f)
  | acquire {n tries : Nat} {seen : Bool} {latest : List (Event ε)} {r : Routine ε}
      (unset : Insists L hi n tries (.working reserved) [] r)
      (given : Insists L hi n tries (.working hi) [] r) :
      Insists L hi (n + 1) tries (.waiting seen) latest (.acquire r)
  | bumpVersion {n tries : Nat} {p : Post} {latest : List (Event ε)} {r : Routine ε}
      (rest : Insists L hi n tries p [] r) : Insists L hi (n + 1) tries p latest (.bumpVersion r)
  | readHi {n tries : Nat} {found : Int64} {latest : List (Event ε)} {f : Int64 → Routine ε}
      (rest : Insists L hi n tries (.working found) [] (f found)) :
      Insists L hi (n + 1) tries (.working found) latest (.readHi f)
  | draw {n tries : Nat} {latest : List (Event ε)} {f : Reply ε → Routine ε}
      (rest : Insists L hi n tries .drawn [] (f (.value hi))) :
      Insists L hi (n + 1) tries (.working reserved) latest (.draw f)
  | countFirst {n tries : Nat} {latest : List (Event ε)} {f : Int64 → Routine ε}
      (rest : ∀ lo, lo < L.capacity → Insists L hi n tries (.counted lo) [] (f lo)) :
      Insists L hi (n + 1) tries .drawn latest (.bumpLo f)
  | countNext {n tries : Nat} {latest : List (Event ε)} {f : Int64 → Routine ε}
      (rest : ∀ lo, lo < L.capacity → Insists L hi n tries (.settled lo) [] (f lo)) :
      Insists L hi (n + 1) tries (.working hi) latest (.bumpLo f)
  | publish {n tries : Nat} {lo : Int64} {latest : List (Event ε)} {r : Routine ε}
      (rest : Insists L hi n tries (.settled lo) [] r) :
      Insists L hi (n + 1) tries (.counted lo) latest (.writeHi hi r)
  | release {n tries : Nat} {lo : Int64} {latest : List (Event ε)} {r : Routine ε}
      (rest : Insists L hi n tries (.holding lo) [] r) :
      Insists L hi (n + 1) tries (.settled lo) latest (.release false r)
  | finish {n tries : Nat} {lo : Int64} {latest : List (Event ε)} :
      Insists L hi (n + 1) tries (.holding lo) latest (.finish (.claimed hi lo))

namespace Stamped

variable {L : Layout} {hi : Int64}

theorem exclusive_insists (useful : hi ≠ reserved) (n tries : Nat) {seen : Bool}
    {latest : List (Event ε)} :
    Insists L hi (n + 10) tries (.waiting seen) latest (exclusive L : Routine ε) := by
  refine .acquire (.bumpVersion (.readHi ?_)) (.bumpVersion (.readHi ?_))
  · rw [if_pos rfl]
    exact .draw (.countFirst fun lo _ => .publish (.bumpVersion (.release (.note .finish))))
  · rw [if_neg useful]
    refine .countNext fun lo inside => ?_
    rw [if_neg (Int64.not_le.mpr inside)]
    exact .bumpVersion (.release .finish)

theorem attempt_insists (useful : hi ≠ reserved) {seen : Bool} :
    ∀ (n : Nat) {l tries : Nat} {e : Event ε}, e.lo? = none → 5 * n + 10 ≤ l → n ≤ tries →
      Insists L hi l tries (.waiting seen) [e] (attempt L n : Routine ε)
  | 0, l, tries, e, _, hl, _ => by
    obtain ⟨l, rfl⟩ : ∃ k, l = k + 10 := ⟨l - 10, by omega⟩
    exact exclusive_insists useful l tries
  | n + 1, l, tries, e, plain, hl, htries => by
    obtain ⟨l, rfl⟩ : ∃ k, l = k + 15 := ⟨l - 15, by omega⟩
    obtain ⟨tries, rfl⟩ : ∃ k, tries = k + 1 := ⟨tries - 1, by omega⟩
    have again : ∀ {seen : Bool} {k tries : Nat} (v : UInt64), 5 * n + 10 ≤ k → n ≤ tries →
        Insists L hi k tries (.waiting seen) [.did (.sawVersion v)] (attempt L n : Routine ε) :=
      fun v hk htries => attempt_insists useful n rfl hk htries
    rw [attempt_succ]
    refine .readVersion plain fun stamp => ?_
    split
    · exact again stamp (by omega) (by omega)
    refine .lookHi ?_ ?_
    · rw [if_pos rfl]
      exact exclusive_insists useful _ _
    rw [if_neg useful]
    refine .readVersion rfl fun before => ?_
    split
    · exact again before (by omega) (by omega)
    · next hbefore =>
      obtain rfl := not_not.mp hbefore
      refine .countLo fun lo inside => ?_
      rw [if_neg (Int64.not_le.mpr inside)]
      refine .confirm ?_ fun later stale => ?_
      · rw [if_pos rfl]
        exact .finish
      · rw [if_neg stale]
        exact again later (by omega) (by omega)

/-- **Every call insists**, and gives up no more lo values than it has attempts. -/
theorem routine_insists (useful : hi ≠ reserved) (attempts : UInt32) :
    Insists L hi (5 * attempts.toNat + 11) attempts.toNat (.waiting false) []
      (routine L attempts : Routine ε) :=
  .note (attempt_insists useful _ rfl (Nat.le_refl _) (Nat.le_refl _))

end Stamped

/-! ## The invariant -/

/-- What is left of a call fits its post, what its thread did last, and its thread's balance. -/
def Post.Balanced (L : Layout) (hi : Int64) (attempts : Nat) (p : Post) (r : Routine ε)
    (es : List (Event ε)) : Prop :=
  ∃ n tries latest, Insists L hi n tries p latest r ∧ latest <+: es ∧
    Balance hi attempts es p.own p.wants n tries

/-- The cells are those of a first block, and every thread has its balance. -/
def Rush (L : Layout) (hi : Int64) (s : σ) (attempts : Nat) (M : Machine σ ε) : Prop :=
  Posted (Post.Balanced L hi attempts) (Balance hi attempts · [] 0 0 0) hi s M

section

variable {L : Layout} {hi : Int64} {s : σ} {attempts : Nat} {M M' : Machine σ ε} {i : Nat}
  {e : Event ε} {r : Routine ε}

/-- Interleavings go on without taking anything back. -/
theorem Arena.length_discards_run {A : Arena σ ε} {sched : List Nat}
    (h : A.run M sched = some M') : M.discards.length ≤ M'.discards.length := by
  obtain ⟨es, hlog, -⟩ := Arena.exists_log_run h
  rw [Machine.discards, Machine.discards, hlog]
  exact ((histories_suffix M.log es).filterMap _).length_le

namespace Rush

/-- Every thread has a balance. -/
theorem exists_balance (h : Rush L hi s attempts M) (i : Nat) :
    ∃ own wants left tries, Balance hi attempts (share M.log i) own wants left tries := by
  obtain ⟨r, -, p, ⟨n, tries, latest, -, -, hbalance⟩, -⟩ | hbalance := h.booked.busy_or_idle i
  · exact ⟨_, _, _, _, hbalance⟩
  · exact ⟨_, _, _, _, hbalance⟩

/-- No call has given up more lo values than it has attempts. -/
theorem length_discards_le (h : Rush L hi s attempts M) :
    M.discards.length ≤ attempts * M.calls := by
  rw [M.length_discards (Finset.Subset.refl _), Machine.calls,
    countP_eq_sum Event.isBegin _ (Finset.Subset.refl _), Finset.mul_sum]
  refine Finset.sum_le_sum fun i _ => ?_
  obtain ⟨own, wants, left, tries, hbalance⟩ := h.exists_balance i
  have := hbalance.tries
  omega

/-- There is room for all counts if the calls and the lo values that were given up fit into a
block, or if they would with every attempt failing. -/
theorem room (h : Rush L hi s attempts M) (fits : M.calls + M.discards.length ≤ L.size ∨
    (attempts + 1) * M.calls ≤ L.size) : M.calls + M.discards.length ≤ L.size := by
  rcases fits with fits | fits
  · exact fits
  · have := h.length_discards_le
    rw [Nat.succ_mul] at fits
    omega

/-- While a call has still to count, there are fewer counts than calls and lo values that were
given up. -/
theorem length_los_lt (h : Rush L hi s attempts M) {own : List Int64} {left tries : Nat}
    (wants : Balance hi attempts (share M.log i) own 1 left tries) :
    M.los.length < M.calls + M.discards.length := by
  have hsub : owners M.log ⊆ insert i (owners M.log) := Finset.subset_insert i _
  rw [M.length_los, Machine.calls, M.length_discards hsub,
    countP_eq_sum (fun e : Event ε => e.lo?.isSome) _ hsub, countP_eq_sum Event.isBegin _ hsub,
    ← Finset.sum_add_distrib]
  refine Finset.sum_lt_sum (fun j _ => ?_) ⟨i, Finset.mem_insert_self i _, ?_⟩
  · obtain ⟨own, wants, left, tries, hbalance⟩ := h.exists_balance j
    have := hbalance.begun
    omega
  · have := wants.begun
    omega

/-- What a call counts next is inside the block. -/
theorem next_inside (h : Rush L hi s attempts M) (room : M.calls + M.discards.length ≤ L.size)
    {own : List Int64} {left tries : Nat}
    (wants : Balance hi attempts (share M.log i) own 1 left tries) :
    M.los.length < L.size ∧ M.memory.lo + 1 < L.capacity := by
  have hcounted := Nat.lt_of_lt_of_le (h.length_los_lt wants) room
  exact ⟨hcounted, h.early.next_lo hcounted ▸ Layout.lo_lt_capacity hcounted⟩

/-- **One action of one thread leaves every thread with its balance**, as long as the calls and the
lo values that were given up are no more than a block has identifiers. -/
theorem act {A : Arena σ ε} (useful : hi ≠ reserved) (first : A.source.reply 0 s = .value hi)
    (room : M.calls + M.discards.length ≤ L.size) (h : Rush L hi s attempts M)
    (busy : M.threads[i]? = some (some r)) (hact : A.act M i r = some M') :
    Rush L hi s attempts M' := by
  have hlt : i < M.threads.length := (List.getElem?_eq_some_iff.mp busy).1
  obtain ⟨p, ⟨n, tries, latest, hinsists, hlatest, hbalance⟩, hp⟩ := h.booked.attended.each busy
  obtain ⟨e, rfl, rfl⟩ | ⟨q, hq, hfree, rfl⟩ := Arena.act_cases hact
  · cases hinsists with
    | finish =>
      exact h.stay hlt rfl rfl rfl rfl rfl rfl rfl nofun (fun _ => hbalance.ended)
        fun heq => absurd heq hp.1
  cases hinsists with
  | note rest =>
    obtain rfl := Option.some.inj hq
    exact h.proceed hlt rfl rfl rfl rfl rfl rfl rfl
      ⟨_, ⟨_, _, _, rest, ⟨_, rfl⟩, hbalance.act rfl rfl rfl rfl⟩, hp⟩
  | readVersion plain rest =>
    obtain rfl := Option.some.inj hq
    obtain ⟨es, hes⟩ := hlatest
    have kept : discard? (.did (.sawVersion M.memory.version) :: share M.log i) = none :=
      hes ▸ discard?_of_plain plain
    exact h.proceed hlt rfl rfl rfl rfl rfl rfl rfl
      ⟨.waiting _, ⟨_, _, _, rest _, ⟨_, rfl⟩, hbalance.act rfl rfl rfl kept⟩, hp⟩
  | lookHi unset given =>
    obtain rfl := Option.some.inj hq
    refine h.proceed hlt rfl rfl rfl rfl rfl rfl rfl ?_
    rcases h.early.one with hunset | hgiven
    · exact ⟨.waiting false, ⟨_, _, _, hunset ▸ unset, List.nil_prefix,
        hbalance.act rfl rfl rfl rfl⟩, ⟨hp.1, nofun⟩⟩
    · subst hgiven
      exact ⟨.waiting true, ⟨_, _, _, given, ⟨_, rfl⟩, hbalance.act rfl rfl rfl rfl⟩,
        ⟨hp.1, fun _ => rfl⟩⟩
  | @confirm n tries lo stamp f kept lost =>
    obtain rfl := Option.some.inj hq
    obtain ⟨es, hes⟩ := hlatest
    refine h.proceed hlt rfl rfl rfl rfl rfl rfl rfl ?_
    by_cases hstamp : M.memory.version = stamp
    · have keeps : discard? (.did (.sawVersion M.memory.version) :: share M.log i) = none :=
        hes ▸ if_pos hstamp
      exact ⟨.holding _, ⟨_, _, _, hstamp ▸ kept, List.nil_prefix,
        hbalance.act rfl rfl rfl keeps⟩, hp⟩
    · -- somebody has taken the lock since the stamp was seen
      have loses : discard? (.did (.sawVersion M.memory.version) :: share M.log i) = some lo :=
        hes ▸ if_neg hstamp
      exact ⟨.waiting true, ⟨_, _, _, lost _ hstamp, ⟨_, rfl⟩, hbalance.discard loses⟩,
        ⟨hp.1, fun _ => hp.2⟩⟩
  | bumpVersion rest =>
    obtain rfl := Option.some.inj hq
    refine h.advance hlt rfl rfl { h.early with
      free := fun hnone hunset =>
        have huntouched := h.early.free hnone hunset
        ⟨huntouched.source, huntouched.replies, huntouched.los⟩ } (fun _ hr => ?_) nofun
      (fun _ => nofun) fun j _ => ⟨id, fun p hp => hp.congr rfl rfl rfl rfl rfl⟩
    obtain rfl := Option.some.inj hr
    exact ⟨_, ⟨_, _, _, rest, List.nil_prefix, hbalance.act rfl rfl rfl rfl⟩,
      hp.congr rfl rfl rfl rfl rfl⟩
  | readHi rest =>
    obtain rfl := Option.some.inj hq
    obtain ⟨hholder, rfl, huntouched⟩ := hp
    exact h.proceed hlt rfl rfl rfl rfl rfl rfl rfl
      ⟨.working _, ⟨_, _, _, rest, List.nil_prefix, hbalance.act rfl rfl rfl rfl⟩,
        ⟨hholder, rfl, huntouched⟩⟩
  | finish => cases hq
  | acquire unset given =>
    obtain rfl := Option.some.inj ((if_neg (Bool.eq_false_iff.mp h.early.sound)).symm.trans hq)
    have hnone : M.holder = none := hfree rfl
    -- whoever takes the lock finds hi set, or that nothing has happened yet
    refine h.advance hlt rfl rfl (h.early.quiet rfl rfl rfl rfl nofun) (fun _ hr => ?_) nofun
      (fun _ => nofun) fun j hj => ?_
    · obtain rfl := Option.some.inj hr
      rcases h.early.one with hunset | hgiven
      · obtain ⟨hsource, hreplies, hlos⟩ := h.early.free hnone hunset
        exact ⟨.working reserved, ⟨_, _, _, unset, List.nil_prefix,
          hbalance.act rfl rfl rfl rfl⟩, ⟨rfl, hunset, fun _ => ⟨hsource, hreplies, hlos⟩⟩⟩
      · exact ⟨.working hi, ⟨_, _, _, given, List.nil_prefix, hbalance.act rfl rfl rfl rfl⟩,
          ⟨rfl, hgiven, fun heq => absurd heq useful⟩⟩
    · have hother : some i ≠ some j := fun heq => hj (Option.some.inj heq).symm
      exact ⟨fun heq => absurd heq hother, fun p hp => hp.of_free (by simp [hnone]) hother id⟩
  | countLo rest =>
    obtain rfl := Option.some.inj hq
    obtain ⟨hholder, hseen⟩ := hp
    have hgiven : M.memory.hi = hi := hseen rfl
    obtain ⟨hroom, hinside⟩ := h.next_inside room hbalance
    -- others may work under the lock meanwhile, but hi is set, and they rely on no lo
    refine h.advance hlt rfl rfl (h.early.count hroom rfl rfl fun _ => hgiven ▸ useful)
      (fun _ hr => ?_) nofun (fun _ => nofun) fun j _ =>
        ⟨id, fun p hp => hp.of_hi useful hgiven rfl rfl⟩
    obtain rfl := Option.some.inj hr
    exact ⟨.holding _, ⟨_, _, _, rest _ hinside, List.cons_prefix_cons.mpr ⟨rfl, hlatest⟩,
      hbalance.count _⟩, ⟨hholder, hgiven⟩⟩
  | @draw n tries latest f rest =>
    obtain rfl := Option.some.inj hq
    obtain ⟨hholder, hunset, huntouched⟩ := hp
    obtain ⟨rfl, hreplies, hlos⟩ := huntouched rfl
    -- nobody has asked before, so this is the first answer, and the draw is over with it
    have hanswer : (A.source.next M.source).1 = .value hi := first
    refine h.work hholder hlt rfl rfl { h.early with
      asked := fun hgiven => absurd (hgiven.symm.trans hunset) useful
      free := fun hnone => absurd (hholder.symm.trans hnone) nofun } (.inl hholder) id
      ⟨.drawn, ⟨n, tries, [], ?_, List.nil_prefix, hbalance.act rfl rfl rfl rfl⟩,
        ⟨hholder, hunset, ?_⟩⟩
    · rw [hanswer, if_neg (Bool.eq_false_iff.mp (Reply.isReserved_value.mpr useful))]
      exact rest
    · have hasked : (A.source.next M.source).1 :: M.replies = [.value hi] := by
        rw [hanswer, hreplies]
      exact hasked
  | countFirst rest =>
    obtain rfl := Option.some.inj hq
    obtain ⟨hholder, hunset, hreplies⟩ := hp
    obtain ⟨hroom, hinside⟩ := h.next_inside room hbalance
    exact h.work hholder hlt rfl rfl
      (h.early.count hroom rfl rfl fun hnone => absurd (hholder.symm.trans hnone) nofun)
      (.inl hholder) id
      ⟨.counted _, ⟨_, _, _, rest _ hinside, List.nil_prefix, hbalance.count _⟩,
        ⟨hholder, hunset, hreplies⟩⟩
  | countNext rest =>
    obtain rfl := Option.some.inj hq
    obtain ⟨hholder, hgiven, -⟩ := hp
    obtain ⟨hroom, hinside⟩ := h.next_inside room hbalance
    exact h.work hholder hlt rfl rfl
      (h.early.count hroom rfl rfl fun hnone => absurd (hholder.symm.trans hnone) nofun)
      (.inl hholder) id
      ⟨.settled _, ⟨_, _, _, rest _ hinside, List.nil_prefix, hbalance.count _⟩,
        ⟨hholder, hgiven⟩⟩
  | publish rest =>
    obtain rfl := Option.some.inj hq
    obtain ⟨hholder, hunset, hreplies⟩ := hp
    exact h.work hholder hlt rfl rfl { h.early with
      one := .inr rfl
      asked := fun _ => hreplies
      free := fun hnone => absurd (hholder.symm.trans hnone) nofun } (.inl hholder) (fun _ => rfl)
      ⟨.settled _, ⟨_, _, _, rest, List.nil_prefix, hbalance.act rfl rfl rfl rfl⟩,
        ⟨hholder, rfl⟩⟩
  | release rest =>
    obtain rfl := Option.some.inj hq
    obtain ⟨hholder, hgiven⟩ := hp
    exact h.work hholder hlt rfl rfl { h.early with
      sound := by simp [Memory.released, h.early.sound]
      free := fun _ hunset => absurd (hgiven.symm.trans hunset) useful } (.inr rfl) id
      ⟨.holding _, ⟨_, _, _, rest, List.nil_prefix, hbalance.act rfl rfl rfl rfl⟩,
        ⟨nofun, hgiven⟩⟩

/-- Idle threads at a new generator. -/
theorem fresh (useful : hi ≠ reserved) (L : Layout) (attempts threads : Nat) (s : σ) :
    Rush L hi s attempts (Machine.idle threads .fresh s : Machine σ ε) :=
  Posted.fresh (.nil hi attempts) useful threads s

section Runs

variable {A : Arena σ ε} (useful : hi ≠ reserved) (first : A.source.reply 0 s = .value hi)
  (call : Insists L hi (5 * attempts + 11) attempts (.waiting false) [] A.call)

include useful first call

/-- **One move of one thread leaves every thread with its balance.** -/
theorem move (room : M.calls + M.discards.length ≤ L.size) (h : Rush L hi s attempts M)
    (hmove : A.move M i = some M') : Rush L hi s attempts M' := by
  rcases Arena.move_cases hmove with ⟨hidle, rfl⟩ | ⟨r, hbusy, hact⟩
  · have hholder := h.booked.attended.holder_ne hidle
    have hbalance := h.booked.idle (i := i) fun r hr => absurd (hidle.symm.trans hr) nofun
    exact h.proceed (List.getElem?_eq_some_iff.mp hidle).1 rfl rfl rfl rfl rfl rfl rfl
      ⟨.waiting false, ⟨_, _, [], call, List.nil_prefix, hbalance.began⟩, ⟨hholder, nofun⟩⟩
  · exact h.act useful first room hbusy hact

/-- **Every interleaving leaves every thread with its balance**, as long as there is room for all
counts. -/
theorem run : ∀ {sched : List Nat} {M M' : Machine σ ε}, A.run M sched = some M' →
    (M'.calls + M'.discards.length ≤ L.size ∨ (attempts + 1) * M'.calls ≤ L.size) →
      Rush L hi s attempts M → Rush L hi s attempts M'
  | [], M, M', hrun, _, h => by
    obtain rfl := Option.some.inj hrun
    exact h
  | i :: sched, M, M', hrun, fits, h => by
    have hcalls := Arena.calls_run hrun
    have hdiscards := Arena.length_discards_run hrun
    have fits₀ : M.calls + M.discards.length ≤ L.size ∨ (attempts + 1) * M.calls ≤ L.size :=
      fits.imp (Nat.le_trans (Nat.add_le_add hcalls hdiscards))
        (Nat.le_trans (Nat.mul_le_mul_left _ hcalls))
    obtain ⟨M₁, hmove, hrest⟩ := Option.bind_eq_some_iff.mp hrun
    exact run hrest fits (h.move useful first call (h.room fits₀) hmove)

end Runs

/-- No call has more moves than were granted to it. -/
theorem length_log_le (h : Rush L hi s attempts M) :
    M.log.length ≤ (5 * attempts + 12) * M.calls := by
  have hmoves : M.log.countP (fun _ => true) ≤ (5 * attempts + 12) * M.calls := by
    refine countP_le_of_share (q := fun _ => true) (r := Event.isBegin) fun i => ?_
    obtain ⟨own, wants, left, tries, hbalance⟩ := h.exists_balance i
    have := hbalance.moves
    rw [List.countP_true]
    omega
  rwa [List.countP_true] at hmoves

/-- While a thread makes a call, one that does can move. -/
theorem exists_move {A : Arena σ ε} (h : Rush L hi s attempts M) (busy : M.busy i = true) :
    ∃ j M', M.busy j = true ∧ A.move M j = some M' := by
  refine h.booked.attended.exists_move (fun j w ⟨p, ⟨_, _, _, hinsists, _⟩, hp⟩ => ?_) busy
  cases hinsists with
  | acquire => exact hp.1

section Over

variable (h : Rush L hi s attempts M) (idle : M.Idle)

include h idle

/-- When all calls are over, each has counted once more than it has given up. -/
theorem length_los_of_idle : M.los.length = M.calls + M.discards.length := by
  rw [M.length_los, Machine.calls, M.length_discards (Finset.Subset.refl _),
    countP_eq_sum (fun e : Event ε => e.lo?.isSome) _ (Finset.Subset.refl _),
    countP_eq_sum Event.isBegin _ (Finset.Subset.refl _), ← Finset.sum_add_distrib]
  exact Finset.sum_congr rfl fun i _ => (h.booked.of_not_busy (idle i)).begun.symm

/-- When all calls are over, what was counted was won or given up. -/
theorem won_append_discards_of_idle : (M.won ++ M.discards).Perm M.los := by
  have hsplit := perm_append_of_share (histories M.log)
    (f := fun past : List (Event ε) => past.head?.bind Event.lo?)
    (g := fun past : List (Event ε) => past.head?.bind fun e => e.ending?.bind Ending.lo?)
    (h := discard?) fun i => ?_
  · rw [filterMap_head_histories, filterMap_head_histories] at hsplit
    rw [Machine.won, List.filterMap_filterMap]
    exact hsplit.symm
  · obtain ⟨los, hlos, hends, -⟩ := (h.booked.of_not_busy (idle i)).paid
    rw [share_histories, filterMap_head_pasts, filterMap_head_pasts, ← List.filterMap_filterMap,
      hends, Ending.filterMap_lo?_claimed]
    exact hlos

/-- When all calls are over, each has got the identifier of the lo that it has won. -/
theorem outcomes_of_idle (useful : hi ≠ reserved) (room : M.calls + M.discards.length ≤ L.size) :
    (M.outcomes L).Perm (M.won.map fun lo => .id (L.scheme.combine hi lo L.capacity)) := by
  have hends : (M.log.filterMap fun x => x.2.ending?).Perm (M.won.map (.claimed hi)) := by
    rw [Machine.won, List.filterMap_filterMap, List.map_filterMap]
    refine perm_filterMap (f := Event.ending?)
      (g := fun e : Event ε => (e.ending?.bind Ending.lo?).map (.claimed hi)) fun i => ?_
    obtain ⟨los, -, hends, -⟩ := (h.booked.of_not_busy (idle i)).paid
    rw [← List.map_filterMap, ← List.filterMap_filterMap, hends, Ending.filterMap_lo?_claimed]
  have houtcome : ∀ lo ∈ M.won, (Ending.claimed hi lo).outcome L
      = (.id (L.scheme.combine hi lo L.capacity) : Outcome ε) := by
    intro lo hlo
    obtain ⟨k, hk, rfl⟩ := h.early.exists_of_mem_los
      ((h.won_append_discards_of_idle idle).subset (List.mem_append_left _ hlo))
    rw [h.length_los_of_idle idle] at hk
    rw [Ending.outcome, L.compose_ofNat useful (Nat.lt_of_lt_of_le hk room)]
  refine (hends.map (Ending.outcome L)).trans ?_
  rw [List.map_map]
  exact .of_eq (List.map_congr_left houtcome)

/-- When all calls are over, the latest lo that was counted was won. -/
theorem latest_mem_won_of_idle {lo : Int64} (latest : M.los.head? = some lo) : lo ∈ M.won := by
  obtain ⟨i, hi⟩ := exists_head_share (f := Event.lo?) latest
  obtain ⟨los, -, hends, hlatest⟩ := (h.booked.of_not_busy (idle i)).paid
  have hlo : lo ∈ los := hlatest rfl lo hi
  have hmem : Ending.claimed _ lo ∈ (share M.log i).filterMap Event.ending? :=
    hends ▸ List.mem_map_of_mem hlo
  obtain ⟨e, he, heq⟩ := List.mem_filterMap.mp hmem
  exact List.mem_filterMap.mpr ⟨_, List.mem_filterMap.mpr ⟨(i, e), mem_of_mem_share he, heq⟩, rfl⟩

/-- When all calls are over, what was won and what was given up is lo counted from zero. -/
theorem row_of_idle : (M.won ++ M.discards).Perm
    ((List.range (M.calls + M.discards.length)).map .ofNat) := by
  have hwon := h.won_append_discards_of_idle idle
  rw [h.early.los, h.length_los_of_idle idle] at hwon
  exact hwon.trans ((List.reverse_perm _).map _)

/-- If nothing was given up, the callers have got the first identifiers. -/
theorem first_of_no_discards (useful : hi ≠ reserved)
    (room : M.calls + M.discards.length ≤ L.size) (none : M.discards = []) :
    (M.outcomes L).Perm ((List.range M.calls).map fun k =>
      .id (L.scheme.combine hi (.ofNat k) L.capacity)) := by
  have hrow := h.row_of_idle idle
  rw [none, List.append_nil, List.length_nil, Nat.add_zero] at hrow
  refine (h.outcomes_of_idle idle useful room).trans ((hrow.map _).trans (.of_eq ?_))
  rw [List.map_map]
  rfl

/-- Otherwise they have not: the latest lo was won, and it is beyond the calls. -/
theorem no_discards_of_first (useful : hi ≠ reserved)
    (room : M.calls + M.discards.length ≤ L.size)
    (first : (M.outcomes L).Perm ((List.range M.calls).map fun k =>
      .id (L.scheme.combine hi (.ofNat k) L.capacity))) : M.discards = [] := by
  by_contra some
  have hpos : 0 < M.discards.length := List.length_pos_iff.mpr some
  have hcounts := h.length_los_of_idle idle
  obtain ⟨last, hlast⟩ : ∃ last, M.los.length = last + 1 := ⟨M.los.length - 1, by omega⟩
  have hhead : M.los.head? = Option.some (.ofNat last) := by
    rw [h.early.los, hlast, List.range_succ, List.reverse_append, List.map_append]
    rfl
  have hmem : (.id (L.scheme.combine hi (.ofNat last) L.capacity) : Outcome ε) ∈ M.outcomes L :=
    (h.outcomes_of_idle idle useful room).symm.subset
      (List.mem_map_of_mem (h.latest_mem_won_of_idle idle hhead))
  obtain ⟨k, hk, heq⟩ := List.mem_map.mp (first.subset hmem)
  have hlt : k < M.calls := List.mem_range.mp hk
  have hsame := congrArg Int64.toInt (Scheme.combine_inj.mp (Outcome.id.inj heq))
  rw [Layout.toInt_lo (L := L) (by omega), Layout.toInt_lo (L := L) (by omega)] at hsame
  omega

/-- When all calls are over, and there were any, the source was asked once. -/
theorem replies_of_idle (some : M.calls ≠ 0) : M.replies = [.value hi] := by
  have hfree : M.holder = none := idle.free fun _ => h.booked.attended.held
  refine h.early.asked (h.early.one.resolve_left fun hunset => some ?_)
  have hlos := h.length_los_of_idle idle
  rw [(h.early.free hfree hunset).los, List.length_nil] at hlos
  omega

end Over

end Rush

end

/-! ## The theorem -/

/-- **The first block of a new generator, under stamps.** Take any number of threads, calls and
attempts in any interleaving, and a source whose first answer is a usable hi. Let the calls and the
lo values that were given up in a failed second check be no more than a block has identifiers; that
is so if each call may count once more than it has attempts. Then no call goes on for ever, gives up
more often than it has attempts, or is stuck. When all are over, they have got identifiers of the
first block for one request to the source, and what they have won together with what was given up
is lo counted from zero. So they have got the first identifiers of the block if and only if none was
given up. -/
theorem first_block_under_stamps {S : Source σ ε} {kind : LockKind} {L : Layout}
    {attempts : UInt32} {threads : Nat} {s : σ} {sched : List Nat} {M : Machine σ ε} {hi : Int64}
    (hrun : ((Generator.fresh (.stamped attempts) L).arena S kind).run
      (.idle threads .fresh s) sched = some M)
    (first : S.reply 0 s = .value hi) (useful : hi ≠ reserved)
    (fits : M.calls + M.discards.length ≤ L.size ∨ (attempts.toNat + 1) * M.calls ≤ L.size) :
    let A := (Generator.fresh (.stamped attempts) L).arena S kind
    M.discards.length ≤ attempts.toNat * M.calls ∧
    sched.length ≤ (5 * attempts.toNat + 12) * M.calls ∧
    (∀ i, M.busy i = true → ∃ j M', M.busy j = true ∧ A.move M j = some M') ∧
    (M.Idle →
      (M.calls ≠ 0 → M.replies = [.value hi]) ∧
      (M.outcomes L).Perm (M.won.map fun lo => .id (L.scheme.combine hi lo L.capacity)) ∧
      (M.won ++ M.discards).Perm
        ((List.range (M.calls + M.discards.length)).map .ofNat) ∧
      ((M.outcomes L).Perm ((List.range M.calls).map fun k =>
        .id (L.scheme.combine hi (.ofNat k) L.capacity)) ↔ M.discards = [])) := by
  intro A
  have h : Rush L hi s attempts.toNat M :=
    Rush.run useful first (Stamped.routine_insists useful attempts) hrun fits
      (.fresh useful L _ threads s)
  have room := h.room fits
  have hmoves : sched.length ≤ (5 * attempts.toNat + 12) * M.calls :=
    Arena.length_log_run hrun ▸ h.length_log_le
  refine ⟨h.length_discards_le, hmoves, fun i busy => h.exists_move busy, fun idle => ?_⟩
  exact ⟨h.replies_of_idle idle, h.outcomes_of_idle idle useful room, h.row_of_idle idle,
    h.no_discards_of_first idle useful room, h.first_of_no_discards idle useful room⟩

/-- The second call of a thread counts one, is overtaken by a call that saw no hi, and counts
three. -/
theorem first_block_under_stamps_overtaken :
    let L : Layout := ⟨4, .hilo, by decide⟩
    let A := (Generator.fresh (.stamped 4) L).arena (Progression.source Unit) .poisoning
    let sched := List.replicate 4 0 ++ List.replicate 4 1 ++ List.replicate 16 0 ++ [1, 1, 0]
      ++ List.replicate 5 1 ++ List.replicate 6 0
    ∃ M, A.run (.idle 2 .fresh ⟨7, 1, by decide⟩) sched = some M ∧ M.Idle ∧ M.calls = 3 ∧
      M.discards = [1] ∧ (M.won ++ [1]).Perm [0, 1, 2, 3] ∧ M.replies = [.value 7] ∧
      ¬ (M.outcomes L).Perm [.id 28, .id 29, .id 30] := by
  intro L A sched
  have hend : (A.run (.idle 2 .fresh ⟨7, 1, by decide⟩) sched).map
      (fun M => (M.threads.all Option.isNone, M.calls, M.discards)) = some (true, 3, [1]) := by
    decide +kernel
  obtain ⟨M, hM, hdata⟩ := Option.map_eq_some_iff.mp hend
  simp only [Prod.mk.injEq] at hdata
  obtain ⟨hidle, hcalls, hdiscards⟩ := hdata
  have hidle := Machine.idle_of_all hidle
  have first : (Progression.source Unit).reply 0 ⟨7, 1, by decide⟩ = .value 7 := rfl
  obtain ⟨-, -, -, hover⟩ := first_block_under_stamps hM first (by decide)
    (.inl (by rw [hcalls, hdiscards]; decide))
  obtain ⟨hreplies, -, hrow, hfirst⟩ := hover hidle
  rw [hcalls, hdiscards] at hrow hfirst
  exact ⟨M, hM, hidle, hcalls, hdiscards, hrow, hreplies (by rw [hcalls]; decide),
    fun hperm => absurd (hfirst.mp hperm) nofun⟩

/-- **A lo of the first hi can be given up.** Two calls see no hi. One of them sets it; a third call
takes its stamp then, and counts one; the second call takes the lock and moves the version on, so
that the third one gives its lo up. Three calls of a block of four get the first, the third and the
fourth identifier. -/
theorem racing_calls_lose_lo :
    let L : Layout := ⟨4, .hilo, by decide⟩
    let A := (Generator.fresh (.stamped 4) L).arena (Progression.source Unit) .poisoning
    let sched := List.replicate 4 0 ++ List.replicate 4 1 ++ List.replicate 10 0
      ++ List.replicate 6 2 ++ [1, 1, 2] ++ List.replicate 5 1 ++ List.replicate 6 2
    ∃ M, A.run (.idle 3 .fresh ⟨7, 1, by decide⟩) sched = some M ∧ M.Idle ∧
      M.replies = [.value 7] ∧ M.calls = 3 ∧ M.calls ≤ L.size ∧
      M.outcomes L = [.id 31, .id 30, .id 28] ∧
      ¬ (M.outcomes L).Perm ((List.range M.calls).map fun k =>
        .id (L.scheme.combine 7 (.ofNat k) L.capacity)) := by
  intro L A sched
  have hend : (A.run (.idle 3 .fresh ⟨7, 1, by decide⟩) sched).map
      (fun M => (M.threads.all Option.isNone, M.replies, M.calls, M.outcomes L))
        = some (true, [.value 7], 3, [.id 31, .id 30, .id 28]) := by
    decide +kernel
  obtain ⟨M, hM, hdata⟩ := Option.map_eq_some_iff.mp hend
  simp only [Prod.mk.injEq] at hdata
  obtain ⟨hidle, hreplies, hcalls, houtcomes⟩ := hdata
  refine ⟨M, hM, Machine.idle_of_all hidle, hreplies, hcalls, by rw [hcalls]; decide, houtcomes, ?_⟩
  rw [houtcomes, hcalls]
  decide +kernel

end HiLo
