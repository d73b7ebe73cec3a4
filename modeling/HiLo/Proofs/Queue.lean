/-
HiLo.Proofs.Queue — calls that come while another one draws.

When nothing is left to hand out, a first call takes the lock and asks the source, and
calls that begin meanwhile get as far as the lock and no further. Until the first one
has its answer, the cells change in one way only: lo is counted further beyond a block
that is used up. This is said by `Queues`, which holds of every interleaving in which
the first call is alone until it draws (`Queues.run_first`), and others may move while
it does (`Queues.run_others`).
-/
import HiLo.Proofs.Custody

namespace HiLo

variable {σ ε : Type}

/-! ## Where threads are -/

namespace Machine

def call? (M : Machine σ ε) (i : Nat) : Option (Routine ε) := M.threads[i]?.join

def busy (M : Machine σ ε) (i : Nat) : Bool := (M.call? i).isSome

def drawing (M : Machine σ ε) (i : Nat) : Bool := (M.call? i).any Arena.aboutToDraw

/-- Whether the call of a thread wants the lock. -/
def waiting (M : Machine σ ε) (i : Nat) : Bool :=
  (M.call? i).any fun
    | .acquire _ => true
    | _ => false

def Idle (M : Machine σ ε) : Prop := ∀ i, M.busy i = false

/-- What the source has answered to the calls of a thread, in order. -/
def answers (M : Machine σ ε) (i : Nat) : List (Reply ε) := (M.acts i).filterMap Act.answer?

/-- The threads that have come to the lock, in order, whether it let them in or refused
them. -/
def entries (M : Machine σ ε) : List Nat :=
  M.log.reverse.filterMap fun
    | (i, .did a) => if a.isEntry then some i else none
    | _ => none

section

variable {M M' : Machine σ ε} {i j : Nat} {a : Act ε} {e : Ending ε} {r : Routine ε}

theorem call?_eq_some : M.call? i = some r ↔ M.threads[i]? = some (some r) :=
  Option.join_eq_some_iff

theorem busy_of_call (h : M.threads[i]? = some (some r)) : M.busy i = true := by
  rw [busy, call?_eq_some.mpr h]
  rfl

theorem exists_of_busy (h : M.busy i = true) : ∃ r, M.threads[i]? = some (some r) := by
  obtain ⟨r, hr⟩ := Option.isSome_iff_exists.mp h
  exact ⟨r, call?_eq_some.mp hr⟩

theorem lt_of_busy (h : M.busy i = true) : i < M.threads.length :=
  have ⟨_, hr⟩ := exists_of_busy h
  (List.getElem?_eq_some_iff.mp hr).1

/-- Where no thread makes a call, nobody holds the lock. -/
theorem Idle.free (idle : M.Idle)
    (held : ∀ j, M.holder = some j → ∃ r, M.threads[j]? = some (some r)) : M.holder = none := by
  rw [Option.eq_none_iff_forall_ne_some]
  intro j hj
  obtain ⟨r, hr⟩ := held j hj
  simpa [idle j] using busy_of_call hr

/-- Where no thread has anything left of a call, none makes one. -/
theorem idle_of_all (h : M.threads.all Option.isNone = true) : M.Idle := by
  intro i
  rw [Bool.eq_false_iff]
  intro hbusy
  obtain ⟨r, hr⟩ := exists_of_busy hbusy
  exact absurd (List.all_eq_true.mp h _ (List.mem_of_getElem? hr)) nofun

theorem exists_of_drawing (h : M.drawing i = true) :
    ∃ f, M.threads[i]? = some (some (.draw f)) := by
  obtain ⟨r, hr, hdraw⟩ := (Option.any_eq_true _ _).mp h
  cases r with
  | draw f => exact ⟨f, call?_eq_some.mp hr⟩
  | _ => cases hdraw

theorem drawing_of_call {f : Reply ε → Routine ε} (h : M.threads[i]? = some (some (.draw f))) :
    M.drawing i = true := by
  rw [drawing, call?_eq_some.mpr h]
  rfl

theorem exists_of_waiting (h : M.waiting i = true) :
    ∃ w, M.threads[i]? = some (some (.acquire w)) := by
  obtain ⟨r, hr, hwait⟩ := (Option.any_eq_true _ _).mp h
  cases r with
  | acquire w => exact ⟨w, call?_eq_some.mp hr⟩
  | _ => cases hwait

/-! ## What the log tells -/

theorem answers_did (h : M'.log = (j, .did a) :: M.log) :
    M'.answers i = M.answers i ++ if j = i then a.answer?.toList else [] := by
  unfold answers acts
  rw [h, List.reverse_cons, List.filterMap_append, List.filterMap_append]
  by_cases hj : j = i
  · cases ha : a.answer? <;> simp [hj, ha]
  · simp [hj]

theorem answers_ended (h : M'.log = (j, .ended e) :: M.log) : M'.answers i = M.answers i := by
  unfold answers acts
  simp [h]

theorem endings_did (h : M'.log = (j, .did a) :: M.log) : M'.endings i = M.endings i := by
  unfold endings
  simp [h]

theorem endings_ended (h : M'.log = (j, .ended e) :: M.log) :
    M'.endings i = if j = i then e :: M.endings i else M.endings i := by
  unfold endings
  by_cases hj : j = i <;> simp [h, hj]

theorem entries_did (h : M'.log = (j, .did a) :: M.log) :
    M'.entries = M.entries ++ if a.isEntry then [j] else [] := by
  unfold entries
  rw [h, List.reverse_cons, List.filterMap_append]
  cases ha : a.isEntry <;> simp [ha]

theorem entries_ended (h : M'.log = (j, .ended e) :: M.log) : M'.entries = M.entries := by
  unfold entries
  simp [h]

end

end Machine

/-! ## Interleavings under a condition -/

namespace Arena

variable {A : Arena σ ε} {M M' : Machine σ ε}

/-- The machine after the moves of an interleaving, if all of them are possible, and
allowed to their threads in the machines that they find. -/
def runWhile (A : Arena σ ε) (may : Machine σ ε → Nat → Bool) (M : Machine σ ε) :
    List Nat → Option (Machine σ ε)
  | [] => some M
  | i :: rest => if may M i then (A.move M i).bind fun M' => A.runWhile may M' rest else none

variable {may : Machine σ ε → Nat → Bool} {i : Nat} {sched : List Nat}

theorem runWhile_cons (h : A.runWhile may M (i :: sched) = some M') :
    may M i = true ∧ ∃ M₁, A.move M i = some M₁ ∧ A.runWhile may M₁ sched = some M' := by
  unfold runWhile at h
  split at h
  · next hmay => exact ⟨hmay, Option.bind_eq_some_iff.mp h⟩
  · cases h

theorem run_of_runWhile :
    ∀ {sched : List Nat} {M : Machine σ ε}, A.runWhile may M sched = some M' →
      A.run M sched = some M'
  | [], _, h => h
  | _ :: _, _, h => by
    obtain ⟨-, M₁, hmove, hrest⟩ := runWhile_cons h
    exact Option.bind_eq_some_iff.mpr ⟨M₁, hmove, run_of_runWhile hrest⟩

theorem runWhile_append {M₁ : Machine σ ε} {sched' : List Nat}
    (h' : A.runWhile may M₁ sched' = some M') :
    ∀ {sched : List Nat} {M : Machine σ ε}, A.runWhile may M sched = some M₁ →
      A.runWhile may M (sched ++ sched') = some M'
  | [], _, h => Option.some.inj h ▸ h'
  | _ :: _, _, h => by
    obtain ⟨hmay, M₂, hmove, hrest⟩ := runWhile_cons h
    rw [List.cons_append, runWhile, if_pos hmay, hmove]
    exact runWhile_append h' hrest

theorem bumps_runWhile (L : Layout) (h : A.runWhile may M sched = some M') :
    (Ledger.ofLog L M.log).bumps ≤ (Ledger.ofLog L M'.log).bumps :=
  (grows_run L (run_of_runWhile h)).bumps

/-- What holds all the time and at the end holds at the beginning. -/
theorem of_runWhile {P : Machine σ ε → Bool} :
    ∀ {sched : List Nat}, A.runWhile (fun M _ => P M) M sched = some M' → P M' = true → P M = true
  | [], h, hP => Option.some.inj h ▸ hP
  | _ :: _, h, _ => (runWhile_cons h).1

end Arena

/-! ## On the way -/

section

variable {S : Source σ ε} {kind : LockKind} {L : Layout} {strict : Bool} {n : Nat} {m : Memory}
  {k : Stock} {hi : Int64} {s : σ} {r : Routine ε} {p : Stepped σ ε}

/-- A step that does not concern the source, hi or the lock, and leaves a stock as it is. -/
structure Stepped.Passing (L : Layout) (n : Nat) (m : Memory) (s : σ) (k : Stock)
    (p : Stepped σ ε) : Prop where
  source : p.source = s
  hi : p.memory.hi = m.hi
  poisoned : p.memory.poisoned = m.poisoned
  fits : Fits L (n + bumps [p.act]) p.memory k
  answer : p.act.answer? = none
  entry : p.act.isEntry = false
  holder : ∀ i h, p.act.holder i h = h

/-- A routine that has not yet come to its goal goes on with a step on its way. -/
theorem Approaches.step {goal : Routine ε → Prop} (h : Approaches L hi goal r) (ahead : ¬ goal r)
    (hhi : m.hi = hi) (hfits : Fits L n m k) (spent : k.Spent L.size) (hn : n < 2 ^ 63)
    (hstep : r.step S kind m s = some p) : Approaches L hi goal p.rest ∧ p.Passing L n m s k := by
  subst hhi
  cases h with
  | arrived there => exact absurd there ahead
  | note rest =>
    obtain rfl := Option.some.inj hstep
    exact ⟨rest, rfl, rfl, rfl, hfits, rfl, rfl, fun _ _ => rfl⟩
  | readHi rest =>
    obtain rfl := Option.some.inj hstep
    exact ⟨rest, rfl, rfl, rfl, hfits, rfl, rfl, fun _ _ => rfl⟩
  | readLo rest =>
    obtain rfl := Option.some.inj hstep
    exact ⟨rest _ (hfits.untouched_of_spent spent) (hfits.past_of_spent spent hn), rfl, rfl, rfl,
      hfits, rfl, rfl, fun _ _ => rfl⟩
  | bumpLo useful rest =>
    obtain rfl := Option.some.inj hstep
    exact ⟨.arrived (rest _ (hfits.past_of_spent spent hn useful)), rfl, rfl, rfl,
      hfits.count_of_spent spent hn useful, rfl, rfl, fun _ _ => rfl⟩
  | readVersion rest =>
    obtain rfl := Option.some.inj hstep
    exact ⟨rest _, rfl, rfl, rfl, hfits, rfl, rfl, fun _ _ => rfl⟩
  | bumpVersion rest =>
    obtain rfl := Option.some.inj hstep
    exact ⟨rest, rfl, rfl, rfl, hfits.congr rfl rfl, rfl, rfl, fun _ _ => rfl⟩

/-- What goes on with an answer as a refill does is not another draw. -/
theorem Refills.ne_draw {f : Reply ε → Routine ε} {a : Reply ε} (h : Refills S kind L hi f)
    (useful : a.isReserved = false) (hfits : Fits L n m k) (hn : 0 < n) (hhi : m.hi = hi)
    (hm : m.poisoned = false) (s : σ) (g : Reply ε → Routine ε) : f a ≠ .draw g := by
  intro hdraw
  have hfollows := h n m k s a useful hfits hn hhi hm
  have hending := hfollows.ending
  have hanswers := hfollows.answers
  rw [hdraw] at hending hanswers
  simp only [Routine.run] at hending hanswers
  cases hr : (S.draw s).reply with
  | none =>
    rw [hr] at hending
    cases a <;> cases hending
  | some b =>
    rw [hr, List.filterMap_append, Draw.filterMap_acts, Draw.answers, hr] at hanswers
    cases a <;> simp [Stock.told] at hanswers

end

/-! ## Before the first answer -/

/-- How the call of a thread goes on before the first answer: to its draw if it holds the
lock, else to the lock. -/
def Heads (S : Source σ ε) (kind : LockKind) (L : Layout) (strict : Bool) (hi : Int64)
    (holder : Option Nat) (j : Nat) (r : Routine ε) : Prop :=
  if holder = some j then Approaches L hi (Draws S kind L hi) r
  else Approaches L hi (Wants S kind L strict) r

/-- A first call, by the thread `i`, that has not had its answer yet, and others that come
meanwhile: none of them has ended or asked, and what the first one was answered is the
beginning of a draw from a state `s₀`. -/
structure Queues (A : Arena σ ε) (L : Layout) (strict : Bool) (base : Nat) (hi : Int64)
    (k : Stock) (s₀ : σ) (i : Nat) (M : Machine σ ε) : Prop where
  same : M.memory.hi = hi
  sound : M.memory.poisoned = false
  fits : Fits L (L.reach strict (base + (Ledger.ofLog L M.log).bumps)) M.memory k
  holder : M.holder = none ∨ M.holder = some i
  entries : M.entries = M.holder.toList
  unended : ∀ x ∈ M.log, ∀ e, x.2 ≠ .ended e
  asks : ∀ x ∈ M.log, ∀ r, x.2 = .did (.asked r) → x.1 = i
  held : M.holder = some i → ∃ r, M.threads[i]? = some (some r)
  heads {j : Nat} {r : Routine ε} (busy : M.threads[j]? = some (some r)) :
    Heads A.source A.kind L strict hi M.holder j r
  yields : ∀ a, (A.source.draw s₀).reply = some a → ∃ rest,
    A.source.Yields M.source rest a (A.source.draw s₀).state ∧
      M.answers i ++ rest = (A.source.draw s₀).answers

namespace Queues

variable {A : Arena σ ε} {L : Layout} {strict : Bool} {base i j : Nat} {hi : Int64} {k : Stock}
  {s₀ : σ} {M M' : Machine σ ε} {r : Routine ε} {p : Stepped σ ε}

/-- The calls of the other threads go on as before. -/
theorem heads_set (h : Queues A L strict base hi k s₀ i M) {holder' : Option Nat}
    (busy : j < M.threads.length) (holder : ∀ l ≠ j, holder' = some l ↔ M.holder = some l)
    (own : Heads A.source A.kind L strict hi holder' j r) {l : Nat} {r' : Routine ε}
    (hl : (M.threads.set j (some r))[l]? = some (some r')) :
    Heads A.source A.kind L strict hi holder' l r' := by
  rw [List.getElem?_set] at hl
  by_cases hjl : j = l
  · subst hjl
    rw [if_pos rfl, if_pos busy] at hl
    obtain rfl := Option.some.inj (Option.some.inj hl)
    exact own
  · rw [if_neg hjl] at hl
    have hheads := h.heads hl
    rw [Heads] at hheads ⊢
    rwa [if_congr (holder l (Ne.symm hjl)) rfl rfl]

/-- A thread that makes a call goes on with it. -/
theorem busy_set {threads : List (Option (Routine ε))} {r' : Routine ε} {l : Nat}
    (h : ∃ r, threads[l]? = some (some r)) :
    ∃ r, (threads.set j (some r'))[l]? = some (some r) := by
  obtain ⟨r, hr⟩ := h
  rw [List.getElem?_set]
  by_cases hjl : j = l
  · subst hjl
    exact ⟨r', by rw [if_pos rfl, if_pos (List.getElem?_eq_some_iff.mp hr).1]⟩
  · exact ⟨r, by rw [if_neg hjl, hr]⟩

theorem began (h : Queues A L strict base hi k s₀ i M)
    (call : Approaches L hi (Wants A.source A.kind L strict) A.call)
    (idle : M.threads[j]? = some none) :
    Queues A L strict base hi k s₀ i
      { M with threads := M.threads.set j (some A.call), log := (j, .began) :: M.log } where
  same := h.same
  sound := h.sound
  fits := h.fits
  holder := h.holder
  entries := Eq.trans (by simp [Machine.entries]) h.entries
  unended := List.forall_mem_cons.mpr ⟨nofun, h.unended⟩
  asks := List.forall_mem_cons.mpr ⟨nofun, h.asks⟩
  held hholder := busy_set (h.held hholder)
  heads := h.heads_set (List.getElem?_eq_some_iff.mp idle).1 (fun _ _ => Iff.rfl) <| by
    have hj : M.holder ≠ some j := fun hj => by
      rcases h.holder with hnone | hheld
      · exact absurd (hnone.symm.trans hj) nofun
      · obtain ⟨r', hr'⟩ := h.held hheld
        rw [Option.some.inj (hheld.symm.trans hj), idle] at hr'
        cases hr'
    exact (if_neg hj).mpr call
  yields a ha := by
    obtain ⟨rest, hrest, hanswers⟩ := h.yields a ha
    exact ⟨rest, hrest, Eq.trans (by simp [Machine.answers, Machine.acts]) hanswers⟩

/-- A call goes on with a step on its way. -/
theorem passed (h : Queues A L strict base hi k s₀ i M) (busy : j < M.threads.length)
    (own : Heads A.source A.kind L strict hi M.holder j p.rest) {n : Nat}
    (passing : p.Passing L n M.memory M.source k)
    (ranged : Ranged L strict (base + (Ledger.ofLog L ((j, .did p.act) :: M.log)).bumps)
      p.memory.lo) :
    Queues A L strict base hi k s₀ i ⟨p.memory, p.act.holder j M.holder, p.source,
      M.threads.set j (some p.rest), (j, .did p.act) :: M.log⟩ where
  same := passing.hi.trans h.same
  sound := passing.poisoned.trans h.sound
  fits := passing.fits.rebound (Int.add_one_le_of_lt ranged.high)
  holder := by
    rw [passing.holder]
    exact h.holder
  entries := by
    rw [Machine.entries_did (M := M) rfl, passing.entry, passing.holder, h.entries]
    exact List.append_nil _
  unended := List.forall_mem_cons.mpr ⟨nofun, h.unended⟩
  asks := by
    refine List.forall_mem_cons.mpr ⟨fun r hr => ?_, h.asks⟩
    have hanswer := passing.answer
    rw [Event.did.inj hr] at hanswer
    cases hanswer
  held hholder := busy_set (h.held (by rwa [passing.holder] at hholder))
  heads := by
    rw [passing.holder]
    exact h.heads_set busy (fun _ _ => Iff.rfl) own
  yields a ha := by
    obtain ⟨rest, hrest, hanswers⟩ := h.yields a ha
    refine ⟨rest, passing.source ▸ hrest, ?_⟩
    rw [Machine.answers_did (M := M) rfl, passing.answer]
    simpa using hanswers

/-- The first call takes the lock. -/
theorem entered (h : Queues A L strict base hi k s₀ i M) (busy : i < M.threads.length)
    (free : M.holder = none) {w : Routine ε}
    (own : Approaches L hi (Draws A.source A.kind L hi) w) :
    Queues A L strict base hi k s₀ i
      ⟨M.memory, some i, M.source, M.threads.set i (some w), (i, .did .acquired) :: M.log⟩ where
  same := h.same
  sound := h.sound
  fits := h.fits
  holder := .inr rfl
  entries := by
    rw [Machine.entries_did (M := M) rfl, h.entries, free]
    rfl
  unended := List.forall_mem_cons.mpr ⟨nofun, h.unended⟩
  asks := List.forall_mem_cons.mpr ⟨nofun, h.asks⟩
  held _ := ⟨w, by simp [busy]⟩
  heads := h.heads_set busy (fun l hl => by simp [free, Ne.symm hl]) ((if_pos rfl).mpr own)
  yields a ha := by
    obtain ⟨rest, hrest, hanswers⟩ := h.yields a ha
    refine ⟨rest, hrest, ?_⟩
    rw [Machine.answers_did (M := M) rfl]
    simpa [Act.answer?] using hanswers

/-- The first call is answered the reserved value, and goes on with its draw. -/
theorem asked (h : Queues A L strict base hi k s₀ i M) {f : Reply ε → Routine ε}
    (busy : M.threads[i]? = some (some (.draw f)))
    (useless : (A.source.next M.source).1.isReserved = true) :
    Queues A L strict base hi k s₀ i ⟨M.memory, M.holder, (A.source.next M.source).2,
      M.threads.set i (some (.draw f)),
      (i, .did (.asked (A.source.next M.source).1)) :: M.log⟩ where
  same := h.same
  sound := h.sound
  fits := h.fits
  holder := h.holder
  entries := Eq.trans (Machine.entries_did (M := M) rfl) ((List.append_nil _).trans h.entries)
  unended := List.forall_mem_cons.mpr ⟨nofun, h.unended⟩
  asks := List.forall_mem_cons.mpr ⟨fun _ _ => rfl, h.asks⟩
  held hholder := busy_set (h.held hholder)
  heads := h.heads_set (List.getElem?_eq_some_iff.mp busy).1 (fun _ _ => Iff.rfl) (h.heads busy)
  yields a ha := by
    obtain ⟨rest, hrest, hanswers⟩ := h.yields a ha
    obtain ⟨rest', rfl, hrest'⟩ := hrest.of_reserved useless
    refine ⟨rest', hrest', ?_⟩
    rw [← hanswers, Machine.answers_did (M := M) rfl]
    simp [Act.answer?]

/-- No call has ended. -/
theorem endings_eq_nil (h : Queues A L strict base hi k s₀ i M) (j : Nat) : M.endings j = [] := by
  refine List.filterMap_eq_nil_iff.mpr fun x hx => ?_
  obtain ⟨l, e⟩ := x
  cases e with
  | ended e => exact absurd rfl (h.unended _ hx e)
  | _ => rfl

/-- Only the first call was answered. -/
theorem answers_eq_nil (h : Queues A L strict base hi k s₀ i M) (hj : j ≠ i) :
    M.answers j = [] := by
  refine List.filterMap_eq_nil_iff.mpr fun a ha => ?_
  obtain ⟨⟨l, e⟩, hx, he⟩ := List.mem_filterMap.mp ha
  cases e with
  | did b =>
    dsimp only at he
    split at he
    · next hl =>
      obtain rfl := Option.some.inj he
      cases b with
      | asked r => exact absurd (hl.symm.trans (h.asks _ (List.mem_reverse.mp hx) r rfl)) hj
      | _ => rfl
    · cases he
  | _ => cases he

/-- A call that draws holds the lock. -/
theorem draws_of_drawing (h : Queues A L strict base hi k s₀ i M) (hdraws : M.drawing i = true) :
    M.holder = some i ∧
      ∃ f, M.threads[i]? = some (some (.draw f)) ∧ Refills A.source A.kind L hi f := by
  obtain ⟨f, hf⟩ := Machine.exists_of_drawing hdraws
  have hheads := h.heads hf
  rw [Heads] at hheads
  split at hheads
  · next hholder =>
    cases hheads with
    | arrived there =>
      obtain ⟨g, hg, hrefills⟩ := there
      obtain rfl := Routine.draw.inj hg
      exact ⟨hholder, f, hf, hrefills⟩
  · cases hheads with
    | arrived there =>
      obtain ⟨w, hw, -⟩ := there
      cases hw

/-- A call that waits has the work under the lock before it. -/
theorem section_of_waiting (h : Queues A L strict base hi k s₀ i M) (hj : M.holder ≠ some j)
    (hwaits : M.waiting j = true) : ∃ w, M.threads[j]? = some (some (.acquire w)) ∧
      Section A.source A.kind L strict w := by
  obtain ⟨w, hw⟩ := Machine.exists_of_waiting hwaits
  have hheads := h.heads hw
  rw [Heads, if_neg hj] at hheads
  cases hheads with
  | arrived there =>
    obtain ⟨w', hw', hsection⟩ := there
    obtain rfl := Routine.acquire.inj hw'
    exact ⟨w, hw, hsection⟩

/-- **One move before the first answer.** It is a move of the first call, or the first
call holds the lock, and if it draws, it still does so afterwards. -/
theorem move (h : Queues A L strict base hi k s₀ i M) (spent : k.Spent L.size)
    (call : Approaches L hi (Wants A.source A.kind L strict) A.call)
    (room : base + (Ledger.ofLog L M.log).bumps < 2 ^ 62) (kept : Kept L strict base M')
    (turn : j = i ∨ M.holder = some i) (stays : M.drawing i = true → M'.drawing i = true)
    (hmove : A.move M j = some M') : Queues A L strict base hi k s₀ i M' := by
  have hreach : L.reach strict (base + (Ledger.ofLog L M.log).bumps) < 2 ^ 63 :=
    L.reach_lt strict (by omega)
  rcases Arena.move_cases hmove with ⟨hidle, rfl⟩ | ⟨r, hbusy, hact⟩
  · exact h.began call hidle
  have hlen := (List.getElem?_eq_some_iff.mp hbusy).1
  have hheads := h.heads hbusy
  by_cases hheld : M.holder = some j
  · rw [Heads, if_pos hheld] at hheads
    obtain rfl : j = i := by
      rcases h.holder with hnone | hi
      · exact absurd (hnone.symm.trans hheld) nofun
      · exact Option.some.inj (hheld.symm.trans hi)
    by_cases hgoal : Draws A.source A.kind L hi r
    · -- the call draws, and the answer must be one after which it still does
      obtain ⟨f, rfl, hrefills⟩ := hgoal
      obtain ⟨e, he, -⟩ | ⟨p, hp, -, rfl⟩ := Arena.act_cases hact
      · cases he
      obtain rfl := Option.some.inj hp
      obtain ⟨g, hg⟩ := Machine.exists_of_drawing (stays (Machine.drawing_of_call hbusy))
      cases hr : (A.source.next M.source).1.isReserved with
      | true => exact h.asked hbusy hr
      | false =>
        simp only [hr, List.getElem?_set_self hlen, Option.some.injEq] at hg
        exact absurd hg (hrefills.ne_draw hr h.fits (L.reach_pos _ _) h.same h.sound M.source g)
    · obtain ⟨e, rfl, -⟩ | ⟨p, hp, -, rfl⟩ := Arena.act_cases hact
      · cases hheads with
        | arrived there => exact absurd there hgoal
      obtain ⟨hrest, hpassing⟩ := hheads.step hgoal h.same h.fits spent hreach hp
      exact h.passed hlen ((if_pos hheld).mpr hrest) hpassing kept.ranged
  · rw [Heads, if_neg hheld] at hheads
    by_cases hgoal : Wants A.source A.kind L strict r
    · obtain ⟨w, rfl, hsection⟩ := hgoal
      obtain ⟨e, he, -⟩ | ⟨p, hp, hfree, rfl⟩ := Arena.act_cases hact
      · cases he
      obtain rfl := Option.some.inj ((if_neg (by simp [h.sound])).symm.trans hp)
      have hnone : M.holder = none := hfree rfl
      rcases turn with rfl | hi
      · exact h.entered hlen hnone (hsection.draws hi)
      · exact absurd (hnone.symm.trans hi) nofun
    · obtain ⟨e, rfl, -⟩ | ⟨p, hp, -, rfl⟩ := Arena.act_cases hact
      · cases hheads with
        | arrived there => exact absurd there hgoal
      obtain ⟨hrest, hpassing⟩ := hheads.step hgoal h.same h.fits spent hreach hp
      exact h.passed hlen ((if_neg hheld).mpr hrest) hpassing kept.ranged

/-- Idle threads, where nothing is left. -/
theorem idle {m : Memory} (threads i : Nat) (hhi : m.hi = hi) (hm : m.poisoned = false)
    (hfits : Fits L (L.reach strict base) m k) :
    Queues A L strict base hi k s₀ i (Machine.idle threads m s₀) where
  same := hhi
  sound := hm
  fits := hfits
  holder := .inl rfl
  entries := rfl
  unended := nofun
  asks := nofun
  held := nofun
  heads busy := by
    simp only [Machine.idle] at busy
    rw [List.getElem?_replicate] at busy
    split at busy <;> cases busy
  yields _ ha := ⟨_, Source.yields_draw ha, rfl⟩

section Runs

variable (spent : k.Spent L.size)
  (call : Approaches L hi (Wants A.source A.kind L strict) A.call)
  (orderly : Orderly L strict (.outside false) A.call)

include spent call orderly

/-- **The first call gets to its draw**, and does not ask before. -/
theorem run_first : ∀ {sched : List Nat} {M : Machine σ ε},
    A.runWhile (fun M j => j == i && !M.drawing i) M sched = some M' →
      base + (Ledger.ofLog L M'.log).bumps < 2 ^ 62 → Kept L strict base M →
      Queues A L strict base hi k s₀ i M → Queues A L strict base hi k s₀ i M'
  | [], M, hrun, _, _, h => Option.some.inj hrun ▸ h
  | j :: sched, M, hrun, room, kept, h => by
    obtain ⟨hmay, M₁, hmove, hrest⟩ := Arena.runWhile_cons hrun
    obtain ⟨hj, hdrawing⟩ := Bool.and_eq_true_iff.mp hmay
    have hroom := Nat.lt_of_le_of_lt (Nat.add_le_add_left (Arena.bumps_runWhile L hrun) base) room
    have kept₁ := kept.move orderly hroom hmove
    refine run_first hrest room kept₁
      (h.move spent call hroom kept₁ (.inl (eq_of_beq hj)) ?_ hmove)
    exact fun hdraws => absurd hdraws (by simpa using hdrawing)

/-- **While the first call draws, others get to the lock and no further.** -/
theorem run_others : ∀ {sched : List Nat} {M : Machine σ ε},
    A.runWhile (fun M _ => M.drawing i) M sched = some M' → M'.drawing i = true →
      base + (Ledger.ofLog L M'.log).bumps < 2 ^ 62 → Kept L strict base M →
      Queues A L strict base hi k s₀ i M → Queues A L strict base hi k s₀ i M'
  | [], M, hrun, _, _, _, h => Option.some.inj hrun ▸ h
  | j :: sched, M, hrun, hdraws, room, kept, h => by
    obtain ⟨hdrawing, M₁, hmove, hrest⟩ := Arena.runWhile_cons hrun
    have hroom := Nat.lt_of_le_of_lt (Nat.add_le_add_left (Arena.bumps_runWhile L hrun) base) room
    have kept₁ := kept.move orderly hroom hmove
    refine run_others hrest hdraws room kept₁ (h.move spent call hroom kept₁ (.inr ?_) ?_ hmove)
    · exact (h.draws_of_drawing hdrawing).1
    · exact fun _ => Arena.of_runWhile hrest hdraws

end Runs

end Queues

end HiLo
