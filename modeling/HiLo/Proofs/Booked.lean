/-
HiLo.Proofs.Booked — threads with their share of the log.

From the log one reads how many calls have begun, which lo values were counted, what the source
answered and what the callers got. An invariant that follows what every thread has got by itself
says two things: what holds of a call that is on its way, with its thread's share of the log, and
what holds of the share of a thread that makes no call. `Machine.Booked` is this pair, and
`Booked.advance` tells what has to be shown of one move. Where nobody who wants the lock holds it,
some thread can move (`Machine.Attended.exists_move`).
-/
import HiLo.Proofs.Queue
import HiLo.Proofs.Shares

namespace HiLo

variable {σ ε : Type}

/-! ## What a log tells -/

namespace Event

def isBegin : Event ε → Bool
  | .began => true
  | _ => false

def lo? : Event ε → Option Int64
  | .did (.bumpedLo lo) => some lo
  | _ => none

def ending? : Event ε → Option (Ending ε)
  | .ended e => some e
  | _ => none

def answer? : Event ε → Option (Reply ε)
  | .did a => a.answer?
  | _ => none

end Event

namespace Machine

def calls (M : Machine σ ε) : Nat := M.log.countP fun x => x.2.isBegin

/-- The lo values that were counted up to, latest first. -/
def los (M : Machine σ ε) : List Int64 := M.log.filterMap fun x => x.2.lo?

def replies (M : Machine σ ε) : List (Reply ε) := M.log.filterMap fun x => x.2.answer?

def outcomes (L : Layout) (M : Machine σ ε) : List (Outcome ε) :=
  (M.log.filterMap fun x => x.2.ending?).map (Ending.outcome L)

end Machine

theorem Arena.calls_run {A : Arena σ ε} {M M' : Machine σ ε} {sched : List Nat}
    (h : A.run M sched = some M') : M.calls ≤ M'.calls := by
  obtain ⟨es, hlog, -⟩ := Arena.exists_log_run h
  rw [Machine.calls, Machine.calls, hlog, List.countP_append]
  exact Nat.le_add_left _ _

theorem Arena.length_los_run {A : Arena σ ε} {M M' : Machine σ ε} {sched : List Nat}
    (h : A.run M sched = some M') : M.los.length ≤ M'.los.length := by
  obtain ⟨es, hlog, -⟩ := Arena.exists_log_run h
  rw [Machine.los, Machine.los, hlog, List.filterMap_append, List.length_append]
  exact Nat.le_add_left _ _

theorem Machine.length_los (M : Machine σ ε) :
    M.los.length = M.log.countP fun x => x.2.lo?.isSome :=
  List.length_filterMap_eq_countP

/-! ## Shares and calls -/

/-- Something holds of every call and its thread's share of the log, and something of the share of
every other thread. -/
structure Machine.Booked (busy : Nat → Routine ε → List (Event ε) → Prop)
    (resting : List (Event ε) → Prop) (M : Machine σ ε) : Prop where
  attended : M.Attended fun i r => busy i r (share M.log i)
  idle {i : Nat} (idle : ∀ r, M.threads[i]? ≠ some (some r)) : resting (share M.log i)

namespace Machine.Booked

variable {P P' : Nat → Routine ε → List (Event ε) → Prop} {Q : List (Event ε) → Prop}
  {M M' : Machine σ ε} {i : Nat} {e : Event ε}

theorem fresh (P : Nat → Routine ε → List (Event ε) → Prop) (nil : Q []) (threads : Nat)
    (m : Memory) (s : σ) : (Machine.idle threads m s : Machine σ ε).Booked P Q where
  attended := .idle _ threads m s
  idle _ := nil

/-- A thread has moved. -/
theorem advance (h : M.Booked P Q) {o : Option (Routine ε)} (busy : i < M.threads.length)
    (threads : M'.threads = M.threads.set i o) (log : M'.log = (i, e) :: M.log)
    (own : ∀ r, o = some r → P' i r (e :: share M.log i))
    (ended : o = none → Q (e :: share M.log i)) (kept : M'.holder = some i → o ≠ none)
    (others : ∀ j ≠ i, (M'.holder = some j → M.holder = some j) ∧
      ∀ r es, P j r es → P' j r es) : M'.Booked P' Q where
  attended := by
    refine h.attended.advance busy threads (fun r hr => ?_) kept fun j hj =>
      ⟨(others j hj).1, fun r hr => ?_⟩
    · rw [log, share_cons_self]
      exact own r hr
    · rw [log, share_cons_of_ne hj]
      exact (others j hj).2 r _ hr
  idle {j} hidle := by
    rw [threads] at hidle
    rw [log]
    by_cases hj : j = i
    · subst hj
      rw [share_cons_self]
      refine ended ?_
      cases o with
      | none => rfl
      | some r => exact absurd (List.getElem?_set_self busy) (hidle r)
    · rw [share_cons_of_ne hj]
      refine h.idle fun r hr => hidle r ?_
      rwa [List.getElem?_set_ne (Ne.symm hj)]

/-- Every thread has its share, with a call or without. -/
theorem busy_or_idle (h : M.Booked P Q) (i : Nat) :
    (∃ r, M.threads[i]? = some (some r) ∧ P i r (share M.log i)) ∨ Q (share M.log i) := by
  by_cases hidle : ∀ r, M.threads[i]? ≠ some (some r)
  · exact .inr (h.idle hidle)
  · obtain ⟨r, hr⟩ := not_forall.mp hidle
    exact .inl ⟨r, not_not.mp hr, h.attended.each (not_not.mp hr)⟩

/-- A thread without a call has its share. -/
theorem of_not_busy (h : M.Booked P Q) (idle : M.busy i = false) : Q (share M.log i) :=
  h.idle fun _ hr => absurd (idle.symm.trans (Machine.busy_of_call hr)) nofun

end Machine.Booked

/-- While a thread works under the lock, and when it leaves, no other one holds it. -/
theorem Machine.holder_ne_of_holder {M M' : Machine σ ε} {i : Nat} (holder : M.holder = some i)
    (kept : M'.holder = some i ∨ M'.holder = none) :
    ∀ j ≠ i, M.holder ≠ some j ∧ M'.holder ≠ some j := by
  intro j hj
  refine ⟨by simp [holder, Ne.symm hj], ?_⟩
  rcases kept with hkept | hkept
  · simp [hkept, Ne.symm hj]
  · simp [hkept]

/-- The log has one event for each move. -/
theorem Arena.length_log_run {A : Arena σ ε} {threads : Nat} {m : Memory} {s : σ}
    {sched : List Nat} {M : Machine σ ε} (h : A.run (.idle threads m s) sched = some M) :
    M.log.length = sched.length := by
  obtain ⟨es, hlog, hlength⟩ := Arena.exists_log_run h
  simpa [Machine.idle, hlength] using congrArg List.length hlog

/-! ## No deadlock -/

/-- While a thread makes a call, one that does can move, unless the holder of the lock waits for
it. -/
theorem Machine.Attended.exists_move {A : Arena σ ε} {M : Machine σ ε} {P : Nat → Routine ε → Prop}
    (h : M.Attended P) (free : ∀ i w, P i (.acquire w) → M.holder ≠ some i) {i : Nat}
    (busy : M.busy i = true) : ∃ j M', M.busy j = true ∧ A.move M j = some M' := by
  have moves : ∀ {j : Nat} {r : Routine ε} {M' : Machine σ ε}, M.threads[j]? = some (some r) →
      A.act M j r = some M' → ∃ j M', M.busy j = true ∧ A.move M j = some M' :=
    fun hr hact => ⟨_, _, Machine.busy_of_call hr, by rw [Arena.move, hr]; exact hact⟩
  obtain ⟨r, hr⟩ := Machine.exists_of_busy busy
  cases hact : A.act M i r with
  | some M' => exact moves hr hact
  | none =>
    -- the thread waits for the holder of the lock, who does not
    obtain ⟨-, j, -, hholder⟩ := Arena.act_eq_none hact
    obtain ⟨r', hr'⟩ := h.held hholder
    cases hact' : A.act M j r' with
    | some M' => exact moves hr' hact'
    | none =>
      obtain ⟨w, -, rfl, -⟩ := Arena.act_eq_none hact'
      exact absurd hholder (free j w (h.each hr'))

end HiLo
