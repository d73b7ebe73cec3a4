/-
HiLo.Proofs.Steps — a call, one action at a time.

A call that nothing disturbs is performed as a whole by `Routine.run`, and one of
several calls that overlap action by action by `Arena.act`. `Routine.step` is what the
two share: one action, with what it leaves of the call, of the cells and of the source.
All that an action can do to a machine is said in terms of it (`Arena.act_cases`).

`Performs` follows the steps of a call to its end. It agrees with `Routine.run` where
that comes to an end (`Performs.of_run`), but it can also be entered in the middle of a
draw, where the bound on the answers of a draw would count anew.
-/
import HiLo.Machine
import HiLo.Proofs.Draws

namespace HiLo

variable {σ ε : Type}

/-! ## Single actions -/

/-- An action, with what it leaves: the rest of the call, the cells and the source. -/
structure Stepped (σ ε : Type) where
  act : Act ε
  rest : Routine ε
  memory : Memory
  source : σ

/-- The next action of a call that finds the lock free, unless the call is over. -/
def Routine.step (S : Source σ ε) (kind : LockKind) (m : Memory) (s : σ) :
    Routine ε → Option (Stepped σ ε)
  | .finish _ => none
  | .note n rest => some ⟨.noted n, rest, m, s⟩
  | .readHi rest => some ⟨.sawHi m.hi, rest m.hi, m, s⟩
  | .readLo rest => some ⟨.sawLo m.lo, rest m.lo, m, s⟩
  | .writeHi hi rest => some ⟨.wroteHi hi, rest, { m with hi }, s⟩
  | .writeLo lo rest => some ⟨.wroteLo lo, rest, { m with lo }, s⟩
  | .bumpLo rest => some ⟨.bumpedLo (m.lo + 1), rest (m.lo + 1), { m with lo := m.lo + 1 }, s⟩
  | .readVersion rest => some ⟨.sawVersion m.version, rest m.version, m, s⟩
  | .bumpVersion rest =>
    some ⟨.bumpedVersion (m.version + 1), rest, { m with version := m.version + 1 }, s⟩
  | .acquire rest =>
    if m.poisoned then some ⟨.refused, .finish (.failed .poisoned), m, s⟩
    else some ⟨.acquired, rest, m, s⟩
  | .release crashed rest => some ⟨.released crashed, rest, m.released kind crashed, s⟩
  | .draw rest =>
    let (r, s') := S.next s
    some ⟨.asked r, if r.isReserved then .draw rest else rest r, m, s'⟩

def Act.isEntry : Act ε → Bool
  | .acquired | .refused => true
  | _ => false

def Act.holder (a : Act ε) (i : Nat) (before : Option Nat) : Option Nat :=
  match a with
  | .acquired => some i
  | .released _ => none
  | _ => before

/-- **All that an action can do to a machine.** It ends the call, or it is a step, and the
lock was free if it is the attempt to take it. -/
theorem Arena.act_cases {A : Arena σ ε} {M M' : Machine σ ε} {i : Nat} {r : Routine ε}
    (h : A.act M i r = some M') :
    (∃ e, r = .finish e ∧
      M' = { M with threads := M.threads.set i none, log := (i, .ended e) :: M.log }) ∨
    ∃ p, r.step A.source A.kind M.memory M.source = some p ∧
      (p.act.isEntry = true → M.holder = none) ∧
      M' = ⟨p.memory, p.act.holder i M.holder, p.source, M.threads.set i (some p.rest),
        (i, .did p.act) :: M.log⟩ := by
  cases r with
  | finish e => exact .inl ⟨e, rfl, (Option.some.inj h).symm⟩
  | acquire rest =>
    simp only [act] at h
    split at h
    · cases h
    · next hfree =>
      split at h
      · next hm =>
        exact .inr ⟨_, if_pos hm, fun _ => hfree, (Option.some.inj h).symm⟩
      · next hm =>
        exact .inr ⟨_, if_neg hm, fun _ => hfree, (Option.some.inj h).symm⟩
  | _ => exact .inr ⟨_, rfl, nofun, (Option.some.inj h).symm⟩

/-- Nothing has to wait but the attempt to take the lock that somebody holds. -/
theorem Arena.act_eq_none {A : Arena σ ε} {M : Machine σ ε} {i : Nat} {r : Routine ε}
    (h : A.act M i r = none) : ∃ w j, r = .acquire w ∧ M.holder = some j := by
  cases r with
  | acquire w =>
    simp only [act] at h
    split at h
    · next j hheld => exact ⟨w, j, rfl, hheld⟩
    · split at h <;> cases h
  | _ => cases h

/-- A move begins a call, or it is an action of one. -/
theorem Arena.move_cases {A : Arena σ ε} {M M' : Machine σ ε} {i : Nat}
    (h : A.move M i = some M') :
    (M.threads[i]? = some none ∧
      M' = { M with threads := M.threads.set i (some A.call), log := (i, .began) :: M.log }) ∨
    ∃ r, M.threads[i]? = some (some r) ∧ A.act M i r = some M' := by
  unfold move at h
  split at h
  · cases h
  · next hidle => exact .inl ⟨hidle, (Option.some.inj h).symm⟩
  · next r hbusy => exact .inr ⟨r, hbusy, h⟩

/-- Only a draw asks the source. -/
theorem Routine.exists_draw_of_step {S : Source σ ε} {kind : LockKind} {m : Memory} {s : σ}
    {r : Routine ε} {p : Stepped σ ε} {a : Reply ε} (h : r.step S kind m s = some p)
    (asked : p.act = .asked a) : ∃ f, r = .draw f := by
  cases r with
  | draw f => exact ⟨f, rfl⟩
  | finish e => cases h
  | acquire rest =>
    simp only [step] at h
    split at h <;> obtain rfl := Option.some.inj h <;> cases asked
  | _ =>
    obtain rfl := Option.some.inj h
    cases asked

/-- A move that asks the source is that of a thread at a draw. -/
theorem Arena.exists_draw_of_move {A : Arena σ ε} {M M' : Machine σ ε} {i : Nat} {a : Reply ε}
    (h : A.move M i = some M') (asked : M'.log = (i, .did (.asked a)) :: M.log) :
    ∃ f, M.threads[i]? = some (some (.draw f)) := by
  rcases move_cases h with ⟨-, rfl⟩ | ⟨r, hbusy, hact⟩
  · cases asked
  · rcases act_cases hact with ⟨e, -, rfl⟩ | ⟨p, hp, -, rfl⟩
    · cases asked
    · simp only [List.cons.injEq, Prod.mk.injEq, Event.did.injEq, true_and, and_true] at asked
      obtain ⟨f, rfl⟩ := Routine.exists_draw_of_step hp asked
      exact ⟨f, hbusy⟩

/-! ## Threads, one by one -/

/-- Something holds of the rest of every call, and nobody holds the lock but a thread with
a call. -/
structure Machine.Attended (P : Nat → Routine ε → Prop) (M : Machine σ ε) : Prop where
  held {i : Nat} (holder : M.holder = some i) : ∃ r, M.threads[i]? = some (some r)
  each {i : Nat} {r : Routine ε} (busy : M.threads[i]? = some (some r)) : P i r

namespace Machine.Attended

variable {P P' : Nat → Routine ε → Prop} {M M' : Machine σ ε} {i : Nat}

theorem idle (P : Nat → Routine ε → Prop) (threads : Nat) (m : Memory) (s : σ) :
    (Machine.idle threads m s : Machine σ ε).Attended P where
  held := nofun
  each busy := by
    simp only [Machine.idle] at busy
    rw [List.getElem?_replicate] at busy
    split at busy <;> cases busy

/-- An idle thread does not hold the lock. -/
theorem holder_ne (h : M.Attended P) (idle : M.threads[i]? = some none) : M.holder ≠ some i := by
  intro hholder
  obtain ⟨r, hr⟩ := h.held hholder
  exact absurd (idle.symm.trans hr) nofun

/-- A thread has moved. -/
theorem advance (h : M.Attended P) {o : Option (Routine ε)} (busy : i < M.threads.length)
    (threads : M'.threads = M.threads.set i o) (own : ∀ r, o = some r → P' i r)
    (kept : M'.holder = some i → o ≠ none)
    (others : ∀ j ≠ i, (M'.holder = some j → M.holder = some j) ∧ ∀ r, P j r → P' j r) :
    M'.Attended P' where
  held {j} hj := by
    rw [threads, List.getElem?_set]
    by_cases hij : i = j
    · subst hij
      obtain ⟨r, rfl⟩ := Option.ne_none_iff_exists'.mp (kept hj)
      exact ⟨r, by rw [if_pos rfl, if_pos busy]⟩
    · rw [if_neg hij]
      exact h.held ((others j (Ne.symm hij)).1 hj)
  each {j r} hbusy := by
    rw [threads, List.getElem?_set] at hbusy
    by_cases hij : i = j
    · subst hij
      rw [if_pos rfl, if_pos busy] at hbusy
      exact own r (Option.some.inj hbusy)
    · rw [if_neg hij] at hbusy
      exact (others j (Ne.symm hij)).2 r (h.each hbusy)

end Machine.Attended

/-! ## Draws, answer by answer -/

/-- A source gives some answers, the last of which is the only one that is not the
reserved value, and is in a state then. -/
inductive Source.Yields (S : Source σ ε) : σ → List (Reply ε) → Reply ε → σ → Prop where
  | found {s : σ} (useful : (S.next s).1.isReserved = false) :
      S.Yields s [(S.next s).1] (S.next s).1 (S.next s).2
  | skipped {s s' : σ} {rs : List (Reply ε)} {r : Reply ε}
      (useless : (S.next s).1.isReserved = true) (rest : S.Yields (S.next s).2 rs r s') :
      S.Yields s ((S.next s).1 :: rs) r s'

/-- After the reserved value the source yields the rest. -/
theorem Source.Yields.of_reserved {S : Source σ ε} {s s' : σ} {rs : List (Reply ε)} {r : Reply ε}
    (h : S.Yields s rs r s') (useless : (S.next s).1.isReserved = true) :
    ∃ rs', rs = (S.next s).1 :: rs' ∧ S.Yields (S.next s).2 rs' r s' := by
  cases h with
  | found useful => exact absurd useless (by simp [useful])
  | skipped _ rest => exact ⟨_, rfl, rest⟩

/-- A draw that finds an answer takes what the source yields. -/
theorem Source.yields_draw {S : Source σ ε} {s : σ} {r : Reply ε} (h : (S.draw s).reply = some r) :
    S.Yields s (S.draw s).answers r (S.draw s).state := by
  have hwithin : ∀ {n : Nat} {s : σ}, (S.drawWithin n s).reply = some r →
      S.Yields s (S.drawWithin n s).answers r (S.drawWithin n s).state := by
    intro n
    induction n with
    | zero => exact nofun
    | succ n ih =>
      intro s h
      unfold drawWithin at h ⊢
      by_cases hr : (S.next s).1.isReserved = true
      · have hanswer := Reply.eq_of_isReserved hr
        simp only [hr, if_true] at h ⊢
        have hrest := Yields.skipped hr (ih h)
        rw [hanswer] at hrest
        exact hrest
      · simp only [hr, Bool.false_eq_true, if_false, Option.some.injEq] at h ⊢
        subst h
        exact .found (Bool.eq_false_iff.mpr hr)
  exact hwithin h

/-- The actions of a draw are its answers. -/
theorem Draw.acts_eq_map (d : Draw σ ε) : d.acts = d.answers.map .asked := by
  unfold acts answers
  rw [List.map_append, List.map_replicate]
  cases d.reply <;> rfl

theorem filterMap_answer?_asked (rs : List (Reply ε)) :
    (rs.map Act.asked).filterMap Act.answer? = rs := by
  rw [List.filterMap_map]
  exact List.filterMap_some

/-! ## Calls, step by step -/

/-- A call is performed step by step, up to its end. -/
inductive Performs (S : Source σ ε) (kind : LockKind) :
    Routine ε → Memory → σ → Performed σ ε → Prop where
  | finish {e : Ending ε} {m : Memory} {s : σ} : Performs S kind (.finish e) m s ⟨e, m, s, []⟩
  | step {r : Routine ε} {m : Memory} {s : σ} {p : Stepped σ ε} {q : Performed σ ε}
      (first : r.step S kind m s = some p)
      (rest : Performs S kind p.rest p.memory p.source q) :
      Performs S kind r m s (q.prepend p.act)

namespace Performs

variable {S : Source σ ε} {kind : LockKind} {r : Routine ε} {m : Memory} {s : σ}
  {p : Stepped σ ε} {q : Performed σ ε}

/-- A step in front. -/
theorem cons {a : Act ε} {rest : Routine ε} {m' : Memory} {s' : σ}
    (first : r.step S kind m s = some ⟨a, rest, m', s'⟩) (h : Performs S kind rest m' s' q) :
    Performs S kind r m s (q.prepend a) :=
  .step first h

/-- What is performed after a step. -/
theorem of_step (h : Performs S kind r m s q) (hstep : r.step S kind m s = some p) :
    ∃ q', Performs S kind p.rest p.memory p.source q' ∧ q = q'.prepend p.act := by
  cases h with
  | finish => cases hstep
  | step first rest =>
    obtain rfl := Option.some.inj (first.symm.trans hstep)
    exact ⟨_, rest, rfl⟩

theorem of_finish {e : Ending ε} (h : Performs S kind (.finish e) m s q) : q = ⟨e, m, s, []⟩ := by
  cases h with
  | finish => rfl
  | step first _ => cases first

/-- A call that draws goes on with what the source yields. -/
theorem draw {f : Reply ε → Routine ε} {rs : List (Reply ε)} {a : Reply ε} {s' : σ}
    (h : S.Yields s rs a s') (rest : Performs S kind (f a) m s' q) :
    Performs S kind (.draw f) m s { q with acts := rs.map .asked ++ q.acts } := by
  induction h with
  | found useful =>
    refine cons (r := .draw f) (q := q) rfl ?_
    rw [if_neg (Bool.eq_false_iff.mp useful)]
    exact rest
  | @skipped s s' rs a useless _ ih =>
    refine cons (r := .draw f) (q := { q with acts := rs.map .asked ++ q.acts }) rfl ?_
    rw [if_pos useless]
    exact ih rest

/-- **A call that comes to an end undisturbed is performed as it was run.** -/
theorem of_run (r : Routine ε) : ∀ (m : Memory) (s : σ),
    (r.run S kind m s).ending ≠ .unsettled → Performs S kind r m s (r.run S kind m s) := by
  induction r with
  | finish e => exact fun _ _ _ => .finish
  | note n rest ih => exact fun m s h => cons (m := m) (s := s) rfl (ih m s h)
  | readHi rest ih => exact fun m s h => cons (m := m) (s := s) rfl (ih _ m s h)
  | readLo rest ih => exact fun m s h => cons (m := m) (s := s) rfl (ih _ m s h)
  | writeHi hi rest ih => exact fun m s h => cons (m := m) (s := s) rfl (ih _ s h)
  | writeLo lo rest ih => exact fun m s h => cons (m := m) (s := s) rfl (ih _ s h)
  | bumpLo rest ih => exact fun m s h => cons (m := m) (s := s) rfl (ih _ _ s h)
  | readVersion rest ih => exact fun m s h => cons (m := m) (s := s) rfl (ih _ m s h)
  | bumpVersion rest ih => exact fun m s h => cons (m := m) (s := s) rfl (ih _ s h)
  | release crashed rest ih => exact fun m s h => cons (m := m) (s := s) rfl (ih _ s h)
  | acquire rest ih =>
    intro m s h
    simp only [Routine.run] at h ⊢
    split at h
    · next hm =>
      rw [if_pos hm]
      exact cons (r := .acquire rest) (if_pos hm) .finish
    · next hm =>
      rw [if_neg hm]
      exact cons (r := .acquire rest) (if_neg hm) (ih m s h)
  | draw rest ih =>
    intro m s h
    simp only [Routine.run] at h ⊢
    cases hr : (S.draw s).reply with
    | none => simp [hr] at h
    | some a =>
      simp only [hr] at h ⊢
      rw [Draw.acts_eq_map]
      exact draw (Source.yields_draw hr) (ih a m _ h)

end Performs

end HiLo
